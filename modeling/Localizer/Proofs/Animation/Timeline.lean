import Localizer.Proofs.Animation.Codec
import Localizer.Proofs.Number

/-!
# Key frames in order

On an ordered timeline a time has a latest key frame not after it and a next one after it, and
editing at a time puts one key frame there and leaves the others alone. The key frame that is put
looks like the one that would be made there (`newKey`). Making key frames does not change which ones
would be made elsewhere (`Puts.newKey_eq`).
-/

namespace Localizer.Animation

open List Except Number

variable {t : Int} {k : Key} {ks : List Key}
variable {ks' ks₁ ks₂ : List Key} {u first last : Int} {s : Sweep} {f : Key → Key} {edits es es' : List KeyEdit}

def Ordered (ks : List Key) : Prop := ks.Pairwise fun k l => k.time < l.time

def latest? (t : Int) (ks : List Key) : Option Key := (ks.takeWhile fun k => k.time ≤ t).getLast?

def next? (t : Int) (ks : List Key) : Option Key := ks.find? fun k => t < k.time

theorem latest?_cons (t : Int) (k : Key) (ks : List Key) :
    latest? t (k :: ks) = if k.time ≤ t then some ((latest? t ks).getD k) else none := by
  unfold latest?
  split
  · next h => rw [takeWhile_cons_of_pos (by simpa using h), getLast?_cons]
  · next h => rw [takeWhile_cons_of_neg (by simpa using h), getLast?_nil]

namespace Ordered

variable (hs : Ordered ks) {l : Key}
include hs

theorem nodup_times : (ks.map (·.time)).Nodup := pairwise_map.mpr (hs.imp ne_of_lt)

theorem eq_of_time (hk : k ∈ ks) (hl : l ∈ ks) (h : k.time = l.time) : k = l :=
  inj_on_of_nodup_map hs.nodup_times hk hl h

theorem filter_time (hk : k ∈ ks) : (ks.filter fun l => l.time = k.time) = [k] := by
  have hnodup := (Nodup.of_map _ hs.nodup_times).filter fun l => decide (l.time = k.time)
  refine perm_singleton.mp ((perm_ext_iff_of_nodup hnodup (nodup_singleton k)).mpr fun l => ?_)
  rw [mem_filter, mem_singleton, decide_eq_true_iff]
  constructor
  · exact fun h => hs.eq_of_time h.1 hk h.2
  · rintro rfl
    exact ⟨hk, rfl⟩

theorem getLast?_eq_some_iff : ks.getLast? = some k ↔ k ∈ ks ∧ ∀ l ∈ ks, l.time ≤ k.time := by
  have hlast {k : Key} (h : ks.getLast? = some k) (l : Key) (hl : l ∈ ks) : l.time ≤ k.time := by
    obtain ⟨init, rfl⟩ := List.getLast?_eq_some_iff.mp h
    rcases mem_append.mp hl with hl | hl
    · exact ((pairwise_append.mp hs).2.2 l hl k mem_cons_self).le
    · exact (mem_singleton.mp hl) ▸ le_rfl
  refine ⟨fun h => ⟨mem_of_getLast? h, hlast h⟩, fun ⟨hk, hmax⟩ => ?_⟩
  obtain ⟨l, hl⟩ := Option.isSome_iff_exists.mp (getLast?_isSome.mpr (ne_nil_of_mem hk))
  have hmem := mem_of_getLast? hl
  rw [hl, hs.eq_of_time hmem hk (le_antisymm (hmax l hmem) (hlast hl k hk))]

theorem head?_eq_some_iff : ks.head? = some k ↔ k ∈ ks ∧ ∀ l ∈ ks, k.time ≤ l.time := by
  cases ks with
  | nil => simp
  | cons k₀ ks =>
    have hmin : ∀ l ∈ k₀ :: ks, k₀.time ≤ l.time := forall_mem_cons.mpr ⟨le_rfl, fun l hl => ((pairwise_cons.mp hs).1 l hl).le⟩
    rw [head?_cons, Option.some_inj]
    constructor
    · rintro rfl
      exact ⟨mem_cons_self, hmin⟩
    · exact fun h => hs.eq_of_time mem_cons_self h.1 (le_antisymm (hmin k h.1) (h.2 k₀ mem_cons_self))

theorem latest?_eq : latest? t ks = (ks.filter fun k => k.time ≤ t).getLast? := by
  unfold latest?
  congr 1
  induction hs with
  | nil => rfl
  | @cons k ks hlt _ ih =>
    by_cases hk : k.time ≤ t
    · rw [takeWhile_cons_of_pos (by simpa using hk), filter_cons_of_pos (by simpa using hk), ih]
    · rw [takeWhile_cons_of_neg (by simpa using hk), filter_cons_of_neg (by simpa using hk), eq_comm, filter_eq_nil_iff]
      intro l hl
      have := hlt l hl
      rw [decide_eq_true_eq]
      omega

theorem latest?_eq_none_iff : latest? t ks = none ↔ ∀ k ∈ ks, t < k.time := by
  rw [hs.latest?_eq, getLast?_eq_none_iff, filter_eq_nil_iff]
  simp

theorem latest?_eq_some_iff :
    latest? t ks = some k ↔ k ∈ ks ∧ k.time ≤ t ∧ ∀ l ∈ ks, l.time ≤ t → l.time ≤ k.time := by
  rw [hs.latest?_eq, getLast?_eq_some_iff (Pairwise.filter _ hs)]
  simp [and_assoc]

omit hs in
theorem next?_eq_none_iff : next? t ks = none ↔ ∀ k ∈ ks, k.time ≤ t := by
  simp [next?]

theorem next?_eq_some_iff :
    next? t ks = some l ↔ l ∈ ks ∧ t < l.time ∧ ∀ k ∈ ks, t < k.time → l.time ≤ k.time := by
  rw [next?, ← head?_filter, head?_eq_some_iff (Pairwise.filter _ hs)]
  simp [and_assoc]

end Ordered

/-! ### The key frame that is made at a time -/

def Key.at (t : Int) (k : Key) : Key := { k with time := t }

theorem fits_at : (k.at t).fits = k.fits := rfl

/-- The key frame that a new one at a time looks like. -/
structure IsSource (t : Int) (ks : List Key) (k : Key) : Prop where
  mem : k ∈ ks
  place : (k.time ≤ t ∧ ∀ l ∈ ks, l.time ≤ t → l.time ≤ k.time) ∨ ∀ l ∈ ks, t < l.time ∧ k.time ≤ l.time

namespace Ordered

variable (hs : Ordered ks) {k l : Key}
include hs

theorem inOrder_eq : inOrder ks = ks :=
  mergeSort_of_pairwise (hs.imp fun h => decide_eq_true h.le)

theorem sourceKey?_eq : sourceKey? t ks = (latest? t ks).or ks.head? := by
  rw [sourceKey?, hs.inOrder_eq]
  rfl

theorem isSource_unique (hk : IsSource t ks k) (hl : IsSource t ks l) : k = l := by
  refine hs.eq_of_time hk.mem hl.mem ?_
  rcases hk.place with ⟨hle, hmax⟩ | hall
  · rcases hl.place with ⟨hle', hmax'⟩ | hall'
    · exact le_antisymm (hmax' k hk.mem hle) (hmax l hl.mem hle')
    · exact absurd hle (not_le.mpr (hall' k hk.mem).1)
  · rcases hl.place with ⟨hle', hmax'⟩ | hall'
    · exact absurd hle' (not_le.mpr (hall l hl.mem).1)
    · exact le_antisymm (hall l hl.mem).2 (hall' k hk.mem).2

theorem isSource_of_latest? (h : latest? t ks = some k) : IsSource t ks k := by
  obtain ⟨hmem, hle, hmax⟩ := hs.latest?_eq_some_iff.mp h
  exact ⟨hmem, .inl ⟨hle, hmax⟩⟩

theorem isSource_of_next? (hnone : latest? t ks = none) (h : next? t ks = some k) :
    IsSource t ks k := by
  obtain ⟨hmem, -, hmin⟩ := hs.next?_eq_some_iff.mp h
  have hall := hs.latest?_eq_none_iff.mp hnone
  exact ⟨hmem, .inr fun l hl => ⟨hall l hl, hmin l hl (hall l hl)⟩⟩

theorem isSource_of_sourceKey? (h : sourceKey? t ks = some k) : IsSource t ks k := by
  rw [hs.sourceKey?_eq] at h
  rcases Option.or_eq_some_iff.mp h with hlatest | ⟨hnone, hhead⟩
  · exact hs.isSource_of_latest? hlatest
  · exact ⟨mem_of_mem_head? hhead,
      .inr fun l hl => ⟨hs.latest?_eq_none_iff.mp hnone l hl, (hs.head?_eq_some_iff.mp hhead).2 l hl⟩⟩

theorem sourceKey?_eq_some_iff : sourceKey? t ks = some k ↔ IsSource t ks k := by
  refine ⟨hs.isSource_of_sourceKey?, fun h => ?_⟩
  cases hsource : sourceKey? t ks with
  | none =>
    rw [hs.sourceKey?_eq, Option.or_eq_none_iff, head?_eq_none_iff] at hsource
    have := h.mem
    simp [hsource.2] at this
  | some l => rw [hs.isSource_unique (hs.isSource_of_sourceKey? hsource) h]

theorem newKey_of_isSource (h : IsSource t ks k) : newKey t ks = copyKey t k := by
  rw [newKey, hs.sourceKey?_eq_some_iff.mpr h]

theorem exists_isSource (hne : ks ≠ []) (t : Int) : ∃ k, IsSource t ks k := by
  cases hsource : sourceKey? t ks with
  | none =>
    rw [hs.sourceKey?_eq, Option.or_eq_none_iff, head?_eq_none_iff] at hsource
    exact absurd hsource.2 hne
  | some k => exact ⟨k, hs.isSource_of_sourceKey? hsource⟩

end Ordered

/-- A timeline that can be edited: it is in order, and its key frames can be copied. -/
structure Editable (ks : List Key) : Prop where
  ordered : Ordered ks
  fits : ∀ k ∈ ks, k.fits

theorem newKey_nil (t : Int) : newKey t [] = .ok (defaultKey t) := by
  rw [newKey, Ordered.sourceKey?_eq List.Pairwise.nil]
  rfl

theorem copyKey_of_fits (h : k.fits) : copyKey t k = .ok (k.at t) := by
  rw [copyKey, if_pos h]
  rfl

theorem Ordered.eq_of_newKey (hs : Ordered ks) (hk : newKey t ks = .ok k) :
    ks = [] ∧ k = defaultKey t ∨ ∃ s, IsSource t ks s ∧ k = s.at t := by
  by_cases hne : ks = []
  · subst hne
    exact .inl ⟨rfl, ok.inj (hk.symm.trans (newKey_nil t))⟩
  · obtain ⟨s, hsource⟩ := hs.exists_isSource hne t
    rw [hs.newKey_of_isSource hsource, copyKey] at hk
    split at hk
    · exact .inr ⟨s, hsource, (ok.inj hk).symm⟩
    · cases hk

theorem Ordered.time_of_newKey (hs : Ordered ks) (hk : newKey t ks = .ok k) : k.time = t := by
  rcases hs.eq_of_newKey hk with ⟨-, rfl⟩ | ⟨s, -, rfl⟩ <;> rfl

namespace Editable

variable (h : Editable ks)
include h

theorem newKey_eq (hk : IsSource t ks k) : newKey t ks = .ok (k.at t) := by
  rw [h.ordered.newKey_of_isSource hk, copyKey_of_fits (h.fits k hk.mem)]

theorem exists_newKey (t : Int) : ∃ k, newKey t ks = .ok k ∧ k.time = t ∧ k.fits := by
  by_cases hne : ks = []
  · subst hne
    exact ⟨defaultKey t, newKey_nil t, rfl, rfl⟩
  · obtain ⟨k, hk⟩ := h.ordered.exists_isSource hne t
    exact ⟨k.at t, h.newKey_eq hk, rfl, fits_at.trans (h.fits k hk.mem)⟩

theorem newKey_of_mem (hk : k ∈ ks) : newKey k.time ks = .ok k :=
  h.newKey_eq ⟨hk, .inl ⟨le_rfl, fun _ _ hle => hle⟩⟩

end Editable

/-! ### Putting a key frame -/

/-- The second timeline is the first one with a key frame put at its time. -/
structure Puts (k : Key) (ks ks' : List Key) : Prop where
  ordered : Ordered ks'
  /-- It has that key frame, and the others of the first one. -/
  mem_iff : ∀ l, l ∈ ks' ↔ l ∈ ks ∧ l.time ≠ k.time ∨ l = k

theorem Puts.mem (h : Puts k ks ks') : k ∈ ks' := (h.mem_iff k).mpr (.inr rfl)

theorem Puts.isSource_of_mem {s : Key} (h : Puts k ks ks') (hs : IsSource u ks' s)
    (hmem : s ∈ ks) : IsSource u ks s := by
  have hcover (l : Key) (hl : l ∈ ks) : ∃ l' ∈ ks', l'.time = l.time := by
    by_cases htime : l.time = k.time
    · exact ⟨k, h.mem, htime.symm⟩
    · exact ⟨l, (h.mem_iff l).mpr (.inl ⟨hl, htime⟩), rfl⟩
  refine ⟨hmem, ?_⟩
  rcases hs.place with ⟨hle, hmax⟩ | hall
  · refine .inl ⟨hle, fun l hl hlt => ?_⟩
    obtain ⟨l', hl', htime⟩ := hcover l hl
    exact htime ▸ hmax l' hl' (htime ▸ hlt)
  · refine .inr fun l hl => ?_
    obtain ⟨l', hl', htime⟩ := hcover l hl
    exact htime ▸ hall l' hl'

theorem Puts.isSource_of_copy {s : Key} (h : Puts (s.at t) ks ks')
    (hsource : IsSource t ks s) (hs : IsSource u ks' (s.at t)) : IsSource u ks s := by
  have hcover (l : Key) (hl : l ∈ ks) (hne : l.time ≠ t) : l ∈ ks' := (h.mem_iff l).mpr (.inl ⟨hl, hne⟩)
  refine ⟨hsource.mem, ?_⟩
  rcases hs.place with ⟨hle, hmax⟩ | hall
  · have hupto (l : Key) (hl : l ∈ ks) (hlu : l.time ≤ u) : l.time ≤ t := by
      by_cases hne : l.time = t
      · exact hne.le
      · exact hmax l (hcover l hl hne) hlu
    rcases hsource.place with ⟨hst, hsmax⟩ | hsall
    · exact .inl ⟨hst.trans hle, fun l hl hlu => hsmax l hl (hupto l hl hlu)⟩
    · refine .inr fun l hl => ⟨lt_of_not_ge fun hlu => ?_, (hsall l hl).2⟩
      exact absurd (hupto l hl hlu) (not_le.mpr (hsall l hl).1)
  · have hafter (l : Key) (hl : l ∈ ks) : u < l.time ∧ t ≤ l.time := by
      by_cases hne : l.time = t
      · exact ⟨hne ▸ (hall _ h.mem).1, hne.ge⟩
      · exact hall l (hcover l hl hne)
    refine .inr fun l hl => ⟨(hafter l hl).1, ?_⟩
    rcases hsource.place with ⟨hst, -⟩ | hsall
    · exact hst.trans (hafter l hl).2
    · exact (hsall l hl).2

/-- **Making a key frame changes no other one that would be made.** The new one looks like the one
that is made from it later. -/
theorem Puts.newKey_eq (hs : Editable ks) (hk : newKey t ks = .ok k) (h : Puts k ks ks')
    (u : Int) : newKey u ks' = newKey u ks := by
  obtain ⟨s', hs'⟩ := h.ordered.exists_isSource (ne_nil_of_mem h.mem) u
  rw [h.ordered.newKey_of_isSource hs']
  rcases (h.mem_iff s').mp hs'.mem with ⟨hmem, -⟩ | rfl
  · exact (hs.ordered.newKey_of_isSource (h.isSource_of_mem hs' hmem)).symm
  · rcases hs.ordered.eq_of_newKey hk with ⟨rfl, rfl⟩ | ⟨s, hsource, rfl⟩
    · exact (newKey_nil u).symm
    · rw [copyKey_of_fits (fits_at.trans (hs.fits s hsource.mem))]
      exact (hs.newKey_eq (h.isSource_of_copy hsource hs')).symm

/-! ### Editing -/

theorem Puts.trans {k' : Key} (htime : k'.time = k.time) (h : Puts k ks ks₁)
    (h' : Puts k' ks₁ ks₂) : Puts k' ks ks₂ := by
  refine ⟨h'.ordered, fun l => ?_⟩
  rw [h'.mem_iff, h.mem_iff, htime]
  constructor
  · rintro (⟨hl | rfl, hne⟩ | hl)
    · exact .inl hl
    · exact absurd rfl hne
    · exact .inr hl
  · rintro (hl | hl)
    · exact .inl ⟨.inl hl, hl.2⟩
    · exact .inr hl

theorem puts_modifyKey (hs : Ordered ks) (hk : k ∈ ks) (hf : (f k).time = k.time) :
    Puts (f k) ks (modifyKey k.time f ks) := by
  induction ks with
  | nil => cases hk
  | cons k₀ ks ih =>
    obtain ⟨hlt, hs'⟩ := pairwise_cons.mp hs
    rw [modifyKey]
    split
    · next htime =>
      obtain rfl : k₀ = k := hs.eq_of_time mem_cons_self hk htime
      refine ⟨pairwise_cons.mpr ⟨fun l hl => hf ▸ hlt l hl, hs'⟩, fun l => ?_⟩
      rw [mem_cons, mem_cons, hf]
      constructor
      · rintro (hl | hl)
        · exact .inr hl
        · exact .inl ⟨.inr hl, (hlt l hl).ne'⟩
      · rintro (⟨rfl | hl, hne⟩ | hl)
        · exact absurd rfl hne
        · exact .inr hl
        · exact .inl hl
    · next htime =>
      have hk' : k ∈ ks := (mem_cons.mp hk).resolve_left fun heq => htime (heq ▸ rfl)
      obtain ⟨hordered, hmem⟩ := ih hs' hk'
      refine ⟨pairwise_cons.mpr ⟨fun l hl => ?_, hordered⟩, fun l => ?_⟩
      · rcases (hmem l).mp hl with ⟨hl, -⟩ | rfl
        · exact hlt l hl
        · exact hf ▸ hlt k hk'
      · rw [mem_cons, mem_cons, hmem, hf]
        constructor
        · rintro (rfl | ⟨hl, hne⟩ | hl)
          · exact .inl ⟨.inl rfl, htime⟩
          · exact .inl ⟨.inr hl, hne⟩
          · exact .inr hl
        · rintro (⟨rfl | hl, hne⟩ | hl)
          · exact .inl rfl
          · exact .inr (.inl ⟨hl, hne⟩)
          · exact .inr (.inr hl)

theorem ordered_inOrder (h : (ks.map (·.time)).Nodup) : Ordered (inOrder ks) := by
  have hperm := (inOrder_perm ks).map (·.time)
  have hnodup : (inOrder ks).Pairwise fun k l => k.time ≠ l.time := pairwise_map.mp (hperm.nodup_iff.mpr h)
  exact (stablySorted_inOrder ks).ordered.imp₂ (fun _ _ => lt_of_le_of_ne) hnodup

theorem Ordered.puts_self (hs : Ordered ks) (hk : k ∈ ks) : Puts k ks ks := by
  refine ⟨hs, fun l => ⟨fun hl => ?_, ?_⟩⟩
  · by_cases heq : l.time = k.time
    · exact .inr (hs.eq_of_time hl hk heq)
    · exact .inl ⟨hl, heq⟩
  · rintro (⟨hl, -⟩ | rfl)
    · exact hl
    · exact hk

theorem mem_of_previousKey? (h : previousKey? t ks = some k) : k ∈ ks :=
  (inOrder_perm ks).mem_iff.mp (takeWhile_subset _ (mem_of_getLast? h))

theorem Ordered.puts_of_ensureKey (hs : Ordered ks) (h : ensureKey t ks = .ok ks') :
    (ks' = ks ∧ ∃ k ∈ ks, k.time = t) ∨
      (∀ l ∈ ks, l.time ≠ t) ∧ ∃ k, newKey t ks = .ok k ∧ Puts k ks ks' := by
  unfold ensureKey at h
  split at h
  · next hany =>
    obtain ⟨k, hk, htime⟩ := any_eq_true.mp hany
    exact .inl ⟨(ok.inj h).symm, k, hk, of_decide_eq_true htime⟩
  · next hany =>
    have hnew (l : Key) (hl : l ∈ ks) : l.time ≠ t := fun heq =>
      hany (any_eq_true.mpr ⟨l, hl, decide_eq_true heq⟩)
    obtain ⟨k, hk, h⟩ := exists_of_bind_ok h
    obtain rfl := ok.inj h
    have htime := hs.time_of_newKey hk
    have hnodup : ((ks ++ [k]).map (·.time)).Nodup := by
      rw [map_append, map_singleton, ← concat_eq_append]
      refine Nodup.concat (fun hmem => ?_) hs.nodup_times
      obtain ⟨l, hl, heq⟩ := mem_map.mp hmem
      exact hnew l hl (heq.trans htime)
    refine .inr ⟨hnew, k, hk, ordered_inOrder hnodup, fun l => ?_⟩
    rw [(inOrder_perm _).mem_iff, mem_append, mem_singleton, htime]
    exact or_congr_left ⟨fun hl => ⟨hl, hnew l hl⟩, And.left⟩

namespace Editable

variable (h : Editable ks)
include h

theorem exists_ensureKey (hk : newKey t ks = .ok k) :
    ∃ ks', ensureKey t ks = .ok ks' ∧ Puts k ks ks' := by
  obtain ⟨ks', hks'⟩ : ∃ ks', ensureKey t ks = .ok ks' := by
    unfold ensureKey
    rw [hk]
    split <;> exact ⟨_, rfl⟩
  refine ⟨ks', hks', ?_⟩
  rcases h.ordered.puts_of_ensureKey hks' with ⟨rfl, l, hl, rfl⟩ | ⟨-, k', hk', hputs⟩
  · exact ok.inj ((h.newKey_of_mem hl).symm.trans hk) ▸ h.ordered.puts_self hl
  · exact ok.inj (hk'.symm.trans hk) ▸ hputs

/-- **An edit puts the key frame that would be made, changed, and nothing else.** -/
theorem exists_editKey (hk : newKey t ks = .ok k) (hf : (f k).time = k.time) :
    ∃ ks', editKey t f ks = .ok ks' ∧ Puts (f k) ks ks' := by
  obtain ⟨ks₁, hensure, hputs⟩ := h.exists_ensureKey hk
  refine ⟨modifyKey k.time f ks₁, ?_, hputs.trans hf (puts_modifyKey hputs.ordered hputs.mem hf)⟩
  rw [editKey, hensure, h.ordered.time_of_newKey hk]
  rfl

/-- After an edit that keeps the fields in range, the timeline can be edited again. -/
theorem puts (hk : k.fits) (hputs : Puts k ks ks') : Editable ks' := by
  refine ⟨hputs.ordered, fun l hl => ?_⟩
  rcases (hputs.mem_iff l).mp hl with ⟨hl, -⟩ | rfl
  · exact h.fits l hl
  · exact hk

end Editable

/-! ### Growing -/

/-- The second timeline is the first one, made sure of the key frame `k`. If the first one has no
key frame at that time, `k` is new: the default one if there was none at all, and otherwise a copy
of the latest one before it, or of the first one if there is none before it. -/
inductive Ensured (k : Key) (ks : List Key) : List Key → Prop where
  | found (hk : k ∈ ks) : Ensured k ks ks
  | made {ks' : List Key} (hnew : ∀ l ∈ ks, l.time ≠ k.time)
    (hk : ks = [] ∧ k = defaultKey k.time ∨ ∃ s, IsSource k.time ks s ∧ k = s.at k.time) (hputs : Puts k ks ks') :
    Ensured k ks ks'

/-- A timeline has grown out of another by edits. Each has made sure of a key frame (`Ensured`) and
then changed it, and no other, in one of the ways that `touch` allows for the timeline as it was
when the user began the edits. -/
inductive Grows (touch : List Key → (Key → Key) → Prop) (ks : List Key) : List Key → Prop where
  | refl : Grows touch ks ks
  | edit {ks₀ ks₁ ks₂ : List Key} {k : Key} {f : Key → Key} (h : Grows touch ks ks₁) (h₀ : Grows touch ks ks₀)
    (hensure : ensureKey k.time ks₁ = .ok ks₂) (hk : Ensured k ks₁ ks₂) (hf : touch ks₀ f)
    (hputs : Puts (f k) ks₂ (modifyKey k.time f ks₂)) : Grows touch ks (modifyKey k.time f ks₂)

/-- **What each edit keeps, a sweep keeps**, whether it reaches its end or not. -/
theorem keys_applyEdits {P : List Key → Prop} (hedits : ∀ e ∈ edits, ∀ f x t ks ks',
    e.change = .ok (some f) → fraction e.time = .ok x → cut x = .ok t → editKey t f ks = .ok ks' →
      P ks → P ks') (hs : P s.keys) : P (applyEdits edits s).keys := by
  fun_induction applyEdits edits s with
  | case1 s
  | case2 e es s fault hchange => exact hs
  | case3 e es s hchange ih => exact ih (forall_mem_cons.mp hedits).2 hs
  | case4 e es s f hchange fault hx
  | case5 e es s f hchange x hx fault hedit => exact hs
  | case6 e es s f hchange x hx ks hedit ih =>
    obtain ⟨hstep, hedits⟩ := forall_mem_cons.mp hedits
    obtain ⟨t, ht, hedit⟩ := exists_of_bind_ok hedit
    exact ih hedits (hstep f x t s.keys ks hchange hx ht hedit hs)

theorem Ordered.exists_ensured (hs : Ordered ks) (h : ensureKey t ks = .ok ks') :
    ∃ k, k.time = t ∧ Ensured k ks ks' ∧ Puts k ks ks' := by
  rcases hs.puts_of_ensureKey h with ⟨rfl, k, hk, htime⟩ | ⟨hnew, k, hk, hputs⟩
  · exact ⟨k, htime, .found hk, hs.puts_self hk⟩
  · obtain rfl := hs.time_of_newKey hk
    exact ⟨k, rfl, .made hnew (hs.eq_of_newKey hk) hputs, hputs⟩

namespace Grows

variable {touch : List Key → (Key → Key) → Prop}

theorem trans (h : Grows touch ks ks₁) (h' : Grows touch ks₁ ks') : Grows touch ks ks' := by
  induction h' with
  | refl => exact h
  | edit _ _ hensure hk hf hputs ih ih₀ => exact .edit ih ih₀ hensure hk hf hputs

theorem ordered (h : Grows touch ks ks') (hs : Ordered ks) : Ordered ks' := by
  cases h with
  | refl => exact hs
  | edit _ _ _ _ _ hputs => exact hputs.ordered

theorem editKey (h : Grows touch ks ks₁) (hs : Ordered ks) (hf : touch ks f)
    (htime : ∀ k, (f k).time = k.time) (hedit : editKey t f ks₁ = .ok ks') :
    Grows touch ks ks' := by
  obtain ⟨ks₂, hensure, hedit⟩ := exists_of_bind_ok hedit
  obtain rfl := ok.inj hedit
  obtain ⟨k, rfl, hk, hputs⟩ := (h.ordered hs).exists_ensured hensure
  exact .edit h .refl hensure hk hf (puts_modifyKey hputs.ordered hputs.mem (htime k))

/-- **Edits let timelines grow**, whether they reach their end or not. -/
theorem applyEdits (htouch : ∀ ks f, touch ks f → ∀ k, (f k).time = k.time)
    (hedits : ∀ e ∈ edits, ∀ f, e.change = .ok (some f) → touch s.keys f) (hs : Ordered s.keys) :
    Grows touch s.keys (applyEdits edits s).keys := by
  refine keys_applyEdits (fun e he f x t ks ks' hchange _ _ hedit h => ?_) .refl
  have hf := hedits e he f hchange
  exact h.editKey hs hf (htouch _ f hf) hedit

end Grows

/-! ### Sweeps -/

theorem mem_span : t ∈ span first last ↔ first ≤ t ∧ t ≤ last := by
  simp only [span, mem_map, mem_range]
  constructor
  · omega
  · rintro ⟨hfirst, hlast⟩
    exact ⟨(t - first).toNat, by omega, by omega⟩

theorem nodup_span (first last : Int) : (span first last).Nodup :=
  Nodup.map (fun i j h => by omega) nodup_range

theorem mem_borders {total : Int} :
    t ∈ borders first last total ↔
      0 < first ∧ t = first - 1 ∨ t = first ∨ last + 1 ≤ total ∧ t = last + 1 := by
  unfold borders
  split <;> split <;> simp <;> omega

/-- Edits lead from one timeline to another, without a fault. -/
def Sweeps (es : List KeyEdit) (ks ks' : List Key) : Prop :=
  ∀ s : Sweep, s.keys = ks → s.fault? = none → (applyEdits es s).keys = ks' ∧ (applyEdits es s).fault? = none

theorem Sweeps.nil (ks : List Key) : Sweeps [] ks ks := fun _ hkeys hfault => ⟨hkeys, hfault⟩

theorem Sweeps.cons (ht : t.natAbs < 2 ^ 53) (hedit : editKey t f ks = .ok ks₁)
    (h : Sweeps es ks₁ ks₂) : Sweeps (.of t f :: es) ks ks₂ := by
  intro s hkeys hfault
  obtain ⟨x, hx, hvalue, -⟩ := fraction_of_lt ht
  have hstep : (cut x >>= fun t => editKey t f s.keys) = .ok ks₁ := by
    rwa [cut_of_value hvalue, hkeys]
  rw [KeyEdit.of, applyEdits]
  simp only [hx, hstep]
  exact h _ rfl hfault

theorem applyEdits_append (h : (applyEdits es s).fault? = none) :
    applyEdits (es ++ es') s = applyEdits es' (applyEdits es s) := by
  fun_induction applyEdits es s with
  | case1 s => rfl
  | case2 e es s fault hchange => cases h
  | case3 e es s hchange ih =>
    rw [cons_append, applyEdits]
    simp only [hchange]
    exact ih h
  | case4 e es s f hchange fault hx
  | case5 e es s f hchange x hx fault hedit => cases h
  | case6 e es s f hchange x hx ks hedit ih =>
    rw [cons_append, applyEdits]
    simp only [hchange, hx, hedit]
    exact ih h

theorem Sweeps.append (h : Sweeps es ks ks₁)
    (h' : Sweeps es' ks₁ ks₂) : Sweeps (es ++ es') ks ks₂ := by
  intro s hkeys hfault
  obtain ⟨hkeys₁, hfault₁⟩ := h s hkeys hfault
  rw [applyEdits_append hfault₁]
  exact h' _ hkeys₁ hfault₁

/-- The second timeline has key frames at some times, changed by `f`, and is the first one
elsewhere. -/
structure Reworked (f : Int → Key → Key) (ts : List Int) (ks ks' : List Key) : Prop where
  editable : Editable ks'
  /-- It has key frames at the times. Where each time comes once, those that there were have been
  changed once. -/
  made : ∀ t ∈ ts, ∃ k : Key, k.time = t ∧ f t k ∈ ks' ∧ (ts.Nodup → ∀ l ∈ ks, l.time = t → l = k)
  others : ∀ l : Key, l.time ∉ ts → (l ∈ ks' ↔ l ∈ ks)

/-- **An edit at each of several times** reaches its end and changes the key frames at those times
only. -/
theorem Editable.exists_sweep (h : Editable ks) {f : Int → Key → Key}
    (htime : ∀ t k, (f t k).time = k.time) (hfits : ∀ (t : Int) (k : Key), k.fits → (f t k).fits)
    {ts : List Int} (hts : ∀ t ∈ ts, t.natAbs < 2 ^ 53) :
    ∃ ks', Sweeps (ts.map fun t => .of t (f t)) ks ks' ∧ Reworked f ts ks ks' ∧
      ((∀ t, f t = id) → ∀ u, newKey u ks' = newKey u ks) := by
  induction ts generalizing ks with
  | nil => exact ⟨ks, .nil ks, ⟨h, fun t ht => (nomatch ht), fun l _ => Iff.rfl⟩, fun _ _ => rfl⟩
  | cons t ts ih =>
    obtain ⟨k, hk, rfl, hkfits⟩ := h.exists_newKey t
    obtain ⟨ks₁, hedit, hputs⟩ := h.exists_editKey hk (htime k.time k)
    obtain ⟨ht, hts⟩ := forall_mem_cons.mp hts
    obtain ⟨ks', hsweep, hre, hsame⟩ := ih (h.puts (hfits k.time k hkfits) hputs) hts
    refine ⟨ks', .cons ht hedit hsweep, ⟨hre.editable, fun u hu => ?_, fun l hl => ?_⟩, fun hid u => ?_⟩
    · -- a key frame that was put stays unless it is edited again
      by_cases hagain : u ∈ ts
      · obtain ⟨k', hk', hmem, hold⟩ := hre.made u hagain
        refine ⟨k', hk', hmem, fun hnodup l hl hlu => hold (nodup_cons.mp hnodup).2 l ?_ hlu⟩
        refine (hputs.mem_iff l).mpr (.inl ⟨hl, fun heq => (nodup_cons.mp hnodup).1 ?_⟩)
        rwa [← htime k.time k, ← heq, hlu]
      · obtain rfl := (mem_cons.mp hu).resolve_right hagain
        refine ⟨k, rfl, (hre.others _ (by rwa [htime])).mpr hputs.mem, fun _ l hl hlu => ?_⟩
        exact ok.inj ((hlu ▸ h.newKey_of_mem hl).symm.trans hk)
    · rw [mem_cons, not_or] at hl
      rw [hre.others l hl.2, hputs.mem_iff, htime]
      constructor
      · rintro (hl' | rfl)
        · exact hl'.1
        · exact absurd (htime _ k) hl.1
      · exact fun hl' => .inl ⟨hl', hl.1⟩
    · rw [hid] at hputs
      rw [hsame hid u, hputs.newKey_eq h hk]

/-! ### Layers -/

theorem forall_mem_modify {α : Type} {P : α → Prop} {f : α → α} {xs : List α} {i : Nat}
    (h : ∀ x ∈ xs, P x) (hf : ∀ x, xs[i]? = some x → P (f x)) : ∀ x ∈ xs.modify i f, P x := by
  intro x hx
  obtain ⟨j, hj⟩ := mem_iff_getElem?.mp hx
  rw [getElem?_modify] at hj
  split at hj
  · next heq =>
    obtain ⟨y, hy, rfl⟩ := Option.map_eq_some_iff.mp hj
    exact hf y (heq ▸ hy)
  · exact h x (mem_of_getElem? (Option.map_id'.symm.trans hj))

end Localizer.Animation
