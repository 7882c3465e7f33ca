import Localizer.Proofs.Animation.Look
import Localizer.Proofs.Animation.Resave
import Localizer.Proofs.Directory

/-!
# Numbers within limits

The ends of an animation and the marks between them divide its time into actions. The points in
order are the first frame, the marks and the last frame (`points_eq`), so that the actions follow
each other without a gap.
-/

namespace Localizer.Animation

open List

variable {total a b : Int}

/-! ### Points -/

theorem mem_points {m : Int} :
    m ∈ points total a b ↔ m = 0 ∨ m = max 0 total ∨ m ∈ [a, b] ∧ 0 ≤ m ∧ m ≤ total := by
  simp [points, mem_mergeSort, mem_eraseDups]

theorem pairwise_points (total a b : Int) : (points total a b).Pairwise (· < ·) := by
  have hsorted : (points total a b).Pairwise fun m k => decide (m ≤ k) = true :=
    pairwise_mergeSort (by simp only [decide_eq_true_eq]; omega)
      (by simp only [Bool.or_eq_true, decide_eq_true_eq]; omega) _
  have hdistinct : (points total a b).Nodup := (mergeSort_perm _ _).nodup_iff.mpr (Workspace.nodup_eraseDups _)
  exact (hsorted.and hdistinct).imp fun ⟨hle, hne⟩ => lt_of_le_of_ne (of_decide_eq_true hle) hne

theorem eq_of_pairwise_lt {ms ks : List Int} (hms : ms.Pairwise (· < ·)) (hks : ks.Pairwise (· < ·))
    (h : ∀ m, m ∈ ms ↔ m ∈ ks) : ms = ks :=
  ((perm_ext_iff_of_nodup (hms.imp ne_of_lt) (hks.imp ne_of_lt)).mpr h).eq_of_pairwise
    (fun _ _ _ _ hlt hgt => absurd hlt hgt.not_gt) hms hks

theorem points_eq (h : 0 < total) :
    ∃ marks, points total a b = 0 :: (marks ++ [total]) ∧ marks.Pairwise (· < ·) ∧
    ∀ m, m ∈ marks ↔ m ∈ [a, b] ∧ 0 < m ∧ m < total := by
  have hmem (m : Int) :
      m ∈ (points total a b).filter (fun m => 0 < m && m < total) ↔ m ∈ [a, b] ∧ 0 < m ∧ m < total := by
    rw [mem_filter, mem_points, max_eq_right h.le, Bool.and_eq_true, decide_eq_true_eq, decide_eq_true_eq]
    grind
  have hsorted := (pairwise_points total a b).sublist (filter_sublist (p := fun m => 0 < m && m < total))
  refine ⟨_, eq_of_pairwise_lt (pairwise_points total a b) ?_ fun m => ?_, hsorted, hmem⟩
  · rw [pairwise_cons, pairwise_append]
    refine ⟨fun m hm => ?_, hsorted, pairwise_singleton .., fun m hm k hk => ?_⟩
    · rcases mem_append.mp hm with hm | hm
      · exact ((hmem m).mp hm).2.1
      · exact mem_singleton.mp hm ▸ h
    · exact mem_singleton.mp hk ▸ ((hmem m).mp hm).2.2
  · rw [mem_points, max_eq_right h.le, mem_cons (b := 0), mem_append, hmem, mem_singleton]
    grind

/-! ### Actions -/

/-- The actions divide the time up to `total` at the marks that lie within. -/
structure Tiles (total : Int) (marks : List Int) (as : List Action) : Prop where
  numbers : as.map (·.number) = range' 1 as.length
  starts : as.head?.map (·.start) = some 0
  stops : as.getLast?.map (·.stop) = some total
  joined : as.IsChain fun act next => act.stop = next.start
  nonempty : 0 < total → ∀ act ∈ as, act.start < act.stop
  instant : total = 0 → as = [⟨1, 0, 0⟩]
  ordered : (as.tail.map (·.start)).Pairwise (· < ·)
  cuts : ∀ m, m ∈ as.tail.map (·.start) ↔ m ∈ marks ∧ 0 < m ∧ m < total

section

variable (n : Nat) (ps : List Int)

theorem number_actionsFrom :
    (actionsFrom n ps).map (·.number) = range' n (actionsFrom n ps).length := by
  fun_induction actionsFrom n ps with
  | case1 n p q ps ih => rw [map_cons, ih, length_cons, range'_succ]
  | case2 => rfl

theorem start_actionsFrom (p : Int) :
    (actionsFrom n (p :: ps)).map (·.start) = (p :: ps).dropLast := by
  induction ps generalizing n p with
  | nil => rfl
  | cons q ps ih => rw [actionsFrom, map_cons, ih, dropLast_cons_cons]

theorem stop_actionsFrom (p : Int) : (actionsFrom n (p :: ps)).map (·.stop) = ps := by
  induction ps generalizing n p with
  | nil => rfl
  | cons q ps ih => rw [actionsFrom, map_cons, ih]

theorem joined_actionsFrom : (actionsFrom n ps).IsChain fun act next => act.stop = next.start := by
  fun_induction actionsFrom n ps with
  | case1 n p q ps ih =>
    cases ps with
    | nil => exact .singleton _
    | cons r ps => exact .cons_cons rfl ih
  | case2 => exact .nil

end

theorem lt_of_mem_actionsFrom {n : Nat} {ps : List Int} (h : ps.Pairwise (· < ·)) {act : Action}
    (hact : act ∈ actionsFrom n ps) : act.start < act.stop := by
  fun_induction actionsFrom n ps with
  | case1 n p q ps ih =>
    obtain ⟨hp, hps⟩ := pairwise_cons.mp h
    rcases mem_cons.mp hact with rfl | hact
    · exact hp q mem_cons_self
    · exact ih hps hact
  | case2 => cases hact

/-- **The actions tile the time of an animation**, whatever its marks are. -/
theorem tiles_inferActions (h : 0 ≤ total) (markerA markerB : Int) :
    Tiles total [markerA, markerB] (inferActions total markerA markerB) := by
  rcases h.eq_or_lt with rfl | hpos
  · have hpoints : points 0 markerA markerB = [0] := by
      refine eq_of_pairwise_lt (pairwise_points 0 markerA markerB) (pairwise_singleton ..) fun m => ?_
      rw [mem_points, max_self, mem_singleton]
      omega
    rw [inferActions, hpoints]
    refine ⟨rfl, rfl, rfl, .singleton _, fun h => absurd h (by decide), fun _ => rfl, .nil, fun m => ?_⟩
    simp only [actionsFrom, tail_cons, map_nil, not_mem_nil, false_iff]
    omega
  · obtain ⟨marks, hpoints, hordered, hmarks⟩ := points_eq (a := markerA) (b := markerB) hpos
    have hinfer : inferActions total markerA markerB = actionsFrom 1 (0 :: (marks ++ [total])) := by
      rw [inferActions, hpoints]
      cases marks <;> rfl
    have hcuts : (actionsFrom 1 (0 :: (marks ++ [total]))).tail.map (·.start) = marks := by
      rw [map_tail, start_actionsFrom, ← cons_append, dropLast_concat, tail_cons]
    rw [hinfer]
    refine ⟨number_actionsFrom .., ?_, ?_, joined_actionsFrom .., fun _ act => lt_of_mem_actionsFrom ?_,
      fun hzero => absurd hzero hpos.ne', ?_, ?_⟩
    · rw [← head?_map, start_actionsFrom, ← cons_append, dropLast_concat]
      rfl
    · rw [← getLast?_map, stop_actionsFrom, getLast?_concat]
    · exact hpoints ▸ pairwise_points ..
    · rw [hcuts]
      exact hordered
    · rw [hcuts]
      exact hmarks

/-- Two marks at the same frame make two actions. -/
theorem tiles_inferActions_doubled : (0 : Int) ≤ 24 ∧ Tiles 24 [8, 8] (inferActions 24 8 8) :=
  ⟨by decide, tiles_inferActions (by decide) 8 8⟩

/-! ## Numbers within limits

An animation can be written if its numbers fit in words. Of what is done to an animation, only a few
things change a number at all: a key frame is made as a copy of one that fits, its opacity is a
byte, a new layer has the next number, and a removed one lowers the parents of others by one. So
most numbers stay within limits that they are read within. Those that need not are the times of key
frames, their positions, and how many layers and key frames there are; and once those are known to
fit, the animation can be written (`Within.succeeds_encode`). -/

open Text Except Word

variable {f : Key → Key} {act : Action} {bs : Bytes} {size : Int × Int}
variable {t x y markerA markerB : Int} {k : Key} {ks : List Key} {l : Layer} {ps : List Picture}

/-- The limits within which the numbers of an animation are kept. -/
structure Limits where
  /-- How many frames before the beginning key frames are made. -/
  before : Nat
  /-- The latest time at which they are made. -/
  last : Nat
  free : Prop
  /-- The number of layers that an animation had at first. -/
  layers : Nat
  /-- The number of key frames that each of its layers had at most. -/
  keys : Nat
  before_lt : before < 0x100000000
  last_lt : last < 0x100000000

namespace Limits

variable (b : Limits)

def Time (t : Int) : Prop := -(b.before : Int) ≤ t ∧ t ≤ b.last

def Place (x y : Int) : Prop := b.free ∨ FitsSigned x ∧ FitsSigned y

/-- The times among those of key frames at which they may have been made. -/
def made (ks : List Key) : Finset Int :=
  (ks.map Key.time).toFinset.filter fun t => -(b.before : Int) ≤ t ∧ t ≤ b.last

variable {b}

theorem natAbs_lt (h : b.Time t) : t.natAbs < 2 ^ 53 := by
  have := b.before_lt
  have := b.last_lt
  obtain ⟨hlow, hhigh⟩ := h
  omega

theorem time_zero : b.Time 0 := ⟨by omega, by omega⟩

theorem made_append (h : b.Time k.time) (ks : List Key) :
    b.made (ks ++ [k]) = insert k.time (b.made ks) := by
  have htimes : ((ks ++ [k]).map Key.time).toFinset = insert k.time (ks.map Key.time).toFinset := by
    simp
  rw [made, htimes, Finset.filter_insert, if_pos ⟨h.1, h.2⟩]
  rfl

theorem card_made_le (ks : List Key) : (b.made ks).card ≤ b.before + b.last + 1 := by
  have hsub : b.made ks ⊆ Finset.Icc (-(b.before : Int)) b.last := fun t ht =>
    Finset.mem_Icc.mpr (Finset.mem_filter.mp ht).2
  have hle := Finset.card_le_card hsub
  rw [Int.card_Icc] at hle
  omega

end Limits

/-! ## Key frames -/

structure Key.Within (b : Limits) (k : Key) : Prop where
  /-- The time is a word, but for those before the beginning. -/
  time : -(b.before : Int) ≤ k.time ∧ k.time < 0x100000000
  unsigned : ∀ n ∈ [k.color1, k.color2], FitsUnsigned n
  signed : ∀ n ∈ [k.rotX, k.rotY, k.rotZ, k.scaleX, k.scaleY, k.posZ], FitsSigned n
  place : b.Place k.posX k.posY

namespace Key

variable {b : Limits}

theorem Fits.placed (h : k.Fits) : k.Placed := ⟨h.signed _ (by simp), h.signed _ (by simp)⟩

theorem Fits.within (h : k.Fits) (ht : -(b.before : Int) ≤ t ∧ t < 0x100000000) :
    (k.at t).Within b where
  time := ht
  unsigned := h.unsigned
  signed n hn := h.signed n (by simp only [mem_cons, Key.at] at hn ⊢; tauto)
  place := .inr h.placed

theorem Within.fits_iff (h : k.Within b) : k.Fits ↔ k.Placed := by
  refine ⟨Fits.placed, fun hplaced => ⟨h.unsigned, ?_⟩⟩
  have hsigned := h.signed
  obtain ⟨hx, hy⟩ := hplaced
  simp only [forall_mem_cons] at hsigned ⊢
  tauto

theorem Within.packs_iff (h : k.Within b) : k.Packs ↔ 0 ≤ k.time ∧ k.Placed := by
  rw [Animation.packs_iff, h.fits_iff]
  exact and_congr_left' ⟨And.left, fun hzero => ⟨hzero, h.time.2⟩⟩

theorem Packs.within (h : k.Packs) : k.Within b := by
  obtain ⟨htime, hfits⟩ := packs_iff.mp h
  exact hfits.within ⟨by have := htime.1; omega, htime.2⟩

theorem Within.withAlpha (h : k.Within b) (n : Int) : (k.withAlpha n).Within b where
  time := h.time
  unsigned := by
    refine forall_mem_cons.mpr ⟨?_, fun m hm => h.unsigned m (mem_cons_of_mem _ hm)⟩
    change 0 ≤ n % 256 * 0x1000000 + k.color1 % 0x1000000 ∧ n % 256 * 0x1000000 + k.color1 % 0x1000000 < 0x100000000
    omega
  signed := h.signed
  place := h.place

theorem Within.placed (h : k.Within b) (hplace : b.Place x y) : (k.placed x y).Within b where
  time := h.time
  unsigned := h.unsigned
  signed := h.signed
  place := hplace

end Key

theorem fits_of_newKey (h : newKey t ks = .ok k) : ∃ l : Key, l.Fits ∧ k = l.at t := by
  unfold newKey at h
  split at h
  · next l _ =>
    unfold copyKey at h
    split at h
    · next hfits => exact ⟨l, fits_iff.mp hfits, (ok.inj h).symm⟩
    · cases h
  · exact ⟨defaultKey t, fits_iff.mp rfl, (ok.inj h).symm⟩

/-! ### Lines of key frames -/

/-- The key frames of a layer are within limits. There are no more of them than there were at first
but for those that were made, each at a time of its own. -/
structure Track (b : Limits) (ks : List Key) : Prop where
  keys : ∀ k ∈ ks, k.Within b
  count : ks.length ≤ b.keys + (b.made ks).card

theorem of_mem_modifyKey (h : k ∈ modifyKey t f ks) : k ∈ ks ∨ ∃ l ∈ ks, k = f l := by
  induction ks with
  | nil => cases h
  | cons l ks ih =>
    rw [modifyKey] at h
    split at h
    · rcases mem_cons.mp h with rfl | h
      · exact .inr ⟨l, mem_cons_self, rfl⟩
      · exact .inl (mem_cons_of_mem _ h)
    · rcases mem_cons.mp h with rfl | h
      · exact .inl mem_cons_self
      · rcases ih h with h | ⟨l', hl', rfl⟩
        · exact .inl (mem_cons_of_mem _ h)
        · exact .inr ⟨l', mem_cons_of_mem _ hl', rfl⟩

theorem map_time_modifyKey (hf : ∀ k, (f k).time = k.time) (t : Int) (ks : List Key) :
    (modifyKey t f ks).map Key.time = ks.map Key.time := by
  induction ks with
  | nil => rfl
  | cons k ks ih =>
    rw [modifyKey]
    split
    · rw [map_cons, map_cons, hf]
    · rw [map_cons, map_cons, ih]

namespace Track

variable {b : Limits} {ks' : List Key}

theorem nil : Track b [] := ⟨fun _ hk => (nomatch hk), Nat.zero_le _⟩

theorem append (h : Track b ks) (hk : k.Within b) (ht : b.Time k.time)
    (hnew : ∀ l ∈ ks, l.time ≠ k.time) : Track b (ks ++ [k]) where
  keys := forall_mem_append.mpr ⟨h.keys, forall_mem_singleton.mpr hk⟩
  count := by
    have hnot : k.time ∉ b.made ks := fun hmem => by
      obtain ⟨l, hl, htime⟩ := mem_map.mp (mem_toFinset.mp (Finset.mem_filter.mp hmem).1)
      exact hnew l hl htime
    rw [length_append, length_singleton, b.made_append ht, Finset.card_insert_of_notMem hnot]
    have := h.count
    omega

theorem singleton (hk : k.Within b) (ht : b.Time k.time) : Track b [k] :=
  nil.append hk ht fun _ hl => (nomatch hl)

theorem perm (h : Track b ks) (hperm : ks'.Perm ks) : Track b ks' where
  keys k hk := h.keys k (hperm.mem_iff.mp hk)
  count := by
    rw [hperm.length_eq, Limits.made, toFinset_eq_of_perm _ _ (hperm.map _)]
    exact h.count

theorem ensureKey (h : Track b ks) (ht : b.Time t) (hks' : ensureKey t ks = .ok ks') :
    Track b ks' := by
  unfold Animation.ensureKey at hks'
  split at hks'
  · exact ok.inj hks' ▸ h
  · next hnone =>
    obtain ⟨k, hk, hks'⟩ := exists_of_bind_ok hks'
    obtain rfl := ok.inj hks'
    obtain ⟨l, hl, rfl⟩ := fits_of_newKey hk
    have hwithin : (l.at t).Within b := hl.within ⟨ht.1, ht.2.trans_lt (by exact_mod_cast b.last_lt)⟩
    refine (h.append hwithin ht fun k hk htime => hnone ?_).perm (inOrder_perm _)
    exact any_eq_true.mpr ⟨k, hk, decide_eq_true htime⟩

theorem modifyKey (h : Track b ks) (hf : ∀ k : Key, k.Within b → (f k).Within b)
    (htime : ∀ k, (f k).time = k.time) (t : Int) : Track b (modifyKey t f ks) := by
  have htimes := map_time_modifyKey htime t ks
  refine ⟨fun k hk => ?_, ?_⟩
  · rcases of_mem_modifyKey hk with hk | ⟨l, hl, rfl⟩
    · exact h.keys k hk
    · exact hf l (h.keys l hl)
  · have hlength := congrArg List.length htimes
    rw [length_map, length_map] at hlength
    rw [hlength, Limits.made, htimes]
    exact h.count

theorem editKey (h : Track b ks) (ht : b.Time t) (hf : ∀ k : Key, k.Within b → (f k).Within b)
    (htime : ∀ k, (f k).time = k.time) (hks' : editKey t f ks = .ok ks') : Track b ks' := by
  unfold Animation.editKey at hks'
  cases hensure : Animation.ensureKey t ks with
  | error g => rw [hensure] at hks'; cases hks'
  | ok ks₁ =>
    rw [hensure] at hks'
    exact ok.inj hks' ▸ (h.ensureKey ht hensure).modifyKey hf htime t

theorem applyEdits {edits : List KeyEdit} (hedits : ∀ e ∈ edits, b.Time e.time ∧ ∀ f, e.change = .ok (some f) →
    (∀ k : Key, k.Within b → (f k).Within b) ∧ ∀ k, (f k).time = k.time) {s : Sweep} (h : Track b s.keys) :
    Track b (applyEdits edits s).keys := by
  refine keys_applyEdits (fun e he f x t ks ks' hchange hx hcut hedit h => ?_) h
  obtain ⟨ht, hf⟩ := hedits e he
  obtain ⟨hwithin, htime⟩ := hf f hchange
  obtain ⟨y, hy, hvalue, -⟩ := Number.fraction_of_lt (b.natAbs_lt ht)
  obtain rfl := ok.inj (hy.symm.trans hx)
  obtain rfl := ok.inj ((Number.cut_of_value hvalue).symm.trans hcut)
  exact h.editKey ht hwithin htime hedit

end Track

/-! ## Animations -/

structure Layer.Within (b : Limits) (n : Nat) (l : Layer) : Prop where
  /-- Its number goes up with every layer that is added. -/
  id : 0 ≤ l.id ∧ l.id < 0x80000000 + n
  parent : FitsSigned l.parent
  words : ∀ m ∈ [l.unk36, l.unk40, l.unk44, l.unk56, l.flags], FitsUnsigned m
  track : Track b l.keys

structure Within (b : Limits) (n : Nat) (a : Animation) : Prop where
  header : ∀ m ∈ [a.tickRate, a.totalFrames, a.markerB * 0x10000 + a.markerA % 0x10000, a.headerFlags], FitsUnsigned m
  /-- Key frames can be made up to the end. -/
  total : a.totalFrames ≤ b.last
  actions : ∀ act ∈ a.actions, b.Time act.start ∧ b.Time act.stop
  pictures : SizesFit a.pictures
  count : a.layers.length ≤ b.layers + n
  layers : ∀ l ∈ a.layers, l.Within b n

/-- No key frame is before the beginning. -/
def Timely (a : Animation) : Prop := ∀ l ∈ a.layers, ∀ k ∈ l.keys, 0 ≤ k.time

/-- The positions of all key frames fit in words. -/
def Placed (a : Animation) : Prop := ∀ l ∈ a.layers, ∀ k ∈ l.keys, k.Placed

/-- Layers and key frames are no more than a word can count. -/
def Counted (a : Animation) : Prop :=
  a.layers.length < 0x100000000 ∧ ∀ l ∈ a.layers, l.keys.length < 0x100000000

namespace Within

variable {b : Limits} {n : Nat} {a : Animation}

variable (h : a.Within b n)
include h

theorem layer_fits_iff (hn : n ≤ 0x80000000) (hl : l ∈ a.layers) :
    l.Fits a.pictures ↔ l.keys.length < 0x100000000 ∧ ∀ k ∈ l.keys, 0 ≤ k.time ∧ k.Placed := by
  have hlayer := h.layers l hl
  constructor
  · intro hfits
    have hcount := (hfits.unsigned l.keys.length (by simp)).2
    exact ⟨by omega, fun k hk => (hlayer.track.keys k hk).packs_iff.mp (hfits.keys k hk)⟩
  · rintro ⟨hcount, hkeys⟩
    refine ⟨forall_mem_cons.mpr ⟨hlayer.parent, fun m hm => ?_⟩, ?_, fun k hk => ?_⟩
    · obtain ⟨hlow, hhigh⟩ := pictureSize_fits h.pictures l.name m hm
      exact ⟨by omega, hhigh⟩
    · have hid : FitsUnsigned l.id := ⟨hlayer.id.1, by have := hlayer.id.2; omega⟩
      have hlength : FitsUnsigned l.keys.length := ⟨by omega, by omega⟩
      exact forall_mem_append.mpr ⟨hlayer.words, forall_mem_cons.mpr ⟨hid, forall_mem_singleton.mpr hlength⟩⟩
    · exact (hlayer.track.keys k hk).packs_iff.mpr (hkeys k hk)

/-- **What is left to ask.** An animation within limits can be written exactly if no key frame is
before the beginning, all positions fit, and layers and key frames can be counted. -/
theorem succeeds_encode (hn : n ≤ 0x80000000) :
    Succeeds (encode a) ↔ a.Timely ∧ a.Placed ∧ a.Counted := by
  have hheader : (∀ m ∈ headerNumbers a, FitsUnsigned m) ↔ a.layers.length < 0x100000000 := by
    obtain ⟨hrate, htotal, hmarks, hflags, -⟩ : _ ∧ _ ∧ _ ∧ _ ∧ _ := by simpa only [forall_mem_cons] using h.header
    have hrate' : FitsUnsigned (if a.tickRate > 0 then a.tickRate else 60) := by
      split
      · exact hrate
      · decide
    constructor
    · intro hfits
      have hcount := (hfits a.layers.length (by simp [headerNumbers])).2
      omega
    · intro hcount
      have hlength : FitsUnsigned a.layers.length := ⟨by omega, by omega⟩
      simp [headerNumbers, hrate', htotal, hmarks, hflags, hlength]
  rw [Animation.succeeds_encode, hheader]
  constructor
  · rintro ⟨hcount, hlayers⟩
    have hlayer l hl := (h.layer_fits_iff hn hl).mp (hlayers l hl)
    exact ⟨fun l hl k hk => ((hlayer l hl).2 k hk).1, fun l hl k hk => ((hlayer l hl).2 k hk).2, hcount,
      fun l hl => (hlayer l hl).1⟩
  · rintro ⟨htimely, hplaced, hcount, hkeys⟩
    exact ⟨hcount, fun l hl => (h.layer_fits_iff hn hl).mpr ⟨hkeys l hl, fun k hk => ⟨htimely l hl k hk, hplaced l hl k hk⟩⟩⟩

theorem timely (hbefore : b.before = 0) : a.Timely := fun l hl k hk => by
  have htime := ((h.layers l hl).track.keys k hk).time.1
  omega

theorem placed (hfree : ¬b.free) : a.Placed := fun l hl k hk =>
  ((h.layers l hl).track.keys k hk).place.resolve_left hfree

theorem counted (hlayers : b.layers + n < 0x100000000)
    (hkeys : b.keys + (b.before + b.last + 1) < 0x100000000) : a.Counted := by
  refine ⟨h.count.trans_lt hlayers, fun l hl => ?_⟩
  have hcount := (h.layers l hl).track.count
  have hmade := b.card_made_le l.keys
  omega

theorem time_total : b.Time a.totalFrames :=
  ⟨by have := (h.header a.totalFrames (by simp)).1; omega, h.total⟩

end Within

/-! ### Files -/

theorem of_mem_actionsFrom {n : Nat} {ps : List Int} (h : act ∈ actionsFrom n ps) :
    act.start ∈ ps ∧ act.stop ∈ ps := by
  fun_induction actionsFrom n ps with
  | case1 n p q ps ih =>
    rcases mem_cons.mp h with rfl | h
    · exact ⟨by simp, by simp⟩
    · exact ⟨mem_cons_of_mem _ (ih h).1, mem_cons_of_mem _ (ih h).2⟩
  | case2 => cases h

theorem of_mem_points {p : Int} (h : p ∈ points total markerA markerB) :
    0 ≤ p ∧ p ≤ max 0 total := by
  rcases mem_points.mp h with rfl | rfl | ⟨-, hlow, hhigh⟩
  · exact ⟨le_rfl, le_max_left _ _⟩
  · exact ⟨le_max_left _ _, le_rfl⟩
  · exact ⟨hlow, hhigh.trans (le_max_right _ _)⟩

theorem of_mem_inferActions (h : act ∈ inferActions total markerA markerB) :
    (0 ≤ act.start ∧ act.start ≤ max 0 total) ∧ 0 ≤ act.stop ∧ act.stop ≤ max 0 total := by
  unfold inferActions at h
  split at h
  · obtain rfl := mem_singleton.mp h
    exact ⟨⟨le_rfl, le_max_left _ _⟩, le_max_left _ _, le_rfl⟩
  · obtain ⟨hstart, hstop⟩ := of_mem_actionsFrom h
    exact ⟨of_mem_points hstart, of_mem_points hstop⟩

theorem of_mem_readBlocks {entries : List Bytes} (h : l ∈ (readBlocks ps entries bs).2) :
    ∃ (ps' : List Picture) (entry block : Bytes) (rs : List Bytes),
      l = readLayer ps' entry (wordAt block 0) (rs.map readKey) := by
  induction entries generalizing ps bs with
  | nil => cases h
  | cons entry entries ih =>
    rw [readBlocks] at h
    split at h
    · cases h
    · rcases mem_cons.mp h with rfl | h
      · exact ⟨_, entry, bs, _, rfl⟩
      · exact ih h

theorem of_decode {a : Animation} (h : decode bs = .ok a) :
    (∀ m ∈ [a.tickRate, a.totalFrames, a.markerB * 0x10000 + a.markerA % 0x10000, a.headerFlags], FitsUnsigned m) ∧
      a.actions = a.ownActions ∧ ∀ l ∈ a.layers, ∃ (ps : List Picture) (entry block : Bytes) (rs : List Bytes),
        l = readLayer ps entry (wordAt block 0) (rs.map readKey) := by
  unfold decode at h
  split at h
  · cases h
  split at h
  · cases h
  obtain rfl := ok.inj h
  refine ⟨?_, rfl, fun l hl => of_mem_readBlocks hl⟩
  have hmarks : FitsUnsigned (wordAt bs 12 / 0x10000 * 0x10000 + wordAt bs 12 % 0x10000 % 0x10000) := by
    have hword := fitsUnsigned_wordAt bs 12
    unfold FitsUnsigned at hword ⊢
    omega
  simp only [forall_mem_cons, not_mem_nil, IsEmpty.forall_iff, implies_true, and_true]
  exact ⟨fitsUnsigned_wordAt bs 4, fitsUnsigned_wordAt bs 8, hmarks, fitsUnsigned_wordAt bs 16⟩

section

variable {b : Limits} {n : Nat} {a : Animation}

theorem time_of_mem_ownActions (hzero : 0 ≤ a.totalFrames) (htotal : a.totalFrames ≤ b.last)
    (h : act ∈ a.ownActions) : b.Time act.start ∧ b.Time act.stop := by
  obtain ⟨hstart, hstop⟩ := of_mem_inferActions h
  exact ⟨⟨by omega, by omega⟩, by omega, by omega⟩

theorem within_of_decode (h : decode bs = .ok a) (htotal : a.totalFrames ≤ b.last)
    (hsizes : SizesFit a.pictures) (hids : ∀ l ∈ a.layers, l.id < 0x80000000)
    (hlayers : a.layers.length ≤ b.layers) (hkeys : ∀ l ∈ a.layers, l.keys.length ≤ b.keys) :
    a.Within b 0 := by
  obtain ⟨hheader, hactions, hread⟩ := of_decode h
  refine ⟨hheader, htotal, fun act hact => ?_, hsizes, hlayers, fun l hl => ?_⟩
  · exact time_of_mem_ownActions (hheader _ (by simp)).1 htotal (hactions ▸ hact)
  · have hid := hids l hl
    have hcount := hkeys l hl
    obtain ⟨ps, entry, block, rs, rfl⟩ := hread l hl
    refine ⟨⟨(fitsUnsigned_wordAt block 0).1, by simpa using hid⟩, fitsSigned_signedAt entry 32, ?_, fun k hk => ?_, ?_⟩
    · simp [readLayer, fitsUnsigned_wordAt]
    · obtain ⟨r, -, rfl⟩ := mem_map.mp hk
      exact (packs_readKey r).within
    · exact hcount.trans (Nat.le_add_right _ _)

/-! ### Edits -/

theorem sizesFit_requirePicture (name : Text)
    (hsize : ∀ m ∈ [size.1, size.2], 0 ≤ m ∧ m < 0x80000000) (h : SizesFit ps) :
    SizesFit (requirePicture name size ps).2 := by
  unfold requirePicture
  split
  · exact h
  · exact forall_mem_append.mpr ⟨h, forall_mem_singleton.mpr hsize⟩

theorem within_staticLayer {id : Int} (hid : 0 ≤ id ∧ id < 0x80000000 + n) (picture : Nat)
    (name : Text) (hplace : b.Place x y) : (staticLayer id picture name x y).Within b n where
  id := hid
  parent := (by decide : FitsSigned (-1))
  words := (by decide : ∀ m ∈ [0xFFFFFFFF, 0x3000, 0xFFFFFFFF, 0, 0], FitsUnsigned m)
  track := by
    have hzero : (defaultKey 0).Within b := (fits_iff.mp (rfl : (defaultKey 0).fits = true)).within ⟨by omega, by decide⟩
    exact .singleton (hzero.placed hplace) b.time_zero

theorem foldl_max_mem {s m : Int} {ms : List Int} (hm : m < s) (h : ∀ k ∈ ms, k < s) :
    m ≤ ms.foldl max m ∧ ms.foldl max m < s := by
  induction ms generalizing m with
  | nil => exact ⟨le_rfl, hm⟩
  | cons k ms ih =>
    obtain ⟨hk, h⟩ := forall_mem_cons.mp h
    obtain ⟨hle, hlt⟩ := ih (max_lt hm hk) h
    exact ⟨(le_max_left m k).trans hle, hlt⟩

namespace Within

variable (h : a.Within b n)
include h

theorem nextId_mem : 0 ≤ a.nextId ∧ a.nextId < 0x80000000 + (n + 1 : Nat) := by
  obtain ⟨hle, hlt⟩ := foldl_max_mem (s := 0x80000000 + n) (m := -1) (by omega)
    (forall_mem_map.mpr fun l hl => (h.layers l hl).id.2)
  unfold nextId
  omega

theorem mono : a.Within b (n + 1) := by
  refine ⟨h.header, h.total, h.actions, h.pictures, h.count.trans (Nat.le_succ _), fun l hl => ?_⟩
  have hlayer := h.layers l hl
  exact ⟨⟨hlayer.id.1, by have := hlayer.id.2; omega⟩, hlayer.parent, hlayer.words, hlayer.track⟩

theorem renameLayer (i : Nat) (name : Text)
    (hsize : ∀ m ∈ [size.1, size.2], 0 ≤ m ∧ m < 0x80000000) : (renameLayer i name size a).Within b n where
  header := h.header
  total := h.total
  actions := h.actions
  pictures := sizesFit_requirePicture name hsize h.pictures
  count := (length_modify ..).le.trans h.count
  layers := forall_mem_modify h.layers fun l hl =>
    have hlayer := h.layers l (mem_of_getElem? hl)
    ⟨hlayer.id, hlayer.parent, hlayer.words, hlayer.track⟩

theorem addStatic (name : Text)
    (hsize : ∀ m ∈ [size.1, size.2], 0 ≤ m ∧ m < 0x80000000) (hplace : b.Place x y) :
    (addStatic name size x y a).Within b (n + 1) where
  header := h.header
  total := h.total
  actions := h.actions
  pictures := sizesFit_requirePicture name hsize h.pictures
  count := by
    have hcount := h.count
    change (a.layers ++ [_]).length ≤ _
    rw [length_append, length_singleton]
    omega
  layers := by
    refine forall_mem_append.mpr ⟨h.mono.layers, forall_mem_singleton.mpr ?_⟩
    exact within_staticLayer h.nextId_mem _ name hplace

theorem removeLayer (i : Nat) : (removeLayer i a).Within b n where
  header := h.header
  total := h.total
  actions act hact := time_of_mem_ownActions (h.header _ (by simp)).1 h.total hact
  pictures := h.pictures
  count := by
    have hlength := length_eraseIdx_le a.layers i
    have hcount := h.count
    change ((a.layers.eraseIdx i).map _).length ≤ _
    rw [length_map]
    omega
  layers l hl := by
    obtain ⟨l, hmem, rfl⟩ := mem_map.mp hl
    have hlayer := h.layers l (mem_of_mem_eraseIdx hmem)
    refine ⟨hlayer.id, ?_, hlayer.words, hlayer.track⟩
    obtain ⟨hlow, hhigh⟩ := hlayer.parent
    change FitsSigned (shiftParent i l.parent)
    unfold shiftParent
    split_ifs
    · decide
    · exact ⟨by omega, by omega⟩
    · exact ⟨hlow, hhigh⟩

theorem modifyKeys {i : Nat} (hks : Track b ks) : (modifyKeys i (fun _ => ks) a).Within b n where
  header := h.header
  total := h.total
  actions := h.actions
  pictures := h.pictures
  count := (length_modify ..).le.trans h.count
  layers := forall_mem_modify h.layers fun l hl =>
    have hlayer := h.layers l (mem_of_getElem? hl)
    ⟨hlayer.id, hlayer.parent, hlayer.words, hks⟩

end Within

end

end Localizer.Animation
