import Localizer.Text.Casing
import Localizer.Text.Line
import Mathlib

/-!
# Trimming, and cutting what was joined

When trimming changes nothing, and what it leaves of a text that is put together from others.
-/

namespace Localizer.Text

open List

variable {α : Type} {p : α → Bool}

variable {t : Text} {c : Char}
variable {s w : Text}

theorem dropEndWhile_eq_self {t : List α} (h : ∀ c, t.getLast? = some c → p c = false) :
    dropEndWhile p t = t := by
  unfold dropEndWhile
  rcases eq_nil_or_concat t with rfl | ⟨u, c, rfl⟩
  · rfl
  · have hc : p c = false := h c (by simp)
    simp [hc]

theorem dropEndWhile_append_dropped (t : List α) :
    ∃ s, t = dropEndWhile p t ++ s ∧ ∀ c ∈ s, p c = true := by
  refine ⟨(t.reverse.takeWhile p).reverse, ?_, fun c hc => ?_⟩
  · have := congrArg reverse (takeWhile_append_dropWhile (p := p) (l := t.reverse))
    rw [reverse_append, reverse_reverse] at this
    exact this.symm
  · exact mem_takeWhile_imp (mem_reverse.mp hc)

theorem dropEndWhile_isPrefix (t : List α) : dropEndWhile p t <+: t := by
  obtain ⟨s, hs, -⟩ := dropEndWhile_append_dropped (p := p) t
  exact ⟨s, hs.symm⟩

theorem dropEndWhile_append_of_forall {t s : List α} (h : ∀ c ∈ s, p c = true) :
    dropEndWhile p (t ++ s) = dropEndWhile p t := by
  unfold dropEndWhile
  rw [reverse_append, dropWhile_append_of_pos fun c hc => h c (mem_reverse.mp hc)]

theorem dropEndWhile_append {t s : List α} (h : ∀ c, t.getLast? = some c → p c = false) :
    dropEndWhile p (t ++ s) = t ++ dropEndWhile p s := by
  have ht := dropEndWhile_eq_self h
  unfold dropEndWhile at ht ⊢
  rw [reverse_append, dropWhile_append]
  split
  · next hs => rw [ht, isEmpty_iff.mp hs, reverse_nil, append_nil]
  · rw [reverse_append, reverse_reverse]

theorem takeWhile_append_eq_left {s t : List α} (hs : ∀ c ∈ s, p c = true)
    (ht : ∀ c, t.head? = some c → p c = false) : (s ++ t).takeWhile p = s := by
  rw [takeWhile_append_of_pos hs]
  cases t with
  | nil => exact append_nil s
  | cons c t => rw [takeWhile_cons, ht c rfl]; exact append_nil s

theorem of_head?_dropWhile {t : List α} {c : α} (h : (t.dropWhile p).head? = some c) :
    p c = false := by
  have hhead := head?_dropWhile_not p t
  rw [h] at hhead
  simpa using hhead

theorem of_getLast?_dropEndWhile {t : List α} {c : α} (h : (dropEndWhile p t).getLast? = some c) :
    p c = false := by
  rw [dropEndWhile, getLast?_reverse] at h
  exact of_head?_dropWhile h

/-! ### White space -/

theorem trimEnd_eq_self (h : ∀ c, t.getLast? = some c → isBlank c = false) : trimEnd t = t :=
  dropEndWhile_eq_self h

theorem trimEnd_append_dropped (t : Text) : ∃ s, t = trimEnd t ++ s ∧ ∀ c ∈ s, isBlank c = true :=
  dropEndWhile_append_dropped t

theorem trimStart_eq_self (h : ∀ c, t.head? = some c → isBlank c = false) : trimStart t = t := by
  unfold trimStart
  cases t with
  | nil => rfl
  | cons c t => simp [h c rfl]

theorem head?_trimStart (h : (trimStart t).head? = some c) : isBlank c = false :=
  of_head?_dropWhile h

theorem getLast?_trimEnd (h : (trimEnd t).getLast? = some c) : isBlank c = false :=
  of_getLast?_dropEndWhile h

theorem trim_eq_self (hs : ∀ c, t.head? = some c → isBlank c = false)
    (he : ∀ c, t.getLast? = some c → isBlank c = false) : trim t = t := by
  rw [trim, trimStart_eq_self hs, trimEnd_eq_self he]

theorem trim_eq_self_of_forall (h : ∀ c ∈ t, isBlank c = false) : trim t = t :=
  trim_eq_self (fun c hc => h c (mem_of_head? hc)) (fun c hc => h c (mem_of_getLast? hc))

theorem trim_append_of_forall (h : ∀ c ∈ s, isBlank c = true) : trim (t ++ s) = trim t := by
  unfold trim trimStart
  rw [dropWhile_append]
  split
  · next hnil =>
    have hs : s.dropWhile isBlank = [] := by rw [dropWhile_eq_nil_iff]; exact h
    rw [hs, isEmpty_iff.mp hnil]
  · exact dropEndWhile_append_of_forall h

theorem trimStart_word_append (hw : ∀ c ∈ w, isBlank c = false) (hne : w ≠ []) :
    trimStart (w ++ t) = w ++ t := by
  obtain ⟨d, v, rfl⟩ := exists_cons_of_ne_nil hne
  exact trimStart_eq_self fun c hc => hw c (Option.some.inj hc ▸ mem_cons_self)

theorem firstWord_append (hw : ∀ c ∈ w, isBlank c = false) (hne : w ≠ [])
    (ht : ∀ c, t.head? = some c → isBlank c = true) : firstWord (w ++ t) = w := by
  rw [firstWord, trimStart_word_append hw hne]
  exact takeWhile_append_eq_left (fun c hc => by rw [hw c hc]; rfl) fun c hc => by rw [ht c hc]; rfl

theorem trimStart_append_cons (hc : isBlank c = false) :
    trimStart (t ++ c :: s) = trimStart t ++ c :: s := by
  unfold trimStart
  rw [dropWhile_append]
  split
  · next h => rw [isEmpty_iff.mp h, dropWhile_cons_of_neg (by simp [hc])]; rfl
  · rfl

theorem trim_trimStart (t : Text) : trim (trimStart t) = trim t := by
  rw [trim, trimStart_eq_self fun c => head?_trimStart, trim]

theorem trimEnd_append_cons (hc : isBlank c = false) :
    trimEnd (t ++ c :: s) = t ++ c :: trimEnd s := by
  have hlast : ∀ d, (t ++ [c]).getLast? = some d → isBlank d = false := by
    intro d hd
    rw [getLast?_concat] at hd
    exact Option.some.inj hd ▸ hc
  have h := dropEndWhile_append hlast (s := s)
  rwa [append_assoc, append_assoc] at h

theorem trim_append_cons (hc : isBlank c = false) :
    trim (t ++ c :: s) = trimStart t ++ c :: trimEnd s := by
  rw [trim, trimStart_append_cons hc, trimEnd_append_cons hc]

theorem trim_trimEnd (t : Text) : trim (trimEnd t) = trim t := by
  obtain ⟨s, hs, hblank⟩ := trimEnd_append_dropped t
  conv_rhs => rw [hs, trim_append_of_forall hblank]

theorem trim_trim (t : Text) : trim (trim t) = trim t := by
  conv_lhs => rw [trim.eq_1 t, trim_trimEnd, trim_trimStart]

theorem exists_of_trim (t : Text) :
    ∃ s u, t = s ++ trim t ++ u ∧ (∀ c ∈ s, isBlank c = true) ∧ ∀ c ∈ u, isBlank c = true := by
  obtain ⟨u, hu, hblank⟩ := trimEnd_append_dropped (trimStart t)
  refine ⟨t.takeWhile isBlank, u, ?_, fun c hc => mem_takeWhile_imp hc, hblank⟩
  rw [append_assoc, trim, ← hu, trimStart, takeWhile_append_dropWhile]

theorem trim_isInfix (t : Text) : trim t <:+: t :=
  (dropEndWhile_isPrefix _).isInfix.trans (dropWhile_suffix isBlank).isInfix

theorem head?_trim (t : Text) : (trim t).head? = List.find? (fun c => !isBlank c) t := by
  induction t with
  | nil => rfl
  | cons c t ih =>
    cases hc : isBlank c with
    | true =>
      have hstart : trim (c :: t) = trim t := by
        rw [trim, trim, trimStart, trimStart, dropWhile_cons_of_pos hc]
      rw [hstart, ih, find?_cons_of_neg (by simp [hc])]
    | false =>
      have hcons : trim (c :: t) = c :: trimEnd t := trim_append_cons (t := []) hc
      rw [hcons, find?_cons_of_pos (by simp [hc]), head?_cons]

theorem trim_eq_nil_iff : trim t = [] ↔ ∀ c ∈ t, isBlank c = true := by
  rw [← head?_eq_none_iff, head?_trim, find?_eq_none]
  simp

theorem trim_space_cons (t : Text) : trim (' ' :: t) = trim t := rfl

/-! ## Texts that are in upper or lower case already

Every character that the mapping to upper case changes lies beyond the capital letters of the basic
alphabet, so a text of capital letters, digits and signs below them is its own upper case. The lower
case of a text ends as the text does, if that ending is in lower case. -/

theorem toList_eq_of_ofList {s : String} {l : List Char} (h : s = String.ofList l) :
    s.toList = l := by
  rw [h, String.toList_ofList]

/-- A character stays as it is if no run has it: the runs that could have it are looked for by `p`.
-/
theorem CaseMap.apply_eq_self {m : CaseMap} {p : CaseRun → Bool} (hm : m.runs.find? p = none)
    (h : ∀ r : CaseRun, r.first ≤ c.toNat → c.toNat ≤ r.last → p r = true) : m.apply c = [c] := by
  have hruns : m.runs.find? (·.contains c.toNat) = none := by
    rw [Array.find?_eq_none]
    intro r hr hc
    simp only [CaseRun.contains, Bool.and_eq_true, decide_eq_true_eq] at hc
    exact Array.find?_eq_none.mp hm r hr (h r hc.1.1 hc.1.2)
  rw [apply, hruns]

/-! ### Upper case -/

set_option maxRecDepth 20000 in
theorem upperCase_runs : upperCase.runs.find? (fun r => r.first.blt 0x61) = none := by
  rw [upperCase, CaseMap.ofNotation, find?_toArray, toList_eq_of_ofList rfl]
  decide

theorem flatMap_eq_self {f : Char → Text} (h : ∀ c ∈ t, f c = [c]) : t.flatMap f = t := by
  induction t with
  | nil => rfl
  | cons c t ih =>
    rw [flatMap_cons, h c mem_cons_self, ih fun d hd => h d (mem_cons_of_mem _ hd)]
    rfl

theorem upper_eq_self (h : ∀ c ∈ t, c.toNat < 0x61) : upper t = t :=
  flatMap_eq_self fun c hc => CaseMap.apply_eq_self upperCase_runs fun _ hfirst _ =>
    Nat.blt_eq.mpr (hfirst.trans_lt (h c hc))

/-! ### Lower case -/

/-- A character that is its own lower case wherever it stands. -/
def StaysLow (c : Char) : Prop := c ≠ 'Σ' ∧ lowerCase.apply c = [c]

theorem lowerAfter_eq_self {before : Text} (h : ∀ c ∈ t, StaysLow c) : lowerAfter before t = t := by
  induction t generalizing before with
  | nil => rfl
  | cons c t ih =>
    obtain ⟨hsigma, happly⟩ := h c mem_cons_self
    rw [lowerAfter, if_neg hsigma, happly, ih fun d hd => h d (mem_cons_of_mem c hd)]
    rfl

theorem suffix_lower_append {s : Text} (h : ∀ c ∈ t, StaysLow c) : t <:+ lower (s ++ t) := by
  have key : ∀ before, t <:+ lowerAfter before (s ++ t) := by
    induction s with
    | nil =>
      intro before
      rw [nil_append, lowerAfter_eq_self h]
    | cons c s ih =>
      intro before
      exact (ih (c :: before)).trans (suffix_append _ _)
  exact key []

set_option maxRecDepth 20000 in
theorem lowerCase_runs :
    lowerCase.runs.find? (fun r => r.first.blt 0x80 && (r.first.blt 0x41 || Nat.blt 0x5A r.last)) =
      none := by
  rw [lowerCase, CaseMap.ofNotation, find?_toArray, toList_eq_of_ofList rfl]
  decide

theorem staysLow_of_basic (h : c.toNat < 0x41 ∨ 0x5A < c.toNat ∧ c.toNat < 0x80) : StaysLow c := by
  refine ⟨?_, CaseMap.apply_eq_self lowerCase_runs fun r hfirst hlast => ?_⟩
  · rintro rfl
    revert h
    decide
  · simp only [Bool.and_eq_true, Bool.or_eq_true, Nat.blt_eq]
    omega

/-! ## Cutting what was joined

Texts that are joined with a separator are found again by cutting at it, as long as none of them has
the separator in it. Lines are joined with line feeds and found again in the same way, as long as
none of them has a line break in it and the last one is not empty. Lines with breaks of any kind are
found again if they are well cut (`WellCut`), as those are that cutting a text gives. -/

variable {ts : List Text} {ls : List (Text × Text)}
variable {sep : Char} {u a b l : Text} {p : Text × Text}

/-! ### Cutting at a character -/

section

variable [DecidableEq α] {sep : α}

theorem splitOn_of_not_mem {t : List α} (h : sep ∉ t) : splitOn sep t = [t] := by
  induction t with
  | nil => rfl
  | cons c t ih =>
    obtain ⟨hc, ht⟩ := not_or.mp (fun hm => h (mem_cons.mpr hm))
    have := ih ht
    unfold splitOn at this ⊢
    rw [foldr_cons, this, if_neg (Ne.symm hc)]

theorem splitOn_append_of_not_mem {s t : List α} (h : sep ∉ s) :
    ∃ ps p, splitOn sep t = ps ++ [p] ∧ splitOn sep (t ++ s) = ps ++ [p ++ s] := by
  induction t with
  | nil => exact ⟨[], [], rfl, splitOn_of_not_mem h⟩
  | cons c t ih =>
    obtain ⟨ps, p, h₁, h₂⟩ := ih
    unfold splitOn at h₁ h₂ ⊢
    rw [cons_append, foldr_cons, foldr_cons, h₁, h₂]
    split
    · exact ⟨[] :: ps, p, rfl, rfl⟩
    · cases ps with
      | nil => exact ⟨[], c :: p, rfl, rfl⟩
      | cons q ps => exact ⟨(c :: q) :: ps, p, rfl, rfl⟩

theorem splitOn_cons {c : α} (hc : c ≠ sep) (t : List α) :
    ∃ p ps, splitOn sep t = p :: ps ∧ splitOn sep (c :: t) = (c :: p) :: ps := by
  cases h : splitOn sep t with
  | nil =>
    obtain ⟨ps, p, hps, -⟩ := splitOn_append_of_not_mem (t := t) (not_mem_nil (a := sep))
    rw [hps] at h
    exact absurd h (by simp)
  | cons p ps =>
    unfold splitOn at h
    exact ⟨p, ps, rfl, by rw [splitOn, foldr_cons, if_neg hc, h]⟩

theorem splitOn_append_cons (s t : List α) :
    splitOn sep (s ++ sep :: t) = splitOn sep s ++ splitOn sep t := by
  induction s with
  | nil => simp [splitOn]
  | cons c s ih =>
    by_cases hc : c = sep
    · unfold splitOn at ih ⊢
      rw [cons_append, foldr_cons, foldr_cons, ih, if_pos hc, if_pos hc, cons_append]
    · obtain ⟨p, ps, hs, hcs⟩ := splitOn_cons hc s
      obtain ⟨q, qs, hst, hcst⟩ := splitOn_cons hc (s ++ sep :: t)
      rw [ih, hs, cons_append] at hst
      obtain ⟨rfl, rfl⟩ := cons.inj hst
      rw [cons_append, hcst, hcs, cons_append]

theorem splitOn_append_sep {s t : List α} (h : sep ∉ s) :
    splitOn sep (s ++ sep :: t) = s :: splitOn sep t := by
  rw [splitOn_append_cons, splitOn_of_not_mem h, singleton_append]

theorem splitOn_concat_sep (t : List α) : splitOn sep (t ++ [sep]) = splitOn sep t ++ [[]] :=
  splitOn_append_cons t []

theorem mem_flatten_splitOn {c : α} (hc : c ≠ sep) {t : List α} :
    c ∈ (splitOn sep t).flatten ↔ c ∈ t := by
  induction t with
  | nil => rfl
  | cons d t ih =>
    by_cases hd : d = sep
    · subst hd
      have hsplit : splitOn d (d :: t) = [] :: splitOn d t := splitOn_append_cons [] t
      rw [hsplit, flatten_cons, nil_append, ih, mem_cons, or_iff_right hc]
    · obtain ⟨p, ps, hps, hcons⟩ := splitOn_cons hd t
      rw [hps, flatten_cons] at ih
      rw [hcons, flatten_cons, cons_append, mem_cons, ih, mem_cons]

theorem not_mem_of_mem_splitOn {s t : List α} (h : s ∈ splitOn sep t) : sep ∉ s := by
  induction t generalizing s with
  | nil =>
    rw [mem_singleton.mp h]
    exact not_mem_nil
  | cons c t ih =>
    by_cases hc : c = sep
    · unfold splitOn at ih h
      rw [foldr_cons, if_pos hc] at h
      rcases mem_cons.mp h with rfl | h
      · exact not_mem_nil
      · exact ih h
    · obtain ⟨p, ps, ht, hct⟩ := splitOn_cons hc t
      rw [ht] at ih
      rw [hct] at h
      rcases mem_cons.mp h with rfl | h
      · exact fun hm => (mem_cons.mp hm).elim (Ne.symm hc) (ih mem_cons_self)
      · exact ih (mem_cons_of_mem p h)

theorem splitOnce?_append_sep {s t : List α} (h : sep ∉ s) :
    splitOnce? sep (s ++ sep :: t) = some (s, t) := by
  have hs : ∀ c ∈ s, decide (c ≠ sep) = true := fun c hc => decide_eq_true fun he => h (he ▸ hc)
  unfold splitOnce?
  rw [span_eq_takeWhile_dropWhile, takeWhile_append_of_pos hs, dropWhile_append_of_pos hs]
  simp

theorem eq_append_of_splitOnce? {t a b : List α} (h : splitOnce? sep t = some (a, b)) :
    t = a ++ sep :: b := by
  unfold splitOnce? at h
  rw [span_eq_takeWhile_dropWhile] at h
  have ht := takeWhile_append_dropWhile (p := fun c => decide (c ≠ sep)) (l := t)
  cases hrest : t.dropWhile fun c => decide (c ≠ sep) with
  | nil =>
    rw [hrest] at h
    cases h
  | cons c rest =>
    rw [hrest] at h ht
    cases h
    have hc : c = sep := by
      have hstop := of_head?_dropWhile (p := fun c => decide (c ≠ sep)) (hrest ▸ head?_cons)
      simpa using hstop
    rw [hc] at ht
    exact ht.symm

theorem splitOnce?_of_not_mem {t : List α} (h : sep ∉ t) : splitOnce? sep t = none := by
  cases hcut : splitOnce? sep t with
  | none => rfl
  | some x => exact absurd (by rw [eq_append_of_splitOnce? hcut]; simp) h

theorem splitOnce?_cases (sep : α) (t : List α) :
    (sep ∉ t ∧ splitOnce? sep t = none) ∨
      ∃ a b, sep ∉ a ∧ t = a ++ sep :: b ∧ splitOnce? sep t = some (a, b) := by
  by_cases h : sep ∈ t
  · obtain ⟨a, b, rfl, ha⟩ := eq_append_cons_of_mem h
    exact .inr ⟨a, b, ha, rfl, splitOnce?_append_sep ha⟩
  · exact .inl ⟨h, splitOnce?_of_not_mem h⟩

end

theorem join_cons_cons (sep t u : List α) (ts : List (List α)) :
    join sep (t :: u :: ts) = t ++ sep ++ join sep (u :: ts) := by
  simp [join, intercalate, intersperse]

theorem mem_join {sep : List α} {ts : List (List α)} {c : α} (h : c ∈ join sep ts) :
    c ∈ sep ∨ ∃ t ∈ ts, c ∈ t := by
  induction ts with
  | nil => exact absurd h not_mem_nil
  | cons t ts ih =>
    cases ts with
    | nil => exact .inr ⟨t, mem_cons_self, by simpa [join, intercalate, intersperse] using h⟩
    | cons u us =>
      rw [join_cons_cons, mem_append, mem_append] at h
      rcases h with (h | h) | h
      · exact .inr ⟨t, mem_cons_self, h⟩
      · exact .inl h
      · rcases ih h with h | ⟨v, hv, h⟩
        · exact .inl h
        · exact .inr ⟨v, mem_cons_of_mem _ hv, h⟩

@[simp] theorem join_singleton (sep t : List α) : join sep [t] = t := by
  simp [join, intercalate, intersperse]

theorem splitOn_join (hne : ts ≠ []) (h : ∀ t ∈ ts, sep ∉ t) : splitOn sep (join [sep] ts) = ts := by
  induction ts with
  | nil => exact absurd rfl hne
  | cons t ts ih =>
    have ht := h t mem_cons_self
    cases ts with
    | nil => rw [join_singleton, splitOn_of_not_mem ht]
    | cons u us =>
      rw [join_cons_cons, append_assoc, singleton_append, splitOn_append_sep ht,
        ih (cons_ne_nil u us) fun v hv => h v (mem_cons_of_mem t hv)]

theorem splitAtMost_join (h : ∀ t ∈ ts, sep ∉ t) :
    splitAtMost sep ts.length (join [sep] (ts ++ [u])) = ts ++ [u] := by
  induction ts with
  | nil => simp [splitAtMost]
  | cons t ts ih =>
    obtain ⟨v, vs, hv⟩ : ∃ v vs, ts ++ [u] = v :: vs := exists_cons_of_ne_nil (by simp)
    have hrest := ih fun t ht => h t (mem_cons_of_mem _ ht)
    rw [hv] at hrest
    rw [cons_append, hv, join_cons_cons, append_assoc, singleton_append, length_cons, splitAtMost,
      splitOnce?_append_sep (h t mem_cons_self)]
    simp only
    rw [hrest]

theorem splitLast?_eq_some_iff : splitLast? sep t = some (a, b) ↔ t = a ++ sep :: b ∧ sep ∉ b := by
  constructor
  · intro h
    obtain ⟨⟨b', a'⟩, hcut, hpair⟩ := Option.map_eq_some_iff.mp h
    cases hpair
    rcases splitOnce?_cases sep t.reverse with ⟨-, hnone⟩ | ⟨b'', a'', hb, ht, hsome⟩
    · simp [hnone] at hcut
    · obtain ⟨rfl, rfl⟩ := Prod.mk.inj (Option.some.inj (hsome.symm.trans hcut))
      refine ⟨?_, fun hmem => hb (mem_reverse.mp hmem)⟩
      rw [← reverse_reverse t, ht]
      simp
  · rintro ⟨rfl, hb⟩
    have hreverse : (a ++ sep :: b).reverse = b.reverse ++ sep :: a.reverse := by simp
    rw [splitLast?, hreverse, splitOnce?_append_sep fun hmem => hb (mem_reverse.mp hmem)]
    simp

theorem append_sep_inj {a' b' : Text} (ha : sep ∉ a) (ha' : sep ∉ a')
    (h : a ++ sep :: b = a' ++ sep :: b') : a = a' ∧ b = b' := by
  have hcut := splitOnce?_append_sep (t := b) ha
  rw [h, splitOnce?_append_sep ha'] at hcut
  cases hcut
  exact ⟨rfl, rfl⟩

/-! ### Replacement -/

section

variable {a : Char} {o new : Text}

theorem replaceFrom_append (old s : Text) :
    replaceFrom old new s.length (s ++ t) = replace old new t := by
  induction s with
  | nil => rfl
  | cons c s ih => exact ih

theorem replace_found : replace (a :: o) new (a :: o ++ t) = new ++ replace (a :: o) new t := by
  have hfound : (a :: o).isPrefixOf (a :: (o ++ t)) = true := isPrefixOf_iff_prefix.mpr (prefix_append (a :: o) t)
  rw [replace, cons_append, replaceFrom, if_pos hfound]
  exact congrArg (new ++ ·) (replaceFrom_append (a :: o) o)

theorem replace_step (h : ¬ a :: o <+: c :: t) :
    replace (a :: o) new (c :: t) = c :: replace (a :: o) new t := by
  rw [replace, replaceFrom, if_neg (mt isPrefixOf_iff_prefix.mp h)]
  rfl

theorem replace_quiet {s : Text} (h : a ∉ s) :
    replace (a :: o) new (s ++ t) = s ++ replace (a :: o) new t := by
  induction s with
  | nil => rfl
  | cons c s ih =>
    rw [mem_cons, not_or] at h
    rw [cons_append, replace_step fun hpre => h.1 (cons_prefix_cons.mp hpre).1, ih h.2, cons_append]

theorem replace_pair_step {b : Char} (h : c = a → t.head? ≠ some b) :
    replace [a, b] new (c :: t) = c :: replace [a, b] new t := by
  refine replace_step fun hpre => ?_
  obtain ⟨hc, u, hu⟩ := cons_prefix_cons.mp hpre
  exact h hc.symm (by rw [← hu]; rfl)

end

/-! ### Cutting into lines -/

theorem isBlank_of_isLineBreak (h : isLineBreak c = true) : isBlank c = true := by
  simp only [isBlank, isLineBreak, Bool.or_eq_true, Bool.and_eq_true, decide_eq_true_eq, beq_iff_eq] at h ⊢
  omega

theorem isLineBreak_of_not_blank (h : isBlank c = false) : isLineBreak c = false :=
  Bool.eq_false_iff.mpr fun hbreak => Bool.eq_false_iff.mp h (isBlank_of_isLineBreak hbreak)

def OneLine (t : Text) : Prop := ∀ c ∈ t, isLineBreak c = false

instance (t : Text) : Decidable (OneLine t) :=
  decidable_of_iff ((t.all fun c => !isLineBreak c) = true) (by simp [OneLine])

theorem OneLine.lf_not_mem (h : OneLine t) : '\n' ∉ t := fun hm => absurd (h _ hm) (by decide)

theorem OneLine.of_cons (h : OneLine (c :: t)) : OneLine t :=
  fun d hd => h d (mem_cons_of_mem _ hd)

theorem oneLine_of_not_blank (h : ∀ c ∈ t, isBlank c = false) : OneLine t :=
  fun c hc => isLineBreak_of_not_blank (h c hc)

theorem oneLine_join {sep : Text} (hsep : OneLine sep) (h : ∀ t ∈ ts, OneLine t) :
    OneLine (join sep ts) := by
  intro c hc
  rcases mem_join hc with hc | ⟨t, ht, hc⟩
  · exact hsep c hc
  · exact h t ht c hc

theorem oneLine_append (ht : OneLine t) (hu : OneLine u) : OneLine (t ++ u) := by
  intro c hc
  rcases mem_append.mp hc with hc | hc
  · exact ht c hc
  · exact hu c hc

theorem linesWithBreaks_cons (hc : isLineBreak c = false) :
    linesWithBreaks (c :: t) = match linesWithBreaks t with
      | [] => [([c], [])]
      | (l, b) :: ls => (c :: l, b) :: ls := by
  have hr : c ≠ '\r' := by
    rintro rfl
    exact absurd hc (by decide)
  rw [linesWithBreaks]
  · refine (if_neg (by rw [hc]; decide)).trans ?_
    cases linesWithBreaks t <;> rfl
  · rintro t rfl
    exact absurd rfl hr

/-- `b` is what ends a line that `t` comes after. -/
inductive EndsLine : Text → Text → Prop
  /-- A carriage return and a line feed. -/
  | pair (t : Text) : EndsLine ['\r', '\n'] t
  /-- One character, which is not the first half of such a pair. -/
  | single {c : Char} {t : Text} : isLineBreak c = true → (c = '\r' → t.head? ≠ some '\n') → EndsLine [c] t

theorem EndsLine.ne_nil (h : EndsLine b t) : b ≠ [] := by
  cases h <;> simp

theorem EndsLine.isLineBreak (h : EndsLine b t) : ∀ d ∈ b, isLineBreak d = true := by
  cases h with
  | pair _ => exact forall_mem_cons.mpr ⟨by decide, forall_mem_singleton.mpr (by decide)⟩
  | single hc _ => exact forall_mem_singleton.mpr hc

theorem EndsLine.congr (h : EndsLine b t) (hu : u.head? = some '\n' → t.head? = some '\n') :
    EndsLine b u := by
  cases h with
  | pair _ => exact .pair u
  | single hc hr => exact .single hc fun hcr hhead => hr hcr (hu hhead)

theorem linesWithBreaks_append_break (hl : OneLine l) (hb : EndsLine b t) :
    linesWithBreaks (l ++ (b ++ t)) = (l, b) :: linesWithBreaks t := by
  induction l with
  | nil =>
    cases hb with
    | pair t => rw [nil_append, cons_append, cons_append, nil_append, linesWithBreaks]
    | @single c _ hc hr =>
      rw [nil_append, singleton_append, linesWithBreaks, if_pos hc]
      rintro t rfl rfl
      exact hr rfl rfl
  | cons c l ih => rw [cons_append, linesWithBreaks_cons (hl c mem_cons_self), ih hl.of_cons]

theorem linesWithBreaks_append_lf (hl : OneLine l) :
    linesWithBreaks (l ++ '\n' :: t) = (l, ['\n']) :: linesWithBreaks t :=
  linesWithBreaks_append_break hl (.single rfl fun h => absurd h (by decide))

theorem linesWithBreaks_of_no_break (hl : OneLine l) (hne : l ≠ []) :
    linesWithBreaks l = [(l, [])] := by
  induction l with
  | nil => exact absurd rfl hne
  | cons c l ih =>
    rw [linesWithBreaks_cons (hl c mem_cons_self)]
    cases l with
    | nil => rfl
    | cons d l => rw [ih hl.of_cons (by simp)]

/-- **Joined lines are found again.** -/
theorem lines_join {ls : List Text} (hls : ∀ l ∈ ls, OneLine l)
    (hlast : ∀ l, ls.getLast? = some l → l ≠ []) : lines (join ['\n'] ls) = ls := by
  unfold lines
  induction ls with
  | nil => rfl
  | cons l ls ih =>
    have hl := hls l mem_cons_self
    cases ls with
    | nil => rw [join_singleton, linesWithBreaks_of_no_break hl (hlast l rfl)]; rfl
    | cons m ls =>
      rw [join_cons_cons, append_assoc, singleton_append, linesWithBreaks_append_lf hl, map_cons,
        ih (fun l h => hls l (mem_cons_of_mem _ h)) (fun l h => hlast l (by rw [getLast?_cons_cons]; exact h))]

/-! ### Lines and their breaks put together -/

/-- The text that lines with their breaks make up. -/
def glue (ls : List (Text × Text)) : Text := ls.flatMap fun p => p.1 ++ p.2

theorem glue_cons (l b : Text) (ls : List (Text × Text)) :
    glue ((l, b) :: ls) = l ++ (b ++ glue ls) := by
  rw [glue, flatMap_cons, append_assoc, glue]

/-- Lines with their breaks as cutting a text gives them. -/
inductive WellCut : List (Text × Text) → Prop
  | nil : WellCut []
  | last {l : Text} : OneLine l → l ≠ [] → WellCut [(l, [])]
  | line {l b : Text} {ls : List (Text × Text)} : OneLine l → EndsLine b (glue ls) → WellCut ls → WellCut ((l, b) :: ls)

theorem linesWithBreaks_glue (h : WellCut ls) : linesWithBreaks (glue ls) = ls := by
  induction h with
  | nil => rfl
  | @last l hl hne =>
    simpa [glue] using linesWithBreaks_of_no_break hl hne
  | line hl hb _ ih => rw [glue_cons, linesWithBreaks_append_break hl hb, ih]

/-- **Cutting a text gives lines that are well cut and make up the text.** -/
theorem wellCut_linesWithBreaks (t : Text) :
    WellCut (linesWithBreaks t) ∧ glue (linesWithBreaks t) = t := by
  fun_induction linesWithBreaks t with
  | case1 => exact ⟨.nil, rfl⟩
  | case2 t ih =>
    refine ⟨.line nofun (.pair _) ih.1, ?_⟩
    rw [glue_cons, ih.2]
    rfl
  | case3 c t hpair hc ih =>
    refine ⟨.line nofun (.single hc ?_) ih.1, ?_⟩
    · rw [ih.2]
      rintro rfl hhead
      obtain ⟨u, rfl⟩ := head?_eq_some_iff.mp hhead
      exact hpair u rfl rfl
    · rw [glue_cons, ih.2]
      rfl
  | case4 c t hpair hc hls ih =>
    rw [hls] at ih
    obtain rfl : t = [] := ih.2.symm
    refine ⟨.last (fun d hd => ?_) (by simp), rfl⟩
    rw [mem_singleton.mp hd]
    simpa using hc
  | case5 c t hpair hc l b ls hls ih =>
    rw [hls] at ih
    obtain ⟨hcut, hglue⟩ := ih
    refine ⟨?_, by rw [glue_cons, cons_append, ← glue_cons, hglue]⟩
    have hone : OneLine l → OneLine (c :: l) := by
      intro hl d hd
      rcases mem_cons.mp hd with rfl | hd
      · simpa using hc
      · exact hl d hd
    cases hcut with
    | last hl _ => exact .last (hone hl) (by simp)
    | line hl hb hrest => exact .line (hone hl) hb hrest

theorem WellCut.of_mem (h : WellCut ls) (hp : p ∈ ls) :
    OneLine p.1 ∧ (p.2 = [] ∨ ∃ t, EndsLine p.2 t) := by
  induction h with
  | nil => cases hp
  | last hl _ =>
    obtain rfl := mem_singleton.mp hp
    exact ⟨hl, .inl rfl⟩
  | line hl hb _ ih =>
    rcases mem_cons.mp hp with rfl | hp
    · exact ⟨hl, .inr ⟨_, hb⟩⟩
    · exact ih hp

theorem WellCut.ending_of_mem (h : WellCut ls) (hp : p ∈ ls) :
    p.2 = [] ∨ p.2 = ['\r', '\n'] ∨ ∃ c, isLineBreak c = true ∧ p.2 = [c] := by
  rcases (h.of_mem hp).2 with hnil | ⟨t, hb⟩
  · exact .inl hnil
  · generalize p.2 = b at hb ⊢
    cases hb with
    | pair _ => exact .inr (.inl rfl)
    | single hbreak _ => exact .inr (.inr ⟨_, hbreak, rfl⟩)

theorem blank_of_mem_linesWithBreaks (h : p ∈ linesWithBreaks t) : ∀ c ∈ p.2, isBlank c = true := by
  intro c hc
  rcases ((wellCut_linesWithBreaks t).1.of_mem h).2 with hnil | ⟨u, hb⟩
  · simp [hnil] at hc
  · exact isBlank_of_isLineBreak (hb.isLineBreak c hc)

theorem oneLine_of_mem_lines (h : l ∈ lines t) : OneLine l := by
  obtain ⟨q, hq, rfl⟩ := mem_map.mp h
  exact ((wellCut_linesWithBreaks t).1.of_mem hq).1

/-- A line with its break in the place of another one: the break is the same, and the line is the
same or not empty. -/
def StandsFor (p q : Text × Text) : Prop := q.2 = p.2 ∧ (q.1 = p.1 ∨ OneLine q.1 ∧ q.1 ≠ [])

/-- Lines in the place of lines are well cut as well, and do not begin with a line feed unless those
do. -/
theorem WellCut.standsFor {ls' : List (Text × Text)} (h : WellCut ls)
    (hls : Forall₂ StandsFor ls ls') :
    WellCut ls' ∧ ((glue ls').head? = some '\n' → (glue ls).head? = some '\n') := by
  have hhead : ∀ {l b l' t u : Text}, l ++ b ≠ [] → (l' = l ∨ OneLine l' ∧ l' ≠ []) →
      (l' ++ (b ++ t)).head? = some '\n' → (l ++ (b ++ u)).head? = some '\n' := by
    rintro l b l' t u hne (rfl | ⟨hone, hne'⟩) hfirst
    · rw [← append_assoc, head?_append_of_ne_nil _ hne] at hfirst ⊢
      exact hfirst
    · rw [head?_append_of_ne_nil _ hne'] at hfirst
      exact absurd (mem_of_head? hfirst) hone.lf_not_mem
  induction h generalizing ls' with
  | nil =>
    cases hls
    exact ⟨.nil, id⟩
  | @last l hl hne =>
    obtain ⟨⟨l', b⟩, _, ⟨rfl, hl'⟩, hnil, rfl⟩ := forall₂_cons_left_iff.mp hls
    cases hnil
    replace hl' : l' = l ∨ OneLine l' ∧ l' ≠ [] := hl'
    refine ⟨.last (hl'.elim (· ▸ hl) And.left) (hl'.elim (· ▸ hne) And.right), ?_⟩
    rw [glue_cons, glue_cons]
    exact hhead (by simpa using hne) hl'
  | @line l b ls hl hb _ ih =>
    obtain ⟨⟨l', b'⟩, ls', ⟨rfl, hl'⟩, hrest, rfl⟩ := forall₂_cons_left_iff.mp hls
    obtain ⟨hcut, hfirst⟩ := ih hrest
    replace hl' : l' = l ∨ OneLine l' ∧ l' ≠ [] := hl'
    refine ⟨.line (hl'.elim (· ▸ hl) And.left) (hb.congr hfirst) hcut, ?_⟩
    rw [glue_cons, glue_cons]
    exact hhead (by simp [hb.ne_nil]) hl'

theorem unifyNewlines_eq_self (h : OneLine t) : unifyNewlines t = t := by
  fun_induction unifyNewlines t with
  | case1 => rfl
  | case2 t ih => exact absurd (h '\r' mem_cons_self) (by decide)
  | case3 c t _ ih =>
    have hc : c ≠ '\r' := fun hc => absurd (h c mem_cons_self) (hc ▸ by decide)
    rw [if_neg hc, ih h.of_cons]

theorem unifyNewlines_singleton (c : Char) : unifyNewlines [c] = [if c = '\r' then '\n' else c] := by
  rw [unifyNewlines]
  · rfl
  · simp

/-- **Unifying line ends keeps the lines of a text and unifies their breaks.** -/
theorem linesWithBreaks_unifyNewlines (t : Text) :
    linesWithBreaks (unifyNewlines t) =
      (linesWithBreaks t).map fun p => (p.1, unifyNewlines p.2) := by
  have hbreak : ∀ {b t : Text}, EndsLine b t → linesWithBreaks (b ++ t) = ([], b) :: linesWithBreaks t := fun hb =>
    linesWithBreaks_append_break (l := []) nofun hb
  have hlf : ∀ t : Text, linesWithBreaks ('\n' :: t) = ([], ['\n']) :: linesWithBreaks t := fun t =>
    hbreak (.single rfl fun h => absurd h (by decide))
  fun_induction unifyNewlines t with
  | case1 => rfl
  | case2 t ih =>
    rw [hlf, ih, linesWithBreaks, map_cons]
    rfl
  | case3 c t hpair ih =>
    by_cases hc : isLineBreak c = true
    · have hends : ∀ u, ¬ (c = '\r' ∧ u.head? = some '\n') → EndsLine [c] u := fun u hu =>
        .single hc fun hr hhead => hu ⟨hr, hhead⟩
      have hfirst : ¬ (c = '\r' ∧ t.head? = some '\n') := by
        rintro ⟨rfl, hhead⟩
        obtain ⟨u, rfl⟩ := head?_eq_some_iff.mp hhead
        exact hpair u rfl rfl
      have hline : linesWithBreaks (c :: t) = ([], [c]) :: linesWithBreaks t := hbreak (hends t hfirst)
      rw [hline, map_cons, unifyNewlines_singleton]
      split
      · rw [hlf, ih]
      · next hr =>
        have hrest : linesWithBreaks (c :: unifyNewlines t) = ([], [c]) :: linesWithBreaks (unifyNewlines t) :=
          hbreak (hends _ fun h => hr h.1)
        rw [hrest, ih]
    · have hr : c ≠ '\r' := by
        rintro rfl
        exact hc rfl
      rw [if_neg hr, linesWithBreaks_cons (by simpa using hc), linesWithBreaks_cons (by simpa using hc), ih]
      cases linesWithBreaks t with
      | nil
      | cons p ls => rfl

theorem lines_unifyNewlines (t : Text) : lines (unifyNewlines t) = lines t := by
  rw [lines, linesWithBreaks_unifyNewlines, map_map]
  rfl

end Localizer.Text
