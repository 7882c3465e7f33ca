import Localizer.Font.Tool
import Localizer.Proofs.Glyph
import Localizer.Proofs.Workspace

/-!
# Two readers of a code table

A code table is read by the conversion of texts, which gives codes to characters, and by the font
tool, which draws the characters one after another. The tiles stand for the codes only if both
readers see the same characters in the same order.

They do not always. The font tool draws whatever stands behind an equals sign, even in a comment,
and it ends lines at line feeds only. When the two see the same is said by `loadTexts_agrees`.
-/

namespace Localizer.Font

open List hiding splitOn
open Text Glyph Job Encoding

variable {c : Char} {t : Text}
variable {p r line : Text} {ps : List Text} {β : Type} {g : Text → Option β}

/-! ### Lines and pieces -/

def breakPieces (t : Text) : List Text := t.splitOnP isLineBreak

theorem breakPieces_cons_break (hc : isLineBreak c = true) :
    breakPieces (c :: t) = [] :: breakPieces t := by
  rw [breakPieces, splitOnP_cons_eq_if_modifyHead, if_pos hc, breakPieces]

theorem breakPieces_cons (hc : isLineBreak c = false)
    (h : breakPieces t = p :: ps) : breakPieces (c :: t) = (c :: p) :: ps := by
  unfold breakPieces at h ⊢
  rw [splitOnP_cons_eq_if_modifyHead, if_neg (by simp [hc]), h]
  rfl

theorem exists_breakPieces (t : Text) : ∃ p ps, breakPieces t = p :: ps :=
  exists_cons_of_ne_nil (splitOnP_ne_nil isLineBreak t)

theorem isPrefix_of_breakPieces (h : breakPieces t = p :: ps) : ∃ rest, t = p ++ rest := by
  induction t generalizing p ps with
  | nil =>
    cases h
    exact ⟨[], rfl⟩
  | cons c t ih =>
    cases hc : isLineBreak c with
    | true =>
      rw [breakPieces_cons_break hc] at h
      cases h
      exact ⟨c :: t, rfl⟩
    | false =>
      obtain ⟨q, qs, hq⟩ := exists_breakPieces t
      rw [breakPieces_cons hc hq] at h
      obtain ⟨rest, rfl⟩ := ih hq
      cases h
      exact ⟨rest, rfl⟩

theorem mem_of_mem_breakPieces (hp : p ∈ breakPieces t) (hc : c ∈ p) : c ∈ t := by
  induction t generalizing p with
  | nil =>
    obtain rfl : p = [] := by simpa [breakPieces] using hp
    exact hc
  | cons d t ih =>
    cases hd : isLineBreak d with
    | true =>
      rw [breakPieces_cons_break hd] at hp
      rcases mem_cons.mp hp with rfl | hp
      · exact absurd hc not_mem_nil
      · exact mem_cons_of_mem d (ih hp hc)
    | false =>
      obtain ⟨q, qs, hq⟩ := exists_breakPieces t
      rw [breakPieces_cons hd hq] at hp
      rcases mem_cons.mp hp with rfl | hp
      · rcases mem_cons.mp hc with rfl | hc
        · exact mem_cons_self
        · exact mem_cons_of_mem d (ih (hq ▸ mem_cons_self) hc)
      · exact mem_cons_of_mem d (ih (hq ▸ mem_cons_of_mem q hp) hc)

/-- The lines of a text are its pieces, apart from empty ones. The first line goes with the first
piece, which is what the induction needs when a character is put in front. -/
theorem lines_cases (hg : g [] = none) (t : Text) : (lines t = [] ∧ breakPieces t = [[]]) ∨
      ∃ l ls ps, lines t = l :: ls ∧ breakPieces t = l :: ps ∧ ls.filterMap g = ps.filterMap g := by
  have hrest : ∀ t, ((lines t = [] ∧ breakPieces t = [[]]) ∨
      ∃ l ls ps, lines t = l :: ls ∧ breakPieces t = l :: ps ∧ ls.filterMap g = ps.filterMap g) →
      (lines t).filterMap g = (breakPieces t).filterMap g := by
    rintro t (⟨hl, hp⟩ | ⟨l, ls, ps, hl, hp, h⟩)
    · simp [hl, hp, hg]
    · simp [hl, hp, h, filterMap_cons]
  unfold lines at hrest ⊢
  fun_induction linesWithBreaks t with
  | case1 => exact .inl ⟨rfl, rfl⟩
  | case2 t ih =>
    refine .inr ⟨[], _, _, rfl, breakPieces_cons_break (by decide), ?_⟩
    rw [breakPieces_cons_break (by decide), filterMap_cons_none hg]
    exact hrest t ih
  | case3 c t _ hc ih => exact .inr ⟨[], _, _, rfl, breakPieces_cons_break hc, hrest t ih⟩
  | case4 c t _ hc hnil ih =>
    rcases ih with ⟨-, hp⟩ | ⟨l, ls, ps, hl, -, -⟩
    · exact .inr ⟨[c], [], [], rfl, breakPieces_cons (by simpa using hc) hp, rfl⟩
    · simp [hnil] at hl
  | case5 c t _ hc l b ls hcons ih =>
    rcases ih with ⟨hl, -⟩ | ⟨l', ls', ps, hl, hp, h⟩
    · simp [hcons] at hl
    · rw [hcons] at hl
      obtain ⟨rfl, rfl⟩ := cons.inj hl
      exact .inr ⟨c :: l, _, ps, rfl, breakPieces_cons (by simpa using hc) hp, h⟩

theorem filterMap_lines (hg : g [] = none) (t : Text) :
    (lines t).filterMap g = (breakPieces t).filterMap g := by
  rcases lines_cases hg t with ⟨hl, hp⟩ | ⟨l, ls, ps, hl, hp, h⟩
  · simp [hl, hp, hg]
  · simp [hl, hp, h, filterMap_cons]

theorem filter_lines {p : Text → Bool} (hp : p [] = false) (t : Text) :
    (lines t).filter p = (breakPieces t).filter p := by
  have h := filterMap_lines (g := Option.guard p) (by simp [Option.guard, hp]) t
  rwa [filterMap_eq_filter] at h

theorem breakPieces_eq_flatMap (t : Text) : breakPieces t = (splitOn '\n' t).flatMap breakPieces := by
  induction hlen : t.length using Nat.strongRecOn generalizing t with
  | ind n ih =>
    by_cases h : '\n' ∈ t
    · obtain ⟨a, b, rfl, ha⟩ := eq_append_cons_of_mem h
      have hshort : b.length < n := by simp at hlen; omega
      rw [splitOn_append_sep ha, flatMap_cons, ← ih b.length hshort b rfl]
      exact splitOnP_append_cons a b (by decide)
    · rw [splitOn_of_not_mem h, flatMap_singleton]

theorem filterMap_fileLines (hg : g [] = none) (t : Text) :
    (fileLines t).filterMap g = (splitOn '\n' t).filterMap g := by
  unfold fileLines
  dsimp only
  split
  · next hlast =>
    obtain ⟨ps, hps⟩ := getLast?_eq_some_iff.mp hlast
    rw [hps, dropLast_concat, filterMap_append, filterMap_cons_none hg, filterMap_nil, append_nil]
  · rfl

/-! ### What is drawn for a line -/

/-- What the font tool draws for a line: the text behind the first equals sign. -/
def lineText? (line : Text) : Option Text := (splitOnce? '=' line).map fun x => trim x.2

theorem isSome_lineText? (line : Text) : (lineText? line).isSome = decide ('=' ∈ line) := by
  unfold lineText?
  rcases splitOnce?_cases '=' line with ⟨hnot, hcut⟩ | ⟨a, b, -, rfl, hcut⟩
  · simp [hcut, hnot]
  · simp [hcut]

theorem lineText?_trim (line : Text) : lineText? (trim line) = lineText? line := by
  rcases splitOnce?_cases '=' line with ⟨hnot, hcut⟩ | ⟨a, b, ha, rfl, hcut⟩
  · have htrim : '=' ∉ trim line := fun h =>
      hnot ((dropWhile_sublist _).mem ((dropEndWhile_isPrefix _).sublist.mem h))
    rw [lineText?, lineText?, hcut, splitOnce?_of_not_mem htrim]
  · have hstart : '=' ∉ trimStart a := fun h => ha ((dropWhile_sublist _).mem h)
    rw [lineText?, lineText?, hcut, trim_append_cons (by decide), splitOnce?_append_sep hstart]
    simp [trim_trimEnd]

theorem tableTexts_eq (t : Text) : tableTexts t = (splitOn '\n' t).filterMap lineText? := by
  have h : tableTexts t = (fileLines t).filterMap lineText? := congrArg (filterMap · _) (funext lineText?_trim)
  rw [h, filterMap_fileLines rfl]

theorem tableTexts_cons (hc : c ≠ '\n') (hc' : c ≠ '=') (t : Text) :
    tableTexts (c :: t) = tableTexts t := by
  obtain ⟨l, ls, hsplit, hcons⟩ := splitOn_cons hc t
  have hline : lineText? (c :: l) = lineText? l := by
    unfold lineText?
    rcases splitOnce?_cases '=' l with ⟨hnot, hcut⟩ | ⟨a, b, ha, rfl, hcut⟩
    · rw [hcut, splitOnce?_of_not_mem (by simp [hnot, Ne.symm hc'])]
    · have hca : '=' ∉ c :: a := by simp [ha, Ne.symm hc']
      rw [hcut, ← cons_append, splitOnce?_append_sep hca]
      rfl
  rw [tableTexts_eq, tableTexts_eq, hsplit, hcons, filterMap_cons, filterMap_cons, hline]

/-! ### What an entry gives a code to -/

theorem head?_of_entryChar (h : entryChar (trim r) = [c]) : (trim r).head? = some c := by
  cases hr : trim r with
  | nil =>
    rw [hr] at h
    cases h
  | cons d t =>
    have hd : isBlank d = false := by
      have hfind : find? (fun c => !isBlank c) r = some d := by rw [← head?_trim, hr, head?_cons]
      simpa using find?_some hfind
    by_cases hsemi : d = ';'
    · rw [hr, hsemi] at h
      cases h
    · have hup : upTo ';' (d :: t) = d :: upTo ';' t := by simp [upTo, hsemi]
      rw [hr, entryChar, hup] at h
      unfold beforeSlashes at h
      split at h
      · next heq => cases heq
      · cases h
      · next e u _ heq =>
        obtain ⟨rfl, rfl⟩ := cons.inj heq
        rw [show d :: beforeSlashes (upTo ';' t) = [] ++ d :: beforeSlashes (upTo ';' t) from rfl, trim_append_cons hd] at h
        rw [head?_cons, (cons.inj h).1]

theorem lineText?_of_entryParts? {digits : Text} (h : entryParts? line = some (digits, r)) :
    lineText? line = some r := by
  obtain ⟨⟨a, b⟩, hcut, h⟩ := Option.bind_eq_some_iff.mp h
  dsimp only at h
  split at h
  · cases h
    rw [lineText?, hcut]
    rfl
  · cases h

theorem of_lineCode? {e : Char × Nat} (h : lineCode? line = some e) :
    ∃ t, lineText? line = some t ∧ t.head? = some e.1 := by
  unfold lineCode? at h
  split at h
  · cases h
  · split at h
    · cases h
    · next digits r hparts =>
      split at h
      · next c hchar =>
        cases h
        have htext := lineText?_of_entryParts? hparts
        rw [lineText?_trim] at htext
        refine ⟨r, htext, ?_⟩
        obtain ⟨x, -, rfl⟩ := Option.map_eq_some_iff.mp htext
        exact head?_of_entryChar hchar
      · cases h

theorem lineCode?_of_not_mem (h : '=' ∉ line) : lineCode? line = none := by
  cases hcode : lineCode? line with
  | none => rfl
  | some e =>
    obtain ⟨t, ht, -⟩ := of_lineCode? hcode
    have hsome := isSome_lineText? line
    simp [ht, h] at hsome

/-! ### What stands between two line feeds -/

theorem exists_first_piece (h : '=' ∈ t) :
    ∃ before l r after a b, breakPieces t = before ++ (l ++ '=' :: r) :: after ∧ (∀ p ∈ before, '=' ∉ p) ∧ '=' ∉ l ∧
      '=' ∉ a ∧ t = a ++ '=' :: (r ++ b) := by
  induction t with
  | nil => cases h
  | cons c t ih =>
    by_cases hc : c = '='
    · obtain ⟨r, after, hpieces⟩ := exists_breakPieces t
      obtain ⟨b, rfl⟩ := isPrefix_of_breakPieces hpieces
      subst hc
      refine ⟨[], [], r, after, [], b, breakPieces_cons (by decide) hpieces, ?_, ?_, ?_, rfl⟩
      · simp
      · simp
      · simp
    · obtain ⟨before, l, r, after, a, b, hpieces, hbefore, hl, ha, rfl⟩ := ih (by simpa [Ne.symm hc] using h)
      have hca : '=' ∉ c :: a := by simp [ha, Ne.symm hc]
      cases hbreak : isLineBreak c with
      | true =>
        refine ⟨[] :: before, l, r, after, c :: a, b, ?_, ?_, hl, hca, rfl⟩
        · rw [breakPieces_cons_break hbreak, hpieces, cons_append]
        · simpa using hbefore
      | false =>
        cases before with
        | nil =>
          refine ⟨[], c :: l, r, after, c :: a, b, breakPieces_cons hbreak hpieces, ?_, ?_, hca, rfl⟩
          · simp
          · simp [hl, Ne.symm hc]
        | cons p before =>
          refine ⟨(c :: p) :: before, l, r, after, c :: a, b, breakPieces_cons hbreak hpieces, ?_, hl, hca, rfl⟩
          simpa [Ne.symm hc] using hbefore

def signs (t : Text) : Nat := (breakPieces t).countP fun p => '=' ∈ p

def codes (t : Text) : Nat := (breakPieces t).countP fun p => (lineCode? p).isSome

theorem codes_le_signs (t : Text) : codes t ≤ signs t := by
  refine countP_mono_left fun p _ hcode => ?_
  by_contra hnot
  simp [lineCode?_of_not_mem (by simpa using hnot)] at hcode

theorem codes_eq_signs_iff (t : Text) :
    codes t = signs t ↔ ∀ p ∈ breakPieces t, '=' ∈ p → (lineCode? p).isSome = true := by
  have hcodes : codes t = ((breakPieces t).filter fun p => '=' ∈ p).countP fun p => (lineCode? p).isSome := by
    rw [countP_filter]
    refine countP_congr fun p _ => ?_
    by_cases hp : '=' ∈ p
    · simp [hp]
    · simp [hp, lineCode?_of_not_mem hp]
  rw [hcodes, signs, countP_eq_length_filter (p := fun p => decide ('=' ∈ p)), countP_eq_length]
  simp [and_imp]

theorem signs_eq_zero (h : '=' ∉ t) : signs t = 0 := by
  refine countP_eq_zero.mpr fun p hp => ?_
  simpa using fun hmem => h (mem_of_mem_breakPieces hp hmem)

theorem length_lineText? (t : Text) : (lineText? t).toList.length = min (signs t) 1 := by
  have hsome := isSome_lineText? t
  by_cases h : '=' ∈ t
  · obtain ⟨before, l, r, after, -, -, hpieces, -⟩ := exists_first_piece h
    have hsigns : 0 < signs t := countP_pos_iff.mpr ⟨l ++ '=' :: r, by simp [hpieces], by simp⟩
    rw [Option.length_toList, if_pos (by simpa [h] using hsome)]
    omega
  · rw [Option.length_toList, if_neg (by simpa [h] using hsome), signs_eq_zero h]
    rfl

theorem lineText?_agrees (hused : codes t = signs t) (hone : signs t ≤ 1) :
    (lineText? t).toList.map head? = ((breakPieces t).filterMap lineCode?).map fun e => some e.1 := by
  by_cases h : '=' ∈ t
  · obtain ⟨before, l, r, after, a, b, hpieces, hbefore, hl, ha, rfl⟩ := exists_first_piece h
    -- there is no sign behind the first piece that has one, so there is one entry
    have hafter : ∀ p ∈ after, '=' ∉ p := by
      rw [signs, hpieces, countP_append, countP_cons_of_pos (by simp)] at hone
      have hle := Nat.le_of_succ_le_succ ((Nat.le_add_left _ _).trans hone)
      simpa using countP_eq_zero.mp (Nat.le_zero.mp hle)
    obtain ⟨e, he⟩ := Option.isSome_iff_exists.mp
      ((codes_eq_signs_iff _).mp hused (l ++ '=' :: r) (by simp [hpieces]) (by simp))
    have hnone : ∀ ps : List Text, (∀ p ∈ ps, '=' ∉ p) → ps.filterMap lineCode? = [] := fun ps hps =>
      filterMap_eq_nil_iff.mpr fun p hp => lineCode?_of_not_mem (hps p hp)
    rw [hpieces, filterMap_append, filterMap_cons_some he, hnone before hbefore, hnone after hafter]
    -- what follows the sign in the piece is where the rest of the text begins
    obtain ⟨u, hu, hhead⟩ := of_lineCode? he
    rw [lineText?, splitOnce?_append_sep hl, Option.map_some, Option.some.injEq] at hu
    have hfirst : (trim (r ++ b)).head? = some e.1 := by
      rw [head?_trim, find?_append, ← head?_trim, hu, hhead, Option.some_or]
    rw [lineText?, splitOnce?_append_sep ha, Option.map_some, Option.toList_some, map_singleton, hfirst]
    rfl
  · have hnone : lineText? t = none := by simpa [h] using isSome_lineText? t
    have hcodes : (breakPieces t).filterMap lineCode? = [] :=
      filterMap_eq_nil_iff.mpr fun p hp => lineCode?_of_not_mem fun hmem => h (mem_of_mem_breakPieces hp hmem)
    rw [hnone, hcodes]
    rfl

/-! ### The two readers -/

theorem eq_of_sum_eq {α : Type} {f g : α → Nat} {l : List α} (hle : ∀ x ∈ l, f x ≤ g x)
    (hsum : (l.map f).sum = (l.map g).sum) : ∀ x ∈ l, f x = g x := by
  induction l with
  | nil => simp
  | cons x l ih =>
    have hrest : (l.map f).sum ≤ (l.map g).sum := sum_le_sum fun y hy => hle y (mem_cons_of_mem x hy)
    have hx := hle x mem_cons_self
    rw [map_cons, map_cons, sum_cons, sum_cons] at hsum
    intro y hy
    rcases mem_cons.mp hy with rfl | hy
    · omega
    · exact ih (fun z hz => hle z (mem_cons_of_mem x hz)) (by omega) y hy

/-- Texts that are drawn begin with the characters that have codes, one after another. -/
def Agree (texts : List Text) (es : List (Char × Nat)) : Prop :=
  texts.map head? = es.map fun e => some e.1

/-- Every line with an equals sign gives a code. -/
def AllGiveCodes (src : Text) : Prop := ∀ l ∈ lines src, '=' ∈ l → (lineCode? l).isSome = true

/-- No two lines with an equals sign stand between two line feeds. -/
def Separate (src : Text) : Prop :=
  ∀ u ∈ splitOn '\n' src, ((lines u).filter fun l => '=' ∈ l).length ≤ 1

section

variable (src : Text)

theorem entries_eq :
    entries src = (splitOn '\n' src).flatMap fun u => (breakPieces u).filterMap lineCode? := by
  rw [entries, filterMap_lines rfl, breakPieces_eq_flatMap, filterMap_flatMap]

theorem tableTexts_eq_flatMap :
    tableTexts src = (splitOn '\n' src).flatMap fun u => (lineText? u).toList := by
  rw [tableTexts_eq, filterMap_eq_flatMap_toList]

theorem allGiveCodes_iff : AllGiveCodes src ↔ ∀ u ∈ splitOn '\n' src, codes u = signs u := by
  have hlines : AllGiveCodes src ↔ ∀ l ∈ (breakPieces src).filter fun l => '=' ∈ l, (lineCode? l).isSome = true := by
    rw [← filter_lines (by simp)]
    simp [AllGiveCodes]
  rw [hlines, breakPieces_eq_flatMap]
  simp only [mem_filter, mem_flatMap, decide_eq_true_eq, codes_eq_signs_iff]
  constructor
  · intro h u hu p hp hsign
    exact h p ⟨⟨u, hu, hp⟩, hsign⟩
  · rintro h p ⟨⟨u, hu, hp⟩, hsign⟩
    exact h u hu p hp hsign

theorem separate_iff : Separate src ↔ ∀ u ∈ splitOn '\n' src, min (signs u) 1 = signs u := by
  refine forall₂_congr fun u _ => ?_
  rw [filter_lines (by simp), ← countP_eq_length_filter, min_eq_left_iff]
  rfl

variable {src}

theorem sum_eq_of_agree (h : Agree (tableTexts src) (entries src)) :
    ((splitOn '\n' src).map fun u => min (signs u) 1).sum = ((splitOn '\n' src).map codes).sum := by
  have hlength := congrArg length h
  rw [length_map, length_map, tableTexts_eq_flatMap, entries_eq, length_flatMap, length_flatMap] at hlength
  simp only [length_lineText?, length_filterMap_eq_countP] at hlength
  exact hlength

theorem agree_of_separate (hcodes : AllGiveCodes src) (hseparate : Separate src) :
    Agree (tableTexts src) (entries src) := by
  rw [Agree, tableTexts_eq_flatMap, entries_eq, map_flatMap, map_flatMap]
  refine flatMap_congr fun u hu => lineText?_agrees ((allGiveCodes_iff src).mp hcodes u hu) ?_
  have := (separate_iff src).mp hseparate u hu
  omega

theorem allGiveCodes_of_agree (hseparate : Separate src) (h : Agree (tableTexts src) (entries src)) : AllGiveCodes src := by
  have hsigns := (separate_iff src).mp hseparate
  have hsum := sum_eq_of_agree h
  rw [map_congr_left hsigns] at hsum
  exact (allGiveCodes_iff src).mpr (eq_of_sum_eq (fun u _ => codes_le_signs u) hsum.symm)

theorem separate_of_agree (hcodes : AllGiveCodes src) (h : Agree (tableTexts src) (entries src)) :
    Separate src := by
  have hsigns := (allGiveCodes_iff src).mp hcodes
  have hsum := sum_eq_of_agree h
  rw [map_congr_left hsigns] at hsum
  exact (separate_iff src).mpr (eq_of_sum_eq (fun u _ => Nat.min_le_left _ _) hsum)

end

/-! ### Files -/

theorem decodeLossy_of_decode? {bs : Bytes} (h : Utf16.decode? bs = some t) :
    Utf16.decodeLossy bs = t := by
  fun_induction Utf16.decode? bs generalizing t with
  | case1 =>
    cases h
    rfl
  | case2 => cases h
  | case3 a b rest n hunit =>
    rename_i ih
    obtain ⟨u, hu, rfl⟩ := Option.map_eq_some_iff.mp h
    unfold Utf16.decodeLossy
    exact (if_pos hunit).trans (congrArg _ (ih hu))
  | case4 a b n hunit hhigh c d rest m hlow =>
    rename_i ih
    obtain ⟨u, hu, rfl⟩ := Option.map_eq_some_iff.mp h
    have hpair : (decide (n < 0xDC00) && decide (0xDC00 ≤ m) && decide (m < 0xE000)) = true := by
      simpa [hhigh] using hlow
    exact (if_neg hunit).trans ((if_pos hpair).trans (congrArg _ (ih hu)))
  | case5
  | case6
  | case7 => cases h

/-- **When the two readers of a code table agree.** Take any file with a byte order mark that the
conversion of texts accepts. The font tool reads it as well. If no two lines with an equals sign
stand between two line feeds, then the texts that are drawn begin with the characters that have
codes, in the same order and with nothing else among them, exactly if every line with an equals sign
gives a code. And if every such line gives a code, then they do exactly if no two such lines stand
between two line feeds. -/
theorem loadTexts_agrees {p : Text} {ws ws₁ : Workspace} {bs : Bytes} {table : GlyphTable}
    (hfile : Job.Yields (Job.readBytes p) ws (0xFF :: 0xFE :: bs) ws)
    (hload : Job.Yields (loadTable p) ws table ws₁) :
    ∃ src texts, Job.Yields (Job.readUtf16 p) ws src ws ∧ Job.Yields (loadTexts p) ws texts ws ∧
      (Separate src → (Agree texts (entries src) ↔ AllGiveCodes src)) ∧
      (AllGiveCodes src → (Agree texts (entries src) ↔ Separate src)) := by
  obtain ⟨src, ws₂, hsrc, -⟩ := yields_bind.mp hload
  obtain ⟨t, ws₃, hrequire, hend⟩ := yields_bind.mp (hfile.bind_iff.mp hsrc)
  obtain ⟨ht, hws₃⟩ := yields_require.mp hrequire
  obtain ⟨hunify, hws₂⟩ := yields_pure.mp hend
  rw [← hws₂, hws₃] at hsrc
  have htexts : tableTexts (unifyNewlines (Encoding.Utf16.decodeLossy (0xFF :: 0xFE :: bs))) = tableTexts src := by
    have hmark : Encoding.Utf16.decodeLossy (0xFF :: 0xFE :: bs) = '\uFEFF' :: t := by
      unfold Encoding.Utf16.decodeLossy
      exact (if_pos (by decide)).trans (congrArg _ (decodeLossy_of_decode? ht))
    have hcons : unifyNewlines ('\uFEFF' :: t) = '\uFEFF' :: src := by
      rw [← hunify]
      rfl
    rw [hmark, hcons, tableTexts_cons (by decide) (by decide)]
  refine ⟨src, tableTexts src, hsrc, hfile.bind (.pure htexts), fun hseparate => ?_,
    fun hcodes => ?_⟩
  · exact ⟨allGiveCodes_of_agree hseparate, fun hcodes => agree_of_separate hcodes hseparate⟩
  · exact ⟨separate_of_agree hcodes, agree_of_separate hcodes⟩

def withTable (bs : Bytes) : Workspace where
  cwd := "/w"
  files := [([("w" : Text), ("font.tbl" : Text)], ⟨0xFF :: 0xFE :: bs, 0⟩)]

theorem readBytes_withTable (bs : Bytes) :
    Yields (readBytes "font.tbl") (withTable bs) (0xFF :: 0xFE :: bs) (withTable bs) :=
  yields_readBytes.mpr ⟨_, rfl, rfl, rfl⟩

section

variable {bs : Bytes} {src : Text} (hdecode : Utf16.decode? bs = some src) (hunify : unifyNewlines src = src)

include hdecode hunify

theorem readUtf16_withTable : Yields (readUtf16 "font.tbl") (withTable bs) src (withTable bs) := by
  exact (readBytes_withTable bs).bind (.bind (.require hdecode) (.pure hunify))

theorem loadTable_withTable {table : GlyphTable} (h : readTable src = .ok table) :
    Yields (loadTable "font.tbl") (withTable bs) table (withTable bs) :=
  (readUtf16_withTable hdecode hunify).bind (.ofExcept h)

end

def twoLines : Bytes :=
  [0x34, 0, 0x31, 0, 0x3D, 0, 0x61, 0, 0x0A, 0, 0x34, 0, 0x32, 0, 0x3D, 0, 0x62, 0]

theorem decode?_twoLines : Utf16.decode? twoLines = some "41=a\n42=b" := rfl

/-- A table in which both lines give codes. -/
theorem loadTexts_agrees_twoLines :
    ∃ texts, Job.Yields (loadTexts "font.tbl") (withTable twoLines) texts (withTable twoLines) ∧
      texts.map List.head? = [some 'a', some 'b'] := by
  have htable : readTable "41=a\n42=b" = .ok [('a', ['\x00', 'A']), ('b', ['\x00', 'B'])] := rfl
  obtain ⟨src, texts, hsrc, htexts, hagree, -⟩ :=
    loadTexts_agrees (readBytes_withTable twoLines) (loadTable_withTable decode?_twoLines (by decide) htable)
  have heq : src = "41=a\n42=b" := (hsrc.unique (readUtf16_withTable decode?_twoLines (by decide))).1
  have hseparate : Separate src := by
    rw [heq, Separate]
    decide
  have hcodes : AllGiveCodes src := by
    rw [heq, AllGiveCodes]
    decide
  have hentries : entries "41=a\n42=b" = [('a', 0x41), ('b', 0x42)] := rfl
  have hsame := (hagree hseparate).mpr hcodes
  rw [Agree, heq, hentries] at hsame
  exact ⟨texts, htexts, hsame⟩

def commented : Bytes :=
  [0x3B, 0, 0x34, 0, 0x31, 0, 0x3D, 0, 0x78, 0, 0x0A, 0, 0x34, 0, 0x32, 0, 0x3D, 0, 0x61, 0]

theorem decode?_commented : Utf16.decode? commented = some ";41=x\n42=a" := rfl

/-- **The font tool draws what stands in a comment.** The comment gives no code, so that its tile
takes the place of the first tile that has one. -/
theorem loadTexts_draws_comment :
    Job.Yields (loadTable "font.tbl") (withTable commented) [('a', ['\x00', 'B'])] (withTable commented) ∧
      Job.Yields (Job.readUtf16 "font.tbl") (withTable commented) ";41=x\n42=a" (withTable commented) ∧
      Job.Yields (loadTexts "font.tbl") (withTable commented) [("x" : Text), ("a" : Text)] (withTable commented) ∧
      entries ";41=x\n42=a" = [('a', 0x42)] ∧ ¬ Agree [("x" : Text), ("a" : Text)] [('a', 0x42)] := by
  have htable : readTable ";41=x\n42=a" = .ok [('a', ['\x00', 'B'])] := rfl
  refine ⟨loadTable_withTable decode?_commented (by decide) htable, readUtf16_withTable decode?_commented (by decide), ?_,
    rfl, by simp [Agree]⟩
  refine (readBytes_withTable commented).bind (.pure ?_)
  rfl

end Localizer.Font
