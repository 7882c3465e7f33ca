import Localizer.Credits.Tool
import Localizer.Proofs.Glyph
import Localizer.Proofs.Text.Words

/-!
# Lines of the credits

A placement is read by its words: size, alignment, column and perhaps a row, with any white space
before, between and after them (`placement?_eq_some_iff`). So a line that is written, a text and a
placement with a tab between them, is cut where its text ends, whatever the text looks like
(`readLine?_writtenLine`). The text is then read without white space and double quotes around it.
Which texts come back is said by `readLine?_writtenLines_iff`.
-/

namespace Localizer.Credits

open List Text Glyph Document

variable {t : Text} {p : Placement}
variable {c : Char} {ds rest y u s text context : Text} {ws : List Text} {hasRow : Bool} {v : Json}
  {table : GlyphTable} {line : Text}

/-! ### Placements -/

/-- Decimal digits, at least one. -/
structure IsNumber (t : Text) : Prop where
  ne_nil : t ≠ []
  digits : ∀ c ∈ t, isDecimal c = true

def IsRow (t : Text) : Prop := IsNumber t ∨ ∃ c ds, (c = '+' ∨ c = '-') ∧ IsNumber ds ∧ t = c :: ds

/-- A letter that says how a line is aligned. -/
def IsAlign (c : Char) : Prop := c = 'L' ∨ c = 'R' ∨ c = 'C'

def Placement.words (p : Placement) : List Text := p.size :: [p.align] :: p.x :: p.y?.toList

/-- The words of a placement are what they stand for. -/
structure Placement.Valid (p : Placement) : Prop where
  size : IsNumber p.size
  align : IsAlign p.align
  x : IsNumber p.x
  y : ∀ y ∈ p.y?, IsRow y

theorem IsNumber.isWord (h : IsNumber t) : IsWord t :=
  ⟨h.ne_nil, fun c hc => not_blank_of_isDecimal (h.digits c hc)⟩

theorem IsRow.isWord (h : IsRow t) : IsWord t := by
  rcases h with h | ⟨c, ds, hc, hds, rfl⟩
  · exact h.isWord
  · refine ⟨cons_ne_nil c ds, forall_mem_cons.mpr ⟨?_, hds.isWord.not_blank⟩⟩
    rcases hc with rfl | rfl <;> decide

theorem IsAlign.isWord (h : IsAlign c) : IsWord [c] := by
  refine ⟨cons_ne_nil c [], fun d hd => ?_⟩
  rw [mem_singleton.mp hd]
  rcases h with rfl | rfl | rfl <;> decide

theorem IsAlign.not_isNumber (h : IsAlign c) : ¬ IsNumber [c] := by
  intro hnumber
  have hdigit := hnumber.digits c (mem_singleton_self c)
  rcases h with rfl | rfl | rfl <;> exact absurd hdigit (by decide)

/-! ### Reading words -/

theorem digits?_append (h : IsNumber ds) (hrest : BreaksOff rest) :
    digits? (ds ++ rest) = some (ds, rest) := by
  have hstop : ∀ c, rest.head? = some c → isDecimal c = false := by
    intro c hc
    rw [← Bool.not_eq_true]
    intro hdigit
    have hblank := hrest c hc
    simp [not_blank_of_isDecimal hdigit] at hblank
  have htake := takeWhile_append_eq_left h.digits hstop
  have hdrop : (ds ++ rest).dropWhile isDecimal = rest := by
    rw [dropWhile_append_of_pos h.digits]
    cases rest with
    | nil => rfl
    | cons c rest => exact dropWhile_cons_of_neg (by simp [hstop c rfl])
  rw [digits?, span_eq_takeWhile_dropWhile, htake, hdrop]
  exact if_neg (by simpa using h.ne_nil)

theorem of_digits? (h : digits? t = some (ds, rest)) : t = ds ++ rest ∧ IsNumber ds := by
  rw [digits?, span_eq_takeWhile_dropWhile] at h
  dsimp only at h
  split at h
  · cases h
  · next hne =>
    cases h
    exact ⟨takeWhile_append_dropWhile.symm, by simpa using hne, fun c hc => mem_takeWhile_imp hc⟩

theorem row?_append (h : IsRow y) (hrest : BreaksOff rest) : row? (y ++ rest) = some (y, rest) := by
  rcases h with h | ⟨c, ds, hc, hds, rfl⟩
  · obtain ⟨c, y, rfl⟩ := exists_cons_of_ne_nil h.ne_nil
    have hsign : ¬ ((c = '+' || c = '-') = true) := by
      intro hc
      have hdigit := h.digits c mem_cons_self
      rw [Bool.or_eq_true, decide_eq_true_eq, decide_eq_true_eq] at hc
      rcases hc with rfl | rfl <;> exact absurd hdigit (by decide)
    rw [cons_append, row?, if_neg hsign, ← cons_append, digits?_append h hrest]
  · have hsign : (c = '+' || c = '-') = true := by simpa using hc
    rw [cons_append, row?, if_pos hsign, digits?_append hds hrest]
    rfl

theorem of_row? (h : row? t = some (y, rest)) : t = y ++ rest ∧ IsRow y := by
  cases t with
  | nil => cases h
  | cons c t =>
    rw [row?] at h
    split at h
    · next hc =>
      obtain ⟨⟨ds, rest'⟩, hdigits, hpair⟩ := Option.map_eq_some_iff.mp h
      cases hpair
      obtain ⟨rfl, hds⟩ := of_digits? hdigits
      exact ⟨rfl, .inr ⟨c, ds, by simpa using hc, hds, rfl⟩⟩
    · obtain ⟨ht, hy⟩ := of_digits? h
      exact ⟨ht, .inl hy⟩

theorem afterBlanks?_of_spells {w : Text} (hbreak : BreaksOff t) (h : Spells (w :: ws) t) :
    ∃ rest, afterBlanks? t = some (w ++ rest) ∧ BreaksOff rest ∧ Spells ws rest := by
  cases h with
  | @cons lead w rest ws hlead hw hrest hws =>
    refine ⟨rest, ?_, hrest, hws⟩
    have hhead : ((lead ++ (w ++ rest)).head?.any isBlank) = true := by
      cases hfirst : (lead ++ (w ++ rest)).head? with
      | none =>
        simp [hw.ne_nil] at hfirst
      | some c => exact hbreak c hfirst
    rw [afterBlanks?, if_pos hhead, trimStart_append hlead hw]

theorem of_afterBlanks? (h : afterBlanks? t = some u) :
    BreaksOff t ∧ ∃ lead, Blanks lead ∧ t = lead ++ u := by
  unfold afterBlanks? at h
  split at h
  · next hhead =>
    refine ⟨fun c hc => by simpa [hc] using hhead, t.takeWhile isBlank, fun c hc => mem_takeWhile_imp hc, ?_⟩
    rw [← Option.some.inj h, trimStart, takeWhile_append_dropWhile]
  · cases h

theorem placementStart?_of_spells {size x : Text} {align : Char}
    (h : Spells (size :: [align] :: x :: ws) t) (hsize : IsNumber size) (halign : IsAlign align)
    (hx : IsNumber x) :
    ∃ rest, placementStart? t = some (⟨size, align, x, none⟩, rest) ∧ BreaksOff rest ∧
      Spells ws rest := by
  cases h with
  | @cons lead _ t₁ _ hlead hw hbreak₁ h₁ =>
    obtain ⟨t₂, hafter₁, hbreak₂, h₂⟩ := afterBlanks?_of_spells hbreak₁ h₁
    obtain ⟨t₃, hafter₂, hbreak₃, h₃⟩ := afterBlanks?_of_spells hbreak₂ h₂
    refine ⟨t₃, ?_, hbreak₃, h₃⟩
    have hletter : (align = 'L' || align = 'R' || align = 'C') = true := by simpa [or_assoc, IsAlign] using halign
    simp only [placementStart?, trimStart_append hlead hw, digits?_append hsize hbreak₁, Option.bind_eq_bind,
      Option.bind_some, hafter₁, singleton_append, if_pos hletter, hafter₂, digits?_append hx hbreak₃, Option.pure_def]

theorem of_placementStart? (h : placementStart? t = some (p, rest)) :
    ∃ size align x, p = ⟨size, align, x, none⟩ ∧ IsNumber size ∧ IsAlign align ∧ IsNumber x ∧
      ∀ ws, BreaksOff rest → Spells ws rest → Spells (size :: [align] :: x :: ws) t := by
  obtain ⟨⟨size, t₁⟩, hdigits, h₁⟩ := Option.bind_eq_some_iff.mp h
  obtain ⟨t₂, hafter₁, h₂⟩ := Option.bind_eq_some_iff.mp h₁
  obtain ⟨hstart, hsize⟩ := of_digits? hdigits
  obtain ⟨hbreak₁, lead₁, hlead₁, rfl⟩ := of_afterBlanks? hafter₁
  cases t₂ with
  | nil => cases h₂
  | cons align t₂ =>
    dsimp only at h₂
    split at h₂
    · next hletter =>
      obtain ⟨u, hafter₂, h₃⟩ := Option.bind_eq_some_iff.mp h₂
      obtain ⟨⟨x, t₃⟩, hdigits₂, h₄⟩ := Option.bind_eq_some_iff.mp h₃
      cases h₄
      obtain ⟨hbreak₂, lead₂, hlead₂, rfl⟩ := of_afterBlanks? hafter₂
      obtain ⟨rfl, hx⟩ := of_digits? hdigits₂
      have halign : IsAlign align := by simpa [or_assoc, IsAlign] using hletter
      refine ⟨size, align, x, rfl, hsize, halign, hx, fun ws hbreak hws => ?_⟩
      have hlead : Blanks (t.takeWhile isBlank) := fun c hc => mem_takeWhile_imp hc
      have ht : t = t.takeWhile isBlank ++ (size ++ (lead₁ ++ ([align] ++ (lead₂ ++ (x ++ t₃))))) := by
        conv_lhs => rw [← takeWhile_append_dropWhile (p := isBlank) (l := t)]
        rw [← trimStart, hstart]
        rfl
      rw [ht]
      exact .cons hlead hsize.isWord hbreak₁ (.cons hlead₁ halign.isWord hbreak₂ (.cons hlead₂ hx.isWord hbreak hws))
    · cases h₂

theorem isBlankText_iff : isBlankText t = true ↔ Blanks t := all_eq_true

/-- **A text is a placement exactly if its words are those of one.** -/
theorem placement?_eq_some_iff :
    placement? hasRow t = some p ↔ Spells p.words t ∧ p.Valid ∧ p.y?.isSome = hasRow := by
  constructor
  · intro h
    obtain ⟨⟨q, rest⟩, hstart, h₁⟩ := Option.bind_eq_some_iff.mp h
    obtain ⟨size, align, x, rfl, hsize, halign, hx, hspells⟩ := of_placementStart? hstart
    dsimp only at h₁
    split at h₁
    · next hrow =>
      obtain ⟨u, hafter, h₂⟩ := Option.bind_eq_some_iff.mp h₁
      obtain ⟨⟨y, rest'⟩, hy, h₃⟩ := Option.bind_eq_some_iff.mp h₂
      obtain ⟨hbreak, lead, hlead, hrest⟩ := of_afterBlanks? hafter
      obtain ⟨rfl, hisRow⟩ := of_row? hy
      split at h₃
      · next hblank =>
        cases h₃
        have hblanks := isBlankText_iff.mp hblank
        have hlast : Spells [y] rest := hrest ▸ .cons hlead hisRow.isWord hblanks.breaksOff (.nil hblanks)
        exact ⟨hspells _ hbreak hlast, ⟨hsize, halign, hx, fun y' hy' => Option.mem_some.mp hy' ▸ hisRow⟩, hrow.symm⟩
      · cases h₃
    · next hrow =>
      split at h₁
      · next hblank =>
        cases h₁
        have hblanks := isBlankText_iff.mp hblank
        exact ⟨hspells _ hblanks.breaksOff (.nil hblanks), ⟨hsize, halign, hx, fun y hy => absurd hy (by simp)⟩, by simpa using hrow⟩
      · cases h₁
  · obtain ⟨size, align, x, y?⟩ := p
    rintro ⟨hspells, hvalid, rfl⟩
    obtain ⟨rest, hstart, hbreak, hrest⟩ := placementStart?_of_spells hspells hvalid.size hvalid.align hvalid.x
    cases y? with
    | none =>
      cases hrest with
      | nil hblanks => simp [placement?, hstart, isBlankText_iff.mpr hblanks]
    | some y =>
      obtain ⟨rest', hafter, hbreak', hrest'⟩ := afterBlanks?_of_spells hbreak hrest
      have hrow := row?_append (hvalid.y y rfl) hbreak'
      cases hrest' with
      | nil hblanks => simp [placement?, hstart, hafter, hrow, isBlankText_iff.mpr hblanks]

theorem placement?_eq_some_iff_words :
    placement? hasRow t = some p ↔ words t = p.words ∧ p.Valid ∧ p.y?.isSome = hasRow := by
  rw [placement?_eq_some_iff, words_eq_iff]

theorem Placement.length_words (p : Placement) : p.words.length = if p.y?.isSome then 4 else 3 := by
  unfold words
  cases p.y? <;> rfl

/-! ### Cutting lines -/

section

variable {α : Type} {read? : Text → Option α}

theorem of_cutBefore? {a : α} (h : cutBefore? read? t = some (s, u, a)) :
    t = s ++ u ∧ read? u = some a := by
  induction t generalizing s with
  | nil => cases h
  | cons c t ih =>
    rw [cutBefore?] at h
    split at h
    · next b hb =>
      cases h
      exact ⟨rfl, hb⟩
    · split at h
      · cases h
      · obtain ⟨⟨s', u', b⟩, hcut, hparts⟩ := Option.map_eq_some_iff.mp h
        cases hparts
        obtain ⟨rfl, hb⟩ := ih hcut
        exact ⟨rfl, hb⟩

theorem cutBefore?_append {a : α} (hlf : '\n' ∉ s)
    (hbefore : ∀ x v, s = x ++ v → v ≠ [] → read? (v ++ u) = none) (hne : u ≠ [])
    (hu : read? u = some a) : cutBefore? read? (s ++ u) = some (s, u, a) := by
  induction s with
  | nil =>
    obtain ⟨c, u, rfl⟩ := exists_cons_of_ne_nil hne
    rw [nil_append, cutBefore?, hu]
  | cons c s ih =>
    obtain ⟨hc, hs⟩ := not_or.mp (fun hmem => hlf (mem_cons.mpr hmem))
    have hrest := ih hs fun x v hxv hv => hbefore (c :: x) v (by rw [hxv, cons_append]) hv
    have hhere : read? (c :: (s ++ u)) = none := hbefore [] (c :: s) rfl (cons_ne_nil c s)
    rw [cons_append, cutBefore?, hhere]
    rw [if_neg (Ne.symm hc), hrest]
    rfl

theorem cutBefore?_eq_none (h : ∀ s u, t = s ++ u → read? u = none) : cutBefore? read? t = none := by
  cases hcut : cutBefore? read? t with
  | none => rfl
  | some x =>
    obtain ⟨ht, ha⟩ := of_cutBefore? hcut
    simp [h x.1 x.2.1 ht] at ha

end

/-! ### Lines that are written -/

section

variable (hp : p.Valid) (hcontext : words context = p.words)

include hcontext

theorem words_written (t : Text) : words (t ++ '\t' :: (context ++ "\n")) = words t ++ p.words := by
  have hfeed : Blanks "\n" := fun c hc => mem_singleton.mp hc ▸ by decide
  rw [words_append_blank (by decide), words_append_blanks context hfeed, hcontext]

include hp

theorem placement?_true_eq_none (hrow : p.y? = none) {a b : Text}
    (h : t ++ '\t' :: (context ++ "\n") = a ++ b) : placement? true b = none := by
  cases hplace : placement? true b with
  | none => rfl
  | some q =>
    exfalso
    obtain ⟨hwords, hq, hqrow⟩ := placement?_eq_some_iff_words.mp hplace
    have hlength : q.words.length = 4 := by rw [q.length_words, hqrow]; rfl
    rcases append_eq_append_iff.mp h with ⟨s, rfl, hrest⟩ | ⟨s, rfl, rfl⟩
    · -- the part begins behind the tab: it has three words at most
      have hle := length_words_le s b
      have hall : words ('\t' :: (context ++ "\n")) = p.words := words_written hcontext []
      rw [← hrest, hall, hwords, hlength, p.length_words, hrow] at hle
      exact absurd hle (by decide)
    · -- the part begins in the text: its second word is a number, where an alignment should be
      rw [words_written hcontext] at hwords
      have hone : (words s).length = 1 := by
        have hsum := congrArg length hwords
        rw [length_append, hlength, p.length_words, hrow] at hsum
        simpa using hsum
      obtain ⟨w, hw⟩ := length_eq_one_iff.mp hone
      rw [hw, Placement.words, Placement.words, singleton_append] at hwords
      have hsize : p.size = [q.align] := (cons.inj (cons.inj hwords).2).1
      exact hq.align.not_isNumber (hsize ▸ hp.size)

/-- **Where a line that is written is cut**: behind its text, whatever that is, but for white space
at its end. -/
theorem cutPlacement?_written (hlf : '\n' ∉ t) :
    ∃ s, t = trimEnd t ++ s ∧ Blanks s ∧
      (cutPlacement? true (t ++ '\t' :: (context ++ "\n"))).or (cutPlacement? false (t ++ '\t' :: (context ++ "\n"))) =
        some (trimEnd t, s ++ '\t' :: (context ++ "\n"), p) := by
  obtain ⟨s, ht, hs⟩ := trimEnd_append_dropped t
  refine ⟨s, ht, hs, ?_⟩
  have hcut : cutPlacement? p.y?.isSome (t ++ '\t' :: (context ++ "\n")) =
      some (trimEnd t, s ++ '\t' :: (context ++ "\n"), p) := by
    conv_lhs => rw [ht, append_assoc]
    refine cutBefore?_append (fun hmem => hlf ?_) (fun u v huv hv => ?_) (by simp) ?_
    · rw [ht]
      exact mem_append_left s hmem
    · cases hplace : placement? p.y?.isSome (v ++ (s ++ '\t' :: (context ++ "\n"))) with
      | none => rfl
      | some q =>
        obtain ⟨hwords, -, hqrow⟩ := placement?_eq_some_iff_words.mp hplace
        rw [← append_assoc, words_written hcontext, words_append_blanks v hs] at hwords
        have hsum := congrArg length hwords
        rw [length_append, q.length_words, hqrow, p.length_words] at hsum
        have hnone : words v = [] := eq_nil_of_length_eq_zero (by omega)
        -- the text that is left ends with a character that is not white space
        have hlast : (trimEnd t).getLast? = some (v.getLast hv) := by
          rw [huv, getLast?_append_of_ne_nil u hv, getLast?_eq_some_getLast hv]
        have hblank := words_eq_nil_iff.mp hnone _ (getLast_mem hv)
        simp [getLast?_trimEnd hlast] at hblank
    · refine placement?_eq_some_iff_words.mpr ⟨?_, hp, rfl⟩
      rw [words_written hcontext, words_eq_nil_iff.mpr hs, nil_append]
  cases hrow : p.y? with
  | none =>
    rw [hrow] at hcut
    rwa [cutPlacement?, cutBefore?_eq_none fun a b h => placement?_true_eq_none hp hcontext hrow h, Option.none_or]
  | some y =>
    rw [hrow] at hcut
    have htrue : cutPlacement? true (t ++ '\t' :: (context ++ "\n")) = _ := hcut
    rw [htrue, Option.some_or]

end

theorem unquote_trimEnd (t : Text) : unquote (trimEnd t) = unquote t := by
  rw [unquote, trim_trimEnd, unquote]

theorem unquote_quoted (t : Text) : unquote ('"' :: (t ++ ['"'])) = t := by
  have hlast : ('"' :: (t ++ ['"'])).getLast? = some '"' := by rw [← cons_append, getLast?_concat]
  have htrim : trim ('"' :: (t ++ ['"'])) = '"' :: (t ++ ['"']) := by
    refine trim_eq_self (fun c hc => ?_) (fun c hc => ?_)
    · exact Option.some.inj hc ▸ by decide
    · rw [hlast] at hc
      exact Option.some.inj hc ▸ by decide
  simp [unquote, htrim, hlast]

theorem of_cutLine? (h : cutLine? line = some (text, context, p)) :
    text ≠ [] ∧ trim context = context ∧ p.Valid ∧ words context = p.words := by
  unfold cutLine? at h
  split at h
  · next a b q hparts =>
    split at h
    · cases h
    · next hne =>
      cases h
      obtain ⟨hasRow, hplace⟩ : ∃ hasRow, placement? hasRow b = some p := by
        rcases Option.or_eq_some_iff.mp hparts with hfirst | ⟨-, hsecond⟩
        · exact ⟨true, (of_cutBefore? hfirst).2⟩
        · exact ⟨false, (of_cutBefore? hsecond).2⟩
      obtain ⟨hwords, hvalid, -⟩ := placement?_eq_some_iff_words.mp hplace
      exact ⟨by simpa using hne, trim_trim b, hvalid, by rw [words_trim, hwords]⟩
  · cases h

theorem of_readLine? (h : readLine? line = some (text, context)) :
    text ≠ [] ∧ trim context = context ∧ ∃ p : Placement, p.Valid ∧ words context = p.words := by
  obtain ⟨⟨_, _, p⟩, hcut, hpair⟩ := Option.map_eq_some_iff.mp h
  cases hpair
  obtain ⟨hne, htrim, hp⟩ := of_cutLine? hcut
  exact ⟨hne, htrim, p, hp⟩

/-- **A line that is written is read as its placement and its text**, the latter without white space
and double quotes around it. -/
theorem readLine?_writtenLine (hp : p.Valid) (hcontext : words context = p.words)
    (htrim : trim context = context) (hlf : '\n' ∉ t) :
    readLine? (writtenLine t context) =
      if (unquote t).isEmpty then none else some (unquote t, context) := by
  have hline : writtenLine t context = t ++ '\t' :: (context ++ "\n") := by simp [writtenLine]
  obtain ⟨s, -, hs, hcut⟩ := cutPlacement?_written hp hcontext hlf
  have hrest : trim (s ++ '\t' :: (context ++ "\n")) = context := by
    have hlead : Blanks (s ++ ['\t']) := forall_mem_append.mpr ⟨hs, fun c hc => mem_singleton.mp hc ▸ by decide⟩
    have hfeed : Blanks "\n" := fun c hc => mem_singleton.mp hc ▸ by decide
    have hsplit : s ++ '\t' :: (context ++ "\n") = (s ++ ['\t']) ++ (context ++ "\n") := by simp
    rw [hsplit, trim_blanks_append hlead, trim_append_of_forall hfeed, htrim]
  rw [readLine?, cutLine?, hline, hcut]
  dsimp only
  rw [unquote_trimEnd, hrest]
  split
  · rfl
  · rfl

/-! ### Items that are written -/

/-- An item with a text and its placement, and without a translation. -/
structure Untranslated (text context : Text) (v : Json) : Prop where
  original : field "original" .null v = .ok (.str text)
  context : field "context" .null v = .ok (.str context)
  translation : ∃ w, field "translation" .null v = .ok w ∧ w.truthy = false

theorem Untranslated.itemParts_eq (h : Untranslated text context v) :
    itemParts v = .ok (writtenText text, trim context) := by
  obtain ⟨w, hw, hfalse⟩ := h.translation
  have horElse : orElse w (.str text) = .str text := if_neg (by simp [hfalse])
  simp only [itemParts, hw, h.original, h.context, horElse, bind, Except.bind, pure, Except.pure]
  rfl

theorem writtenText_of_oneLine (hcr : '\r' ∉ text) (hlf : '\n' ∉ text) :
    writtenText text = if ' ' ∈ text then '"' :: (text ++ ['"']) else text := by
  have hfilter : (text.filter fun c => c ≠ '\r' && c ≠ '\n') = text := by
    refine filter_eq_self.mpr fun c hc => ?_
    have hne : c ≠ '\r' ∧ c ≠ '\n' := ⟨fun h => hcr (h ▸ hc), fun h => hlf (h ▸ hc)⟩
    simpa using hne
  rw [writtenText, hfilter]
  simp

theorem unquote_writtenText_iff (hcr : '\r' ∉ text) (hlf : '\n' ∉ text) :
    unquote (writtenText text) = text ↔ ' ' ∈ text ∨ unquote text = text := by
  rw [writtenText_of_oneLine hcr hlf]
  by_cases hspace : ' ' ∈ text
  · rw [if_pos hspace, unquote_quoted]
    simp [hspace]
  · simp [hspace]

theorem text_writtenText (hcr : '\r' ∉ text) (hlf : '\n' ∉ text)
    (h : Converter.text ⟨defaultRules, table⟩ text = text) :
    Converter.text ⟨defaultRules, table⟩ (writtenText text) = writtenText text := by
  rw [writtenText_of_oneLine hcr hlf]
  split
  · rw [text_eq_flatMap] at h ⊢
    rw [flatMap_cons, flatMap_append, h, flatMap_singleton, converted_quote, singleton_append]
  · exact h

theorem yields_writtenLines {src : Text} (hcr : '\r' ∉ text)
    (hlf : '\n' ∉ text) (htable : readTable src = .ok table)
    (hconv : Converter.text ⟨defaultRules, table⟩ text = text) (hv : Untranslated text context v)
    (ws : Workspace) :
    Job.Yields (writtenLines ⟨defaultRules, table⟩ [v]) ws (writtenLine (writtenText text) (trim context)) ws := by
  have hparts : Job.Yields (Job.ofExcept (itemParts v)) ws (writtenText text, trim context) ws :=
    .ofExcept hv.itemParts_eq
  have hrun := (drawsAll_of_readTable htable).yields_run (text_writtenText hcr hlf hconv) ws
  refine hparts.bind (hrun.bind ?_)
  exact .bind (.pure rfl) (.pure (append_nil _))

/-- **When a line of the credits comes back.** Take any line that is read as a text and a placement,
the text being on one line, any glyph table that leaves the text as it is, and any item with this
text and this placement that is not translated. One line is written for the item; it is read as the
same text and placement exactly if the text has a space, so that it is written in double quotes, or
has neither white space nor double quotes around it. -/
theorem readLine?_writtenLines_iff {line text context src : Text} {table : GlyphTable} {v : Json}
    (hread : readLine? line = some (text, context)) (hcr : '\r' ∉ text) (hlf : '\n' ∉ text)
    (htable : Glyph.readTable src = .ok table)
    (hconv : Glyph.Converter.text ⟨Glyph.defaultRules, table⟩ text = text)
    (hv : Untranslated text context v) (ws : Workspace) :
    ∃ out, Job.Yields (writtenLines ⟨Glyph.defaultRules, table⟩ [v]) ws out ws ∧
      (readLine? out = some (text, context) ↔ ' ' ∈ text ∨ unquote text = text) := by
  obtain ⟨hne, htrim, p, hp, hcontext⟩ := of_readLine? hread
  refine ⟨_, yields_writtenLines hcr hlf htable hconv hv ws, ?_⟩
  have hlf' : '\n' ∉ writtenText text := by
    rw [writtenText_of_oneLine hcr hlf]
    split
    · simp [hlf]
    · exact hlf
  rw [htrim, readLine?_writtenLine hp hcontext htrim hlf', ← unquote_writtenText_iff hcr hlf]
  split
  · next hempty =>
    rw [List.isEmpty_iff.mp hempty]
    simp [Ne.symm hne]
  · simp

def lineItem (text context : Text) : Json :=
  item [("key", .str "1"), ("original", .str text), ("translation", .str []), ("context", .str context),
    ("stage", .int 0)]

theorem untranslated_lineItem (text context : Text) :
    Untranslated text context (lineItem text context) :=
  ⟨rfl, rfl, .str [], rfl, rfl⟩

/-- A text that looks like a placement at its end, and its placement. -/
def duet : Text × Text := ("Duet 24 L 3", "24 C 320 +40")

def bareDesk : Workspace where
  cwd := "/"

/-- A text with spaces comes back, whatever its end looks like. -/
theorem readLine?_writtenLines_iff_duet :
    readLine? "  Duet 24 L 3  24 C 320 +40 " = some duet ∧
      ∃ out, Job.Yields (writtenLines ⟨Glyph.defaultRules, []⟩ [lineItem duet.1 duet.2]) bareDesk out bareDesk ∧
        readLine? out = some duet := by
  have hread : readLine? "  Duet 24 L 3  24 C 320 +40 " = some (duet.1, duet.2) := by decide
  have htable : Glyph.readTable [] = .ok [] := rfl
  have hconv : Glyph.Converter.text ⟨Glyph.defaultRules, []⟩ duet.1 = duet.1 := by decide
  obtain ⟨out, hout, hiff⟩ := readLine?_writtenLines_iff hread (by decide) (by decide) htable hconv
    (untranslated_lineItem duet.1 duet.2) bareDesk
  exact ⟨hread, out, hout, hiff.mpr (.inl (by decide))⟩

/-- A text that begins with a tab, and its placement. -/
def indented : Text × Text := ("\tabc", "12 L 3")

/-- **A tab at the start of a text is lost.** The double quotes around the text have kept it, and
they are not written again. -/
theorem readLine?_writtenLine_indented :
    readLine? "\"\tabc\" 12 L 3" = some indented ∧
      Glyph.Converter.text ⟨Glyph.defaultRules, []⟩ indented.1 = indented.1 ∧
      Job.Yields (writtenLines ⟨Glyph.defaultRules, []⟩ [lineItem indented.1 indented.2]) bareDesk "\tabc\t12 L 3\n" bareDesk ∧
      readLine? "\tabc\t12 L 3\n" = some (("abc" : Text), indented.2) := by
  have htable : Glyph.readTable [] = .ok [] := rfl
  have hconv : Glyph.Converter.text ⟨Glyph.defaultRules, []⟩ indented.1 = indented.1 := by decide
  have hline : writtenLine (writtenText indented.1) (trim indented.2) = "\tabc\t12 L 3\n" := by decide
  refine ⟨by decide, hconv, ?_, by decide⟩
  exact yields_writtenLines (by decide) (by decide) htable hconv (untranslated_lineItem _ _) bareDesk

/-! ## Lines on the roll

A line is read for translation and read for the roll. The roll passes over white space before the
text first, and takes what it can read after as much of that as can be. But white space before a
line makes no difference to the text and the placement that are found
(`shownPart_cutPlacement?_cons`), so both see the same (`shownLine?_eq_cutLine?`). -/

variable {last : Int}

/-! ### White space before a line -/

/-- What is shown of a line that is cut: its text without white space and double quotes around it,
and its placement. -/
def shownPart (x : Text × Text × Placement) : Text × Placement := (unquote x.1, x.2.2)

theorem placement?_blank_cons (hc : isBlank c = true) (t : Text) :
    placement? hasRow (c :: t) = placement? hasRow t := by
  rw [placement?, placement?, placementStart?, placementStart?, trimStart, dropWhile_cons_of_pos hc, ← trimStart]

theorem unquote_blank_cons (hc : isBlank c = true) (t : Text) : unquote (c :: t) = unquote t := by
  have htrim : trim (c :: t) = trim t := trim_blanks_append (s := [c]) (fun d hd => mem_singleton.mp hd ▸ hc) t
  rw [unquote, htrim, unquote]

theorem shownPart_cutPlacement?_cons (hc : isBlank c = true) (hlf : c ≠ '\n') (t : Text) :
    (cutPlacement? hasRow (c :: t)).map shownPart = (cutPlacement? hasRow t).map shownPart := by
  rw [cutPlacement?, cutBefore?, placement?_blank_cons hc]
  cases hplace : placement? hasRow t with
  | some p =>
    cases t with
    | nil => cases hplace
    | cons d t => rw [cutPlacement?, cutBefore?, hplace]; rfl
  | none =>
    rw [if_neg hlf, Option.map_map, cutPlacement?]
    exact Option.map_congr fun x _ => congrArg (·, x.2.2) (unquote_blank_cons hc x.1)

theorem shownPart_pastBlanks? (h : '\n' ∉ line) :
    (pastBlanks? (cutPlacement? hasRow) line).map shownPart =
      (cutPlacement? hasRow line).map shownPart := by
  induction line with
  | nil => rfl
  | cons c t ih =>
    rw [mem_cons, not_or] at h
    rw [pastBlanks?]
    split
    · next hc => rw [Option.map_or, ih h.2, shownPart_cutPlacement?_cons hc (Ne.symm h.1), Option.or_self]
    · rfl

theorem cutLine?_eq (line : Text) : (cutLine? line).map (fun x => (x.1, x.2.2)) =
    (((cutPlacement? true line).or (cutPlacement? false line)).map shownPart).filter fun x => !x.1.isEmpty := by
  unfold cutLine?
  cases (cutPlacement? true line).or (cutPlacement? false line) with
  | none => rfl
  | some x => cases h : (unquote x.1).isEmpty <;> simp [h, shownPart, Option.filter_some]

theorem shownLine?_eq (line : Text) : shownLine? line =
    (((pastBlanks? (cutPlacement? true) line).or (pastBlanks? (cutPlacement? false) line)).map shownPart).filter
      fun x => !x.1.isEmpty := by
  unfold shownLine?
  cases (pastBlanks? (cutPlacement? true) line).or (pastBlanks? (cutPlacement? false) line) with
  | none => rfl
  | some x => cases h : (unquote x.1).isEmpty <;> simp [h, shownPart, Option.filter_some]

/-- **A line shows what is read of it.** -/
theorem shownLine?_eq_cutLine? (h : '\n' ∉ line) :
    shownLine? line = (cutLine? line).map fun x => (x.1, x.2.2) := by
  rw [cutLine?_eq, shownLine?_eq, Option.map_or, Option.map_or, shownPart_pastBlanks? h, shownPart_pastBlanks? h]

/-! ### Placements that are not too long -/

/-- A word without more digits than are read as a number. -/
def IsShort (w : Text) : Prop := (w.filter isDecimal).length ≤ maxDecimalDigits

theorem IsNumber.isSome_readDecimal? (h : IsNumber t) (hshort : IsShort t) :
    (readDecimal? t).isSome = true := by
  rw [IsShort, filter_eq_self.mpr h.digits] at hshort
  exact (isSome_readDecimal?_iff h.ne_nil fun c hc => .inl (h.digits c hc)).mpr ⟨h.digits, hshort⟩

theorem IsRow.isSome_readDecimal? (h : IsRow t) (hshort : IsShort t) :
    (readDecimal? t).isSome = true := by
  rcases h with h | ⟨c, ds, hc, hds, rfl⟩
  · exact h.isSome_readDecimal? hshort
  · rw [isSome_readDecimal?_sign hc hds.digits]
    exact hds.isSome_readDecimal? (((sublist_cons_self c ds).filter _).length_le.trans hshort)

theorem number_eq (h : (readDecimal? t).isSome = true) : ∃ n, number t = .ok n := by
  obtain ⟨n, hn⟩ := Option.isSome_iff_exists.mp h
  exact ⟨n, by rw [number, hn]; rfl⟩

theorem Placement.Valid.placeLine_eq (hp : p.Valid) (hshort : ∀ w ∈ p.words, IsShort w) (last : Int)
    (text : Text) : ∃ item, placeLine last text p = .ok item ∧ item.text = text := by
  obtain ⟨size, align, x, y?⟩ := p
  simp only [Placement.words, forall_mem_cons] at hshort
  obtain ⟨hsize, -, hx, hy⟩ := hshort
  obtain ⟨n, hn⟩ := number_eq (hp.size.isSome_readDecimal? hsize)
  obtain ⟨m, hm⟩ := number_eq (hp.x.isSome_readDecimal? hx)
  cases y? with
  | none => exact ⟨⟨last, text, n, align, m⟩, by simp [placeLine, hn, hm, bind, Except.bind, pure, Except.pure], rfl⟩
  | some y =>
    obtain ⟨k, hk⟩ := number_eq ((hp.y y rfl).isSome_readDecimal? (hy y (by simp)))
    simp [placeLine, hn, hm, hk, bind, Except.bind, pure, Except.pure]

/-! ## The roll -/

/-- The line adds an item to the roll, after a line in the row `last`. -/
def Adds (last : Int) (line : Text) (item : RollLine) : Prop :=
  ∀ ls, rollFrom true last (line :: ls) = (rollFrom true item.y ls).map (item :: ·)

/-- **A line is read exactly if it adds an item to the roll**, both with the same text, and the
words of what is read as its context are those of the placement on the roll. Otherwise the roll
passes over the line. -/
theorem readLine?_isSome_iff_adds (hlf : '\n' ∉ line) (hidle : isIdle line = false) (hsection : sectionNumber? line = none)
    (hshort : ∀ text context, readLine? line = some (text, context) → ∀ w ∈ words context, IsShort w) (last : Int) :
    ((readLine? line).isSome ↔ ∃ item, Adds last line item) ∧
      (readLine? line = none → ∀ ls, rollFrom true last (line :: ls) = rollFrom true last ls) ∧
      ∀ text context item, readLine? line = some (text, context) → Adds last line item →
        item.text = text ∧ ∃ p, shownLine? line = some (text, p) ∧ words context = p.words ∧
          placeLine last text p = .ok item := by
  have hshown := shownLine?_eq_cutLine? hlf
  cases hcut : cutLine? line with
  | none =>
    have hread : readLine? line = none := by rw [readLine?, hcut]; rfl
    rw [hcut, Option.map_none] at hshown
    have hroll (ls : List Text) : rollFrom true last (line :: ls) = rollFrom true last ls := by
      rw [rollFrom, hsection]
      simp [hidle, hshown]
    rw [hread]
    refine ⟨⟨fun h => (by cases h), fun h => ?_⟩, fun _ => hroll, fun _ _ _ h => (by cases h)⟩
    obtain ⟨item, hitem⟩ := h
    cases (hroll []).symm.trans (hitem [])
  | some x =>
    obtain ⟨text, context, p⟩ := x
    have hread : readLine? line = some (text, context) := by rw [readLine?, hcut]; rfl
    obtain ⟨-, -, hp, hwords⟩ := of_cutLine? hcut
    obtain ⟨item, hplace, htext⟩ := hp.placeLine_eq (hwords ▸ hshort text context hread) last text
    rw [hcut, Option.map_some] at hshown
    have hadds : Adds last line item := fun ls => by
      rw [rollFrom, hsection]
      simp only [hidle, hshown, hplace]
      rfl
    rw [hread]
    refine ⟨⟨fun _ => ⟨item, hadds⟩, fun _ => rfl⟩, fun h => (by cases h), fun text' context' item' h hitem => ?_⟩
    obtain ⟨rfl, rfl⟩ := Prod.mk.inj (Option.some.inj h)
    obtain rfl : item = item' := (List.cons.inj (Except.ok.inj ((hadds []).symm.trans (hitem [])))).1
    exact ⟨htext, p, hshown, hwords, hplace⟩

/-- A text that ends like a placement. -/
def duetLine : Text := "  Duet 24 L 3  24 C 320 +40 "

theorem readLine?_duetLine :
    readLine? duetLine = some ("Duet 24 L 3".toList, "24 C 320 +40".toList) := by decide

theorem adds_duetLine : ∃ item, Adds 100 duetLine item ∧ item.text = "Duet 24 L 3" := by
  have hshort : ∀ text context, readLine? duetLine = some (text, context) → ∀ w ∈ words context, IsShort w := by
    intro text context h w hw
    obtain ⟨-, rfl⟩ := Prod.mk.inj (Option.some.inj (readLine?_duetLine.symm.trans h))
    have hall : ∀ w ∈ words "24 C 320 +40".toList, (w.filter isDecimal).length ≤ maxDecimalDigits := by decide
    exact hall w hw
  obtain ⟨hiff, -, hsame⟩ := @readLine?_isSome_iff_adds duetLine (by decide) (by decide) (by decide) hshort 100
  obtain ⟨item, hitem⟩ := hiff.mp (by rw [readLine?_duetLine]; rfl)
  exact ⟨item, hitem, (hsame _ _ item readLine?_duetLine hitem).1⟩

end Localizer.Credits
