import Localizer.Proofs.Assoc
import Localizer.Proofs.Text.Words
import Localizer.Resource.Literal

/-!
# Interpolated strings taken apart

A string is given by its outline, the characters of its literals with nothing in the place of each
expression, and its expressions. As it is written, the braces of literals are doubled (`written`).
Taking it apart first puts marks in their place (`marked`), then looks for expressions, and puts the
doubled braces back. A string is read as it is meant unless one of three forms occurs in its outline
(`misreadForms`). A closing brace behind an expression is paired with the brace that closes the
expression. Two letters between braces make a mark together with the ends of the marks around them.
-/

namespace Localizer.Resource

open List hiding replace
open Text

variable {w e s : Text} {c : Char} {P : Text → Prop}

/-! ### Names -/

theorem wordRuns_eq_singleton (hne : w ≠ []) (h : ∀ c ∈ w, isWordChar c = true) :
    wordRuns w = [w] := by
  refine (congrArg (filter _) (?_ : _ = [w])).trans (by simpa using hne)
  clear hne
  induction w with
  | nil => rfl
  | cons c w ih =>
    obtain ⟨hc, hw⟩ := forall_mem_cons.mp h
    rw [foldr_cons, ih hw, hc]
    rfl

theorem nameOf_word (hc : isBasicLetter c = true)
    (h : ∀ d ∈ w, isBasicLetter d = true ∨ isBasicDigit d = true) : nameOf (c :: w) = c :: w := by
  have hword : ∀ d ∈ c :: w, isWordChar d = true :=
    forall_mem_cons.mpr ⟨isWordChar_of_basic (.inl hc), fun d hd => isWordChar_of_basic (h d hd)⟩
  rw [nameOf, identifiers, wordRuns_eq_singleton (cons_ne_nil c w) hword]
  simp [hc]

theorem mem_of_mem_wordRuns {t : Text} (hw : w ∈ wordRuns t) (hc : c ∈ w) : c ∈ t := by
  replace hw := (mem_filter.mp hw).1
  induction t generalizing w with
  | nil => rwa [mem_singleton.mp hw] at hc
  | cons d t ih =>
    rw [foldr_cons] at hw
    split at hw
    · rcases mem_cons.mp hw with rfl | hw
      · cases hc
      · exact mem_cons_of_mem d (ih hc hw)
    · split at hw
      · exact mem_cons.mpr (.inl (mem_singleton.mp (mem_singleton.mp hw ▸ hc)))
      · next p ps hps =>
        rw [hps] at ih
        rcases mem_cons.mp hw with rfl | hw
        · rcases mem_cons.mp hc with rfl | hc
          · exact mem_cons_self
          · exact mem_cons_of_mem d (ih hc mem_cons_self)
        · exact mem_cons_of_mem d (ih hc (mem_cons_of_mem p hw))

theorem mem_of_mem_nameOf (h : c ∈ nameOf e) : c ∈ "arg".toList ∨ c ∈ e := by
  have hids : ∀ w ∈ (identifiers e).reverse, c ∈ w → c ∈ e := fun w hw hc =>
    mem_of_mem_wordRuns (mem_filter.mp (mem_reverse.mp hw)).1 hc
  unfold nameOf at h
  split at h
  · exact .inl h
  · next last hlast => exact .inr (hids last (by rw [hlast]; simp) h)
  · next last owner rest hlast =>
    have hboth := hids owner (by rw [hlast]; simp)
    have hlast' := hids last (by rw [hlast]; simp)
    split at h
    · exact .inr ((mem_append.mp h).elim hboth hlast')
    · exact .inr (hlast' h)

theorem mem_of_mem_freshName {used : List (Text × Nat)} {base : Text}
    (h : c ∈ (freshName used base).1) : c ∈ base ∨ ∃ n, c ∈ decimal n := by
  unfold freshName at h
  split at h
  · next n _ => exact (mem_append.mp h).imp_right fun hc => ⟨n + 1, hc⟩
  · exact .inl h

theorem zero_not_mem_freshName (h : '\x00' ∉ e) (used : List (Text × Nat)) :
    '\x00' ∉ (freshName used (nameOf e)).1 := by
  intro hm
  rcases mem_of_mem_freshName hm with hm | ⟨n, hn⟩
  · exact (mem_of_mem_nameOf hm).elim (by decide) h
  · obtain ⟨d, hd, hc⟩ := mem_toDigits (by decide) hn
    have hdigit : ∀ d < 10, Nat.digitChar d ≠ '\x00' := by decide
    exact hdigit d hd hc.symm

/-! ### How strings are written -/

/-- A character of a literal, where braces are written in forms of their own. -/
def spellChar (left right : Text) (c : Char) : Text :=
  if c = '\x7b' then left else if c = '\x7d' then right else [c]

/-- How an interpolated string is written. Its outline has the characters of its literals, and
nothing for each of its expressions. -/
def spell (left right : Text) : List (Option Char) → List Text → Text
  | [], _ => []
  | some c :: os, es => spellChar left right c ++ spell left right os es
  | none :: os, es => inBraces (es.headD []) ++ spell left right os es.tail

/-- A string with the braces of its literals doubled. -/
def written (os : List (Option Char)) (es : List Text) : Text :=
  spell ['\x7b', '\x7b'] ['\x7d', '\x7d'] os es

/-- A string with the braces of its literals set aside. -/
def marked (os : List (Option Char)) (es : List Text) : Text := spell openMark closeMark os es

section

variable {os : List (Option Char)} {es : List Text} {t : Text}

theorem written_some :
    written (some c :: os) es = spellChar ['\x7b', '\x7b'] ['\x7d', '\x7d'] c ++ written os es :=
  rfl

theorem written_none : written (none :: os) es = inBraces (es.headD []) ++ written os es.tail := rfl

theorem marked_some : marked (some c :: os) es = spellChar openMark closeMark c ++ marked os es := rfl

theorem marked_none : marked (none :: os) es = inBraces (es.headD []) ++ marked os es.tail := rfl

theorem forall_tail (h : ∀ e ∈ es, P e) : ∀ e ∈ es.tail, P e := fun e he => h e (mem_of_mem_tail he)

theorem headD_of_forall (hnil : P []) (h : ∀ e ∈ es, P e) : P (es.headD []) := by
  cases es with
  | nil => exact hnil
  | cons e es => exact h e mem_cons_self

theorem zero_not_mem_inBraces (h : ∀ e ∈ es, '\x00' ∉ e) : '\x00' ∉ inBraces (es.headD []) := by
  simpa [inBraces] using headD_of_forall not_mem_nil h

/-! ### Braces set aside -/

theorem setAside_char (c : Char) (t : Text) :
    setAside (spellChar ['\x7b', '\x7b'] ['\x7d', '\x7d'] c ++ t) =
      spellChar openMark closeMark c ++ setAside t := by
  unfold setAside spellChar
  split_ifs with hopen hclose
  · rw [replace_found, replace_quiet (by decide)]
  · rw [replace_quiet (by decide), replace_found]
  · rw [replace_quiet (by simpa using Ne.symm hopen), replace_quiet (by simpa using Ne.symm hclose)]

theorem setAside_hole (hopen : '\x7b' ∉ e) (hclose : '\x7d' ∉ e) (t : Text) :
    setAside (inBraces e ++ t) =
      '\x7b' :: (e ++ replace ['\x7d', '\x7d'] closeMark ('\x7d' :: replace ['\x7b', '\x7b'] openMark t)) := by
  have hhead : (e ++ '\x7d' :: t).head? ≠ some '\x7b' := by
    rw [head?_append, Ne, Option.or_eq_some_iff, not_or]
    exact ⟨fun hc => hopen (mem_of_head? hc), by simp⟩
  rw [setAside, inBraces, cons_append, cons_append, append_assoc, singleton_append, replace_pair_step fun _ => hhead,
    replace_quiet hopen, replace_pair_step (by simp), replace_pair_step (by simp), replace_quiet hclose]

theorem setAside_hole_append (hopen : '\x7b' ∉ e) (hclose : '\x7d' ∉ e) (ht : t.head? ≠ some '\x7d') :
    setAside (inBraces e ++ t) = inBraces e ++ setAside t := by
  have hhead : (replace ['\x7b', '\x7b'] openMark t).head? ≠ some '\x7d' := by
    cases t with
    | nil => exact nofun
    | cons c t =>
      rw [replace, replaceFrom]
      split_ifs
      · simp [openMark]
      · exact ht
  rw [setAside_hole hopen hclose, replace_pair_step fun _ => hhead, inBraces, setAside]
  simp

theorem head?_written (h : os.head? ≠ some (some '\x7d')) : (written os es).head? ≠ some '\x7d' := by
  cases os with
  | nil => exact nofun
  | cons o os =>
    cases o with
    | none => simp [written, spell, inBraces]
    | some c =>
      have hclose : c ≠ '\x7d' := fun hc => h (by rw [hc]; rfl)
      rw [written, spell, spellChar, if_neg hclose]
      split_ifs <;> simp [hclose]

theorem setAside_written (h : ∀ e ∈ es, '\x7b' ∉ e ∧ '\x7d' ∉ e)
    (hos : ¬ [none, some '\x7d'] <:+: os) : setAside (written os es) = marked os es := by
  induction os generalizing es with
  | nil => rfl
  | cons o os ih =>
    rw [infix_cons_iff, not_or] at hos
    cases o with
    | some c => rw [written_some, marked_some, setAside_char, ih h hos.2]
    | none =>
      obtain ⟨hopen, hclose⟩ : '\x7b' ∉ es.headD [] ∧ '\x7d' ∉ es.headD [] :=
        headD_of_forall ⟨not_mem_nil, not_mem_nil⟩ h
      have hhead : os.head? ≠ some (some '\x7d') := fun hc => hos.1 (by
        obtain ⟨os', rfl⟩ := head?_eq_some_iff.mp hc
        exact prefix_append ..)
      rw [written_none, marked_none, setAside_hole_append hopen hclose (head?_written hhead), ih (forall_tail h) hos.2]

/-! ### Braces put back -/

theorem exists_of_cons_prefix_marked {u : Text} (hc : c ∉ ['\x00', '\x7b'])
    (h : c :: u <+: marked os es) : ∃ os', os = some c :: os' ∧ u <+: marked os' es := by
  simp only [mem_cons, not_mem_nil, or_false, not_or] at hc
  cases os with
  | nil => simp [marked, spell] at h
  | cons o os =>
    cases o with
    | none => exact absurd (cons_prefix_cons.mp h).1 hc.2
    | some d =>
      rw [marked_some, spellChar] at h
      split_ifs at h with hopen hclose
      · exact absurd (cons_prefix_cons.mp h).1 hc.1
      · exact absurd (cons_prefix_cons.mp h).1 hc.1
      · obtain ⟨rfl, hu⟩ := cons_prefix_cons.mp h
        exact ⟨os, rfl, hu⟩

theorem prefix_marked_iff (hzero : some '\x00' ∉ os) :
    ['L', 'B', '\x00'] <+: marked os es ↔
      ∃ c ∈ ['\x7b', '\x7d'], [some 'L', some 'B', some c] <+: os := by
  constructor
  · intro h
    obtain ⟨os, rfl, hletter⟩ := exists_of_cons_prefix_marked (by decide) h
    obtain ⟨os, rfl, hlast⟩ := exists_of_cons_prefix_marked (by decide) hletter
    cases os with
    | nil => simp [marked, spell] at hlast
    | cons o os =>
      cases o with
      | none => exact absurd (cons_prefix_cons.mp hlast).1 (by decide)
      | some d =>
        rw [marked_some, spellChar] at hlast
        split_ifs at hlast with hopen hclose
        · exact ⟨d, by simp [hopen], by simp⟩
        · exact ⟨d, by simp [hclose], by simp⟩
        · exact absurd (by rw [(cons_prefix_cons.mp hlast).1]; simp) hzero
  · rintro ⟨c, hc, os, rfl⟩
    simp only [mem_cons, not_mem_nil, or_false] at hc
    rcases hc with rfl | rfl
    · exact ⟨'L' :: 'B' :: '\x00' :: marked os es, rfl⟩
    · exact ⟨'R' :: 'B' :: '\x00' :: marked os es, rfl⟩

theorem putBack_quiet (h : '\x00' ∉ s) (t : Text) : putBack (s ++ t) = s ++ putBack t := by
  rw [putBack, openMark, closeMark, replace_quiet h, replace_quiet h]
  rfl

theorem putBack_char (hc : c ≠ '\x00') (ht : c = '\x7d' → ¬ ['L', 'B', '\x00'] <+: t) :
    putBack (spellChar openMark closeMark c ++ t) =
      spellChar ['\x7b', '\x7b'] ['\x7d', '\x7d'] c ++ putBack t := by
  unfold spellChar
  split_ifs with hopen hclose
  · rfl
  · -- Opening marks are looked for first, and the end of this mark may begin one.
    have hfirst : replace openMark ['\x7b', '\x7b'] (closeMark ++ t) =
        closeMark ++ replace openMark ['\x7b', '\x7b'] t := by
      have hmark (u : Text) : closeMark ++ u = '\x00' :: (['R', 'B'] ++ '\x00' :: u) := rfl
      rw [hmark, hmark, openMark, replace_step (by simp), replace_quiet (by decide),
        replace_step fun hpre => ht hclose (cons_prefix_cons.mp hpre).2]
    rw [putBack, hfirst, closeMark, replace_found]
    rfl
  · exact putBack_quiet (by simpa using hc.symm) t

theorem putBack_marked (h : ∀ e ∈ es, '\x00' ∉ e) (hzero : some '\x00' ∉ os)
    (hos : ∀ c ∈ ['\x7b', '\x7d'], ¬ [some '\x7d', some 'L', some 'B', some c] <:+: os) :
    putBack (marked os es) = written os es := by
  induction os generalizing es with
  | nil => rfl
  | cons o os ih =>
    rw [mem_cons, not_or] at hzero
    simp only [infix_cons_iff, not_or] at hos
    have hrest : ∀ c ∈ ['\x7b', '\x7d'], ¬ [some '\x7d', some 'L', some 'B', some c] <:+: os := fun c hc => (hos c hc).2
    cases o with
    | none =>
      rw [marked_none, written_none, putBack_quiet (zero_not_mem_inBraces h), ih (forall_tail h) hzero.2 hrest]
    | some c =>
      rw [marked_some, written_some, putBack_char, ih h hzero.2 hrest]
      · exact fun hc => hzero.1 (congrArg some hc.symm)
      · rintro rfl hpre
        obtain ⟨c, hc, hpre⟩ := (prefix_marked_iff hzero.2).mp hpre
        exact (hos c hc).1 (cons_prefix_cons.mpr ⟨rfl, hpre⟩)

theorem zero_mem_putBack (h : ∀ e ∈ es, '\x00' ∉ e) (hzero : some '\x00' ∉ os)
    (hos : ∃ c ∈ ['\x7b', '\x7d'], [some '\x7d', some 'L', some 'B', some c] <:+: os) :
    '\x00' ∈ putBack (marked os es) := by
  obtain ⟨b, hb, hos⟩ := hos
  induction os generalizing es with
  | nil => simp at hos
  | cons o os ih =>
    rw [mem_cons, not_or] at hzero
    cases o with
    | none =>
      have hrest := (infix_cons_iff.mp hos).resolve_left fun hpre => by simp at hpre
      rw [marked_none, putBack_quiet (zero_not_mem_inBraces h)]
      exact mem_append_right _ (ih (forall_tail h) hzero.2 hrest)
    | some c =>
      by_cases hpre : c = '\x7d' ∧ ['L', 'B', '\x00'] <+: marked os es
      · obtain ⟨rfl, u, hu⟩ := hpre
        have hmark : marked (some '\x7d' :: os) es = '\x00' :: (['R', 'B'] ++ ('\x00' :: ['L', 'B', '\x00'] ++ u)) := by
          rw [marked_some, ← hu]
          rfl
        rw [putBack, hmark, openMark, replace_step (by simp), replace_quiet (by decide), replace_found, closeMark,
          replace_step (by simp)]
        exact mem_cons_self
      · have hrest := (infix_cons_iff.mp hos).resolve_left fun hpre' => by
          obtain ⟨hc, hos'⟩ := cons_prefix_cons.mp hpre'
          exact hpre ⟨(Option.some.inj hc).symm, (prefix_marked_iff hzero.2).mpr ⟨b, hb, hos'⟩⟩
        rw [marked_some, putBack_char (fun hc => hzero.1 (congrArg some hc.symm)) fun hc hos' => hpre ⟨hc, hos'⟩]
        exact mem_append_right _ (ih h hzero.2 hrest)

/-! ### Expressions -/

/-- An expression as it is written between braces: not empty, with no white space around it, and
free of braces, colons and zeros. -/
structure IsPlain (e : Text) : Prop where
  ne_nil : e ≠ []
  trimmed : trim e = e
  clean : ∀ c ∈ e, c ∉ ['\x7b', '\x7d', ':', '\x00']

theorem IsPlain.not_mem (h : IsPlain e) (hc : c ∈ ['\x7b', '\x7d', ':', '\x00']) :
    c ∉ e := fun hm => h.clean c hm hc

theorem brace_not_mem_spellChar (c : Char) : '\x7b' ∉ spellChar openMark closeMark c := by
  unfold spellChar
  split_ifs with hopen
  · decide
  · decide
  · simpa using Ne.symm hopen

theorem untilClosed?_append (hopen : '\x7b' ∉ s) (hclose : '\x7d' ∉ s) (t : Text) :
    untilClosed? 1 (s ++ t) = (untilClosed? 1 t).map (s ++ ·) := by
  induction s with
  | nil => simp
  | cons c s ih =>
    rw [mem_cons, not_or] at hopen hclose
    rw [cons_append, untilClosed?, if_neg (Ne.symm hopen.1), if_neg (Ne.symm hclose.1), ih hopen.2 hclose.2,
      Option.map_map]
    rfl

theorem cutFormat?_append (h : ':' ∉ e) (t : Text) :
    cutFormat? (e ++ t) = (cutFormat? t).map fun p => (e ++ p.1, p.2) := by
  induction e with
  | nil => simp
  | cons c e ih =>
    rw [mem_cons, not_or] at h
    rw [cons_append, cutFormat?, ih h.2]
    cases cutFormat? t with
    | none => simp [Ne.symm h.1]
    | some p => rfl

theorem parseFrom_skip (used : List (Text × Nat)) (s t : Text) :
    parseFrom s.length used (s ++ t) = parseFrom 0 used t := by
  induction s with
  | nil => rfl
  | cons c s ih => exact ih

theorem parseFrom_quiet (h : '\x7b' ∉ s) (used : List (Text × Nat)) (t : Text) :
    parseFrom 0 used (s ++ t) =
      { parseFrom 0 used t with template := s ++ (parseFrom 0 used t).template } := by
  induction s with
  | nil => rfl
  | cons c s ih =>
    rw [mem_cons, not_or] at h
    rw [cons_append, parseFrom, if_neg (Ne.symm h.1), ih h.2]
    rfl

theorem parseFrom_hole (he : IsPlain e) (used : List (Text × Nat)) (t : Text) :
    let n := freshName used (nameOf e)
    let p := parseFrom 0 n.2 t
    parseFrom 0 used (inBraces e ++ t) =
      { template := inBraces n.1 ++ p.template
        placeholders := ⟨n.1, e, []⟩ :: p.placeholders
        warnings := if isInvolved e then (inBraces e ++ " 包含复杂表达式") :: p.warnings else p.warnings } := by
  have hinner : untilClosed? 1 (e ++ '\x7d' :: t) = some e := by
    rw [untilClosed?_append (he.not_mem (by decide)) (he.not_mem (by decide))]
    simp [untilClosed?]
  have hparts : exprParts e = (e, []) := by
    rw [exprParts, ← append_nil e, cutFormat?_append (he.not_mem (by decide))]
    simp only [cutFormat?, Option.map_none, Option.getD_none, append_nil, he.trimmed]
    rfl
  have hskip : ∀ used, parseFrom (e.length + 1) used (e ++ '\x7d' :: t) = parseFrom 0 used t := by
    intro used
    have := parseFrom_skip used (e ++ ['\x7d']) t
    rwa [append_assoc, singleton_append, length_append] at this
  have htext : inBraces e ++ t = '\x7b' :: (e ++ '\x7d' :: t) := by simp [inBraces]
  rw [htext, parseFrom, if_pos rfl, hinner]
  simp only [hparts, hskip]

/-- What is said when braces do not match. -/
def mismatch : Text := "大括号不匹配"

theorem mismatch_ne (t : Text) : mismatch ≠ '\x7b' :: t := by
  intro h
  have hhead : mismatch.head? = some '大' := by decide
  rw [h] at hhead
  exact absurd hhead (by simp)

theorem parseFrom_marked (hlen : es.length = os.count none) (hes : ∀ e ∈ es, IsPlain e)
    (used : List (Text × Nat)) :
    let p := parseFrom 0 used (marked os es)
    p.placeholders.map (·.expr) = es ∧ (∀ q ∈ p.placeholders, q.format = []) ∧ mismatch ∉ p.warnings ∧
      (∀ n ∈ p.placeholders.map (·.name), '\x00' ∉ n) ∧ p.template = marked os (p.placeholders.map (·.name)) := by
  induction os generalizing es used with
  | nil =>
    obtain rfl := length_eq_zero_iff.mp hlen
    exact ⟨rfl, nofun, not_mem_nil, nofun, rfl⟩
  | cons o os ih =>
    cases o with
    | some c =>
      obtain ⟨hexprs, hformats, hmatched, hnames, htemplate⟩ := ih (by simpa using hlen) hes used
      rw [marked_some, parseFrom_quiet (brace_not_mem_spellChar c)]
      exact ⟨hexprs, hformats, hmatched, hnames, congrArg (spellChar openMark closeMark c ++ ·) htemplate⟩
    | none =>
      obtain ⟨e, es, rfl⟩ := exists_cons_of_length_pos (l := es) (by rw [hlen]; simp)
      obtain ⟨he, hes⟩ := forall_mem_cons.mp hes
      obtain ⟨hexprs, hformats, hmatched, hnames, htemplate⟩ :=
        ih (by simpa using hlen) hes (freshName used (nameOf e)).2
      rw [marked_none, headD_cons, tail_cons, parseFrom_hole he]
      refine ⟨by rw [map_cons, hexprs], forall_mem_cons.mpr ⟨rfl, hformats⟩, ?_, ?_, ?_⟩
      · split_ifs
        · exact fun hm => (mem_cons.mp hm).elim (mismatch_ne _) hmatched
        · exact hmatched
      · exact forall_mem_cons.mpr ⟨zero_not_mem_freshName (he.not_mem (by decide)) used, hnames⟩
      · rw [map_cons, marked_none, headD_cons, tail_cons, ← htemplate]

theorem zero_mem_exprParts (h : ':' ∉ e) (t : Text) :
    '\x00' ∈ (exprParts (e ++ closeMark ++ t)).1 := by
  have hcolon : ':' ∉ e ++ closeMark := fun hm => (mem_append.mp hm).elim h (by decide)
  obtain ⟨u, hu⟩ : ∃ u, (exprParts (e ++ closeMark ++ t)).1 = trim (e ++ closeMark ++ u) := by
    rw [exprParts, cutFormat?_append hcolon]
    cases cutFormat? t with
    | none => exact ⟨t, rfl⟩
    | some p => exact ⟨p.1, rfl⟩
  have hzero : e ++ closeMark ++ u = e ++ '\x00' :: (['R', 'B', '\x00'] ++ u) := by rw [append_assoc]; rfl
  rw [hu, hzero, trim_append_cons (by decide)]
  exact mem_append_right _ mem_cons_self

theorem misread_of_infix (hlen : es.length = os.count none) (hes : ∀ e ∈ es, IsPlain e)
    (hos : [none, some '\x7d'] <:+: os) (used : List (Text × Nat)) :
    let p := parseFrom 0 used (setAside (written os es))
    mismatch ∈ p.warnings ∨ ∃ q ∈ p.placeholders, '\x00' ∈ q.expr := by
  induction os generalizing es used with
  | nil => simp at hos
  | cons o os ih =>
    cases o with
    | some c =>
      have hrest := (infix_cons_iff.mp hos).resolve_left fun hpre => by simp at hpre
      rw [written_some, setAside_char, parseFrom_quiet (brace_not_mem_spellChar c)]
      exact ih (by simpa using hlen) hes hrest used
    | none =>
      obtain ⟨e, es, rfl⟩ := exists_cons_of_length_pos (l := es) (by rw [hlen]; simp)
      obtain ⟨he, hes⟩ := forall_mem_cons.mp hes
      have hopen := he.not_mem (c := '\x7b') (by decide)
      have hclose := he.not_mem (c := '\x7d') (by decide)
      rw [written_none, headD_cons, tail_cons]
      by_cases hhead : os.head? = some (some '\x7d')
      -- Of three closing braces in a row the first two make the mark, and the expression goes on behind it.
      · obtain ⟨os, rfl⟩ := head?_eq_some_iff.mp hhead
        obtain ⟨t, ht⟩ : ∃ t, setAside (inBraces e ++ written (some '\x7d' :: os) es) =
            '\x7b' :: (e ++ (closeMark ++ t)) := by
          rw [setAside_hole hopen hclose, written_some, replace_quiet (by decide)]
          exact ⟨_, congrArg (fun u => '\x7b' :: (e ++ u)) replace_found⟩
        rw [ht, ← append_assoc, parseFrom, if_pos rfl,
          untilClosed?_append (by simp [hopen, closeMark]) (by simp [hclose, closeMark])]
        cases untilClosed? 1 t with
        | none => exact .inl mem_cons_self
        | some u => exact .inr ⟨_, mem_cons_self, zero_mem_exprParts (he.not_mem (by decide)) u⟩
      · have hrest := (infix_cons_iff.mp hos).resolve_left fun hpre => hhead (by
          obtain ⟨-, u, rfl⟩ := cons_prefix_cons.mp hpre
          rfl)
        rw [setAside_hole_append hopen hclose (head?_written hhead), parseFrom_hole he]
        rcases ih (by simpa using hlen) hes hrest (freshName used (nameOf e)).2 with hwarned | ⟨q, hq, hzero⟩
        · left
          split_ifs
          · exact mem_cons_of_mem _ hwarned
          · exact hwarned
        · exact .inr ⟨q, mem_cons_of_mem _ hq, hzero⟩

/-! ### Reading -/

theorem zero_not_mem_written (hes : ∀ e ∈ es, '\x00' ∉ e) (hzero : some '\x00' ∉ os) :
    '\x00' ∉ written os es := by
  induction os generalizing es with
  | nil => exact not_mem_nil
  | cons o os ih =>
    rw [mem_cons, not_or] at hzero
    cases o with
    | none =>
      rw [written_none, mem_append, not_or]
      exact ⟨zero_not_mem_inBraces hes, ih (forall_tail hes) hzero.2⟩
    | some c =>
      rw [written_some, mem_append, not_or, spellChar]
      refine ⟨?_, ih hes hzero.2⟩
      split_ifs
      · decide
      · decide
      · simpa using hzero.1

/-- What is read of a string is what it means: its expressions without formats, no braces that do
not match, and a template in which names stand for the expressions. -/
structure ReadsAs (os : List (Option Char)) (es : List Text) (p : Parsed) : Prop where
  exprs : p.placeholders.map (·.expr) = es
  formats : ∀ q ∈ p.placeholders, q.format = []
  matched : mismatch ∉ p.warnings
  template : p.template = written os (p.placeholders.map (·.name))

/-- What is misread: a closing brace behind an expression, and two letters between braces of which
the first closes. -/
def misreadForms : List (List (Option Char)) :=
  [[none, some '\x7d'], [some '\x7d', some 'L', some 'B', some '\x7b'], [some '\x7d', some 'L', some 'B', some '\x7d']]

theorem readsAs_written_iff (hlen : es.length = os.count none) (hes : ∀ e ∈ es, IsPlain e)
    (hzero : some '\x00' ∉ os) :
    ReadsAs os es (parse (written os es)) ↔ ∀ m ∈ misreadForms, ¬ m <:+: os := by
  have hforms : (∀ m ∈ misreadForms, ¬ m <:+: os) ↔ ¬ [none, some '\x7d'] <:+: os ∧
      ∀ c ∈ ['\x7b', '\x7d'], ¬ [some '\x7d', some 'L', some 'B', some c] <:+: os := by
    simp [misreadForms]
  by_cases hend : [none, some '\x7d'] <:+: os
  · refine iff_of_false (fun hread => ?_) fun hnot => (hforms.mp hnot).1 hend
    rcases misread_of_infix hlen hes hend [] with hwarned | ⟨q, hq, hbad⟩
    · exact hread.matched hwarned
    · have hexpr : q.expr ∈ es := hread.exprs ▸ mem_map_of_mem hq
      exact (hes _ hexpr).not_mem (by decide) hbad
  · have hset := setAside_written (fun e he => ⟨(hes e he).not_mem (by decide), (hes e he).not_mem (by decide)⟩) hend
    obtain ⟨hexprs, hformats, hmatched, hnames, htemplate⟩ := parseFrom_marked hlen hes []
    rw [parse, hset, hforms, htemplate]
    by_cases hmark : ∀ c ∈ ['\x7b', '\x7d'], ¬ [some '\x7d', some 'L', some 'B', some c] <:+: os
    · exact iff_of_true ⟨hexprs, hformats, hmatched, putBack_marked hnames hzero hmark⟩ ⟨hend, hmark⟩
    · refine iff_of_false (fun hread => ?_) fun hnot => hmark hnot.2
      have hbad := zero_mem_putBack hnames hzero (by simpa only [not_forall, not_not, exists_prop] using hmark)
      have htemplate : putBack (marked os _) = _ := hread.template
      rw [htemplate] at hbad
      exact zero_not_mem_written hnames hzero hbad

end

/-! ### Segments -/

inductive Segment where
  | literal (t : Text)
  | hole (expr : Text)

/-- A literal has no zero, and an expression is plain. -/
def Segment.Plain : Segment → Prop
  | literal t => '\x00' ∉ t
  | hole e => IsPlain e

/-- The characters of the literals, and nothing for each expression. -/
def outline : List Segment → List (Option Char)
  | [] => []
  | .literal t :: segs => t.map some ++ outline segs
  | .hole _ :: segs => none :: outline segs

def holes : List Segment → List Text
  | [] => []
  | .literal _ :: segs => holes segs
  | .hole e :: segs => e :: holes segs

theorem holes_outline {segs : List Segment} (h : ∀ s ∈ segs, s.Plain) :
    (holes segs).length = (outline segs).count none ∧ (∀ e ∈ holes segs, IsPlain e) ∧
      some '\x00' ∉ outline segs := by
  induction segs with
  | nil => exact ⟨rfl, nofun, not_mem_nil⟩
  | cons s segs ih =>
    obtain ⟨hs, hsegs⟩ := forall_mem_cons.mp h
    obtain ⟨hlen, hplain, hzero⟩ := ih hsegs
    cases s with
    | literal t =>
      have hnone : (t.map some).count (none : Option Char) = 0 := count_eq_zero.mpr (by simp)
      refine ⟨by rw [holes, outline, count_append, hnone, Nat.zero_add, hlen], hplain, ?_⟩
      rw [outline, mem_append, not_or]
      exact ⟨by simpa [Segment.Plain] using hs, hzero⟩
    | hole e =>
      refine ⟨by rw [holes, outline, length_cons, count_cons_self, hlen], forall_mem_cons.mpr ⟨hs, hplain⟩, ?_⟩
      simpa [outline] using hzero

/-- **Which interpolated strings are read as they are meant.** Those whose outline has none of the
three forms in it. -/
theorem readsAs_iff {segs : List Segment} (h : ∀ s ∈ segs, s.Plain) :
    ReadsAs (outline segs) (holes segs) (parse (written (outline segs) (holes segs))) ↔
      ∀ m ∈ misreadForms, ¬ m <:+: outline segs := by
  obtain ⟨hlen, hes, hzero⟩ := holes_outline h
  exact readsAs_written_iff hlen hes hzero

/-- Braces of literals in front of an expression and behind the two letters. -/
theorem readsAs_doubled_braces :
    ReadsAs [some '\x7b', none, some 'L', some 'B', some '\x7d', none] ["a", "b.c"]
      (parse "\x7b\x7b\x7ba\x7dLB\x7d\x7d\x7bb.c\x7d") := by
  have hplain : ∀ s ∈ [Segment.literal "\x7b", .hole "a", .literal "LB\x7d", .hole "b.c"], s.Plain := by
    simp only [forall_mem_cons, Segment.Plain]
    exact ⟨by decide, ⟨by decide, by decide, by simp⟩, by decide, ⟨by decide, by decide, by simp⟩, nofun⟩
  exact (readsAs_iff hplain).mpr (by decide)

/-- A closing brace behind an expression is not read as one, and neither are the braces around the
two letters. -/
theorem not_readsAs_closing_brace :
    ¬ ReadsAs [none, some '\x7d'] ["a"] (parse "\x7ba\x7d\x7d\x7d") ∧
      ¬ ReadsAs [some '\x7d', some 'L', some 'B', some '\x7b'] [] (parse "\x7d\x7dLB\x7b\x7b") := by
  have hplain : ∀ e ∈ [("a" : Text)], IsPlain e := forall_mem_singleton.mpr ⟨by decide, by decide, by simp⟩
  have hnone : ∀ e ∈ ([] : List Text), IsPlain e := nofun
  exact ⟨(readsAs_written_iff rfl hplain (by decide)).not.mpr (by decide),
    (readsAs_written_iff rfl hnone (by decide)).not.mpr (by decide)⟩

/-! ## Names of placeholders

A name is made from the base that its expression gives. The first one is the base itself, a later
one is numbered by how often the base has been taken (`label`). So the names in a string are
different exactly if the bases are `Unambiguous`: no numbered name is the base of another
expression, nor is it a numbered name of that base. -/

variable {n : Nat} {before bs : List Text} {used : List (Text × Nat)}

/-! ### Numbered names -/

theorem twelve_le_of_decimal {m : Nat} (hm : 2 ≤ m) (h : decimal n = '1' :: decimal m) : 12 ≤ n := by
  have hdiv : ['1'] = decimal (n / 10 ^ (decimal m).length) := eq_decimal_of_append (cons_ne_nil '1' []) h
  have hten : 10 ^ 1 ≤ 10 ^ (decimal m).length := Nat.pow_le_pow_right (by decide) Nat.length_toDigits_pos
  have hle : 10 ≤ n := by
    by_contra hlt
    rw [Nat.div_eq_of_lt (by omega)] at hdiv
    exact absurd hdiv (by decide)
  -- The tenth and the eleventh name end in a zero and a one.
  have hten : n ≠ 10 := fun hn => by
    subst hn
    have : decimal 0 = decimal m := (cons.inj h).2
    exact absurd (decimal_injective this) (by omega)
  have heleven : n ≠ 11 := fun hn => by
    subst hn
    have : decimal 1 = decimal m := (cons.inj h).2
    exact absurd (decimal_injective this) (by omega)
  omega

/-- The `n`-th name made from a base. -/
def label (base : Text) (n : Nat) : Text := if n = 1 then base else base ++ decimal n

/-- Bases, each with how often it has been taken by then, those taken before included. -/
def occurrences : List Text → List Text → List (Text × Nat)
  | _, [] => []
  | before, b :: bs => (b, before.count b + 1) :: occurrences (b :: before) bs

theorem mem_occurrences {o : Text × Nat} :
    o ∈ occurrences before bs ↔ before.count o.1 < o.2 ∧ o.2 ≤ before.count o.1 + bs.count o.1 := by
  induction bs generalizing before with
  | nil => simp [occurrences]
  | cons b bs ih =>
    rw [occurrences, mem_cons, ih, Prod.ext_iff]
    by_cases hb : b = o.1
    · subst hb
      simp only [count_cons_self, true_and]
      omega
    · simp [Ne.symm hb, hb]

theorem nodup_occurrences (before bs : List Text) : (occurrences before bs).Nodup := by
  induction bs generalizing before with
  | nil => exact nodup_nil
  | cons b bs ih =>
    refine nodup_cons.mpr ⟨fun hm => ?_, ih _⟩
    have := (mem_occurrences.mp hm).1
    simp at this

/-- No two names made from the bases are the same. A numbered name is not a base, and where a base
has twelve names, its twelfth is not the second one of the base that ends in a one. -/
structure Unambiguous (bs : List Text) : Prop where
  numeral : ∀ b n, 2 ≤ n → n ≤ bs.count b → b ++ decimal n ∉ bs
  digit : ∀ b, 12 ≤ bs.count b → bs.count (b ++ ['1']) ≤ 1

theorem label_of_two_le (base : Text) (h : 2 ≤ n) : label base n = base ++ decimal n :=
  if_neg (by omega)

/-- Two numbered names are different unless base and number are the same. Otherwise the longer base
is the shorter one with digits behind it, which are those of a number. -/
theorem Unambiguous.label_inj (h : Unambiguous bs) {b b' : Text} {n' : Nat}
    (hn : 2 ≤ n ∧ n ≤ bs.count b) (hn' : 2 ≤ n' ∧ n' ≤ bs.count b') (hle : b.length ≤ b'.length)
    (heq : b ++ decimal n = b' ++ decimal n') : b = b' ∧ n = n' := by
  obtain ⟨d, rfl⟩ : b <+: b' := prefix_of_prefix_length_le (prefix_append b _) (heq ▸ prefix_append b' _) hle
  rw [append_assoc, append_right_inj] at heq
  rcases eq_or_ne d [] with rfl | hd
  · exact ⟨(append_nil b).symm, decimal_injective heq⟩
  · exfalso
    have hdigits := eq_decimal_of_append hd heq
    have hmem : b ++ d ∈ bs := count_pos_iff.mp (by omega)
    set m := n / 10 ^ (decimal n').length with hm
    have hmn : m ≤ n := Nat.div_le_self _ _
    -- The digits behind the shorter base are a number `m`. From two on, it numbers a name of that base.
    rcases Nat.lt_or_ge m 2 with hsmall | hlarge
    · interval_cases m
      · exact ne_zero_cons_decimal (hdigits ▸ heq)
      · have hone : decimal 1 = ['1'] := rfl
        rw [hdigits, hone] at heq hn'
        have htwelve := twelve_le_of_decimal hn'.1 heq
        have := h.digit b (by omega)
        omega
    · exact h.numeral b m hlarge (by omega) (hdigits ▸ hmem)

theorem nodup_labels_iff :
    ((occurrences [] bs).map fun o => label o.1 o.2).Nodup ↔ Unambiguous bs := by
  have hmem (b : Text) (n : Nat) : (b, n) ∈ occurrences [] bs ↔ 1 ≤ n ∧ n ≤ bs.count b := by
    rw [mem_occurrences, count_nil, Nat.zero_add]
    rfl
  constructor
  · intro h
    have hinj {b b' : Text} {n n' : Nat} (hn : 1 ≤ n ∧ n ≤ bs.count b) (hn' : 1 ≤ n' ∧ n' ≤ bs.count b')
        (heq : label b n = label b' n') : n = n' :=
      (Prod.ext_iff.mp (inj_on_of_nodup_map h ((hmem b n).mpr hn) ((hmem b' n').mpr hn') heq)).2
    refine ⟨fun b n hlow hhigh hin => ?_, fun b htwelve => ?_⟩
    · have hone := hinj ⟨by omega, hhigh⟩ ⟨le_rfl, count_pos_iff.mpr hin⟩ (label_of_two_le b hlow)
      omega
    · by_contra htwo
      have htwelfth : label b 12 = label (b ++ ['1']) 2 := by
        rw [label_of_two_le b (by omega), label_of_two_le _ le_rfl, append_assoc]
        rfl
      have := hinj ⟨by omega, htwelve⟩ ⟨by omega, by omega⟩ htwelfth
      omega
  · intro h
    refine (nodup_occurrences [] bs).map_on ?_
    rintro ⟨b, n⟩ hb ⟨b', n'⟩ hb' heq
    rw [hmem] at hb hb'
    dsimp only at heq
    rcases hb.1.eq_or_lt with rfl | hn <;> rcases hb'.1.eq_or_lt with rfl | hn'
    · exact congrArg (·, 1) heq
    · rw [label_of_two_le b' hn', label, if_pos rfl] at heq
      exact absurd (count_pos_iff.mp hb.2) (heq ▸ h.numeral b' n' hn' hb'.2)
    · rw [label_of_two_le b hn, label, if_pos rfl] at heq
      exact absurd (count_pos_iff.mp hb'.2) (heq ▸ h.numeral b n hn hb.2)
    · rw [label_of_two_le b hn, label_of_two_le b' hn'] at heq
      rcases le_total b.length b'.length with hle | hle
      · obtain ⟨rfl, rfl⟩ := h.label_inj ⟨hn, hb.2⟩ ⟨hn', hb'.2⟩ hle heq
        rfl
      · obtain ⟨rfl, rfl⟩ := h.label_inj ⟨hn', hb'.2⟩ ⟨hn, hb.2⟩ hle heq.symm
        rfl

/-- What is kept of the bases taken before: how often each has been taken. -/
def Counts (used : List (Text × Nat)) (before : List Text) : Prop :=
  ∀ b, Assoc.get? b used = if b ∈ before then some (before.count b) else none

theorem Counts.freshName (h : Counts used before) (base : Text) :
    (freshName used base).1 = label base (before.count base + 1) ∧
      Counts (freshName used base).2 (base :: before) := by
  have hcounts : Counts (Assoc.insert base (before.count base + 1) used) (base :: before) := by
    intro b
    rw [Assoc.get?_insert]
    by_cases hb : base = b
    · subst hb
      simp
    · rw [if_neg hb, h b]
      simp [hb, Ne.symm hb]
  unfold Resource.freshName
  rw [h base]
  by_cases hbase : base ∈ before
  · rw [if_pos hbase]
    exact ⟨(label_of_two_le base (Nat.succ_le_succ (count_pos_iff.mpr hbase))).symm, hcounts⟩
  · rw [if_neg hbase]
    rw [count_eq_zero.mpr hbase] at hcounts ⊢
    exact ⟨rfl, hcounts⟩

theorem names_parseFrom (skip : Nat) (h : Counts used before)
    (t : Text) : (parseFrom skip used t).placeholders.map (·.name) =
      (occurrences before ((parseFrom skip used t).placeholders.map fun p => nameOf p.expr)).map fun o =>
        label o.1 o.2 := by
  induction t generalizing skip used before with
  | nil => cases skip <;> rfl
  | cons c t ih =>
    cases skip with
    | succ skip => exact ih skip h
    | zero =>
      rw [parseFrom]
      split
      · split
        · exact ih 0 h
        · next inner _ =>
          obtain ⟨hname, hcounts⟩ := h.freshName (nameOf (exprParts inner).1)
          exact congrArg₂ cons hname (ih _ hcounts)
      · exact ih 0 h

theorem names_parse (content : Text) : (parse content).placeholders.map (·.name) =
    (occurrences [] ((parse content).placeholders.map fun p => nameOf p.expr)).map fun o => label o.1 o.2 := by
  have hnone : Counts [] [] := fun b => rfl
  exact names_parseFrom 0 hnone (setAside content)

/-- **The names in a string are different exactly if the bases are unambiguous.** -/
theorem nodup_names_iff (content : Text) :
    ((parse content).placeholders.map (·.name)).Nodup ↔
      Unambiguous ((parse content).placeholders.map fun p => nameOf p.expr) := by
  rw [names_parse, nodup_labels_iff]

/-- The second name of a base is the first one of another. -/
theorem not_nodup_names_repeated :
    ¬ ((parse "\x7bA\x7d\x7bA\x7d\x7bA2\x7d").placeholders.map (·.name)).Nodup := by
  have hplain : ∀ e ∈ [['A'], ['A'], ['A', '2']], IsPlain e := by
    simp only [forall_mem_cons]
    exact ⟨⟨by decide, by decide, by simp⟩, ⟨by decide, by decide, by simp⟩, ⟨by decide, by decide, by simp⟩, nofun⟩
  have hread : ReadsAs [none, none, none] [['A'], ['A'], ['A', '2']] (parse "\x7bA\x7d\x7bA\x7d\x7bA2\x7d") :=
    (readsAs_written_iff rfl hplain (by decide)).mpr (by decide)
  have hfirst : nameOf ['A'] = ['A'] := nameOf_word (by decide) nofun
  have hsecond : nameOf ['A', '2'] = ['A', '2'] := nameOf_word (by decide) (forall_mem_singleton.mpr (.inr (by decide)))
  have hbases : (parse "\x7bA\x7d\x7bA\x7d\x7bA2\x7d").placeholders.map (fun p => nameOf p.expr) =
      [nameOf ['A'], nameOf ['A'], nameOf ['A', '2']] :=
    map_map.symm.trans (congrArg (map nameOf) hread.exprs)
  rw [names_parse, hbases, hfirst, hsecond]
  decide

end Localizer.Resource
