import Localizer.Dialogue.Cast
import Localizer.Proofs.Text.Cut

/-!
# Lines of the code section

Which lines of a listing are lines of its code, said without a cursor (`IsCodeLine`): the `n`-th
line after a line `[CODE]`, with no line in between that opens a section. The cursor that goes over
a listing line by line numbers exactly these lines. A text opens no section, so the numbers stay the
same if a text stands in the place of another one.
-/

namespace Localizer.Dialogue

open List hiding le
open Text

variable {line : Text} {c : Cursor}
variable {n : Nat} {l l' : Text} {ls : List Text}

/-! ### Texts -/

/-- The pushes, each with the number of digits of its operand. -/
def pushForms : List (Text × Nat) := [("PUSHI", 8), ("PUSHL", 2), ("PUSHG", 8), ("PUSHF", 8)]

/-- The calls that take a count and a function. -/
def callNames : List Text := ["CALLB", "CALLI", "CALLL", "CALLG"]

/-- **What makes a line a text.** -/
theorem isText_iff :
    isText line = true ↔ (∀ f ∈ pushForms, operand? f.1 f.2 line = none) ∧
      (∀ name ∈ callNames, callOperands? name line = none) ∧
      isOperation (firstWord line) = false ∧ isBlankText line = false ∧ isMark (trim line) = false := by
  rw [isText, decide_eq_true_eq, Statement.ofLine]
  simp only [pushForms, callNames, forall_mem_cons]
  generalize operand? "PUSHI" 8 line = pushi
  generalize operand? "PUSHL" 2 line = pushl
  generalize operand? "PUSHG" 8 line = pushg
  generalize operand? "PUSHF" 8 line = pushf
  generalize callOperands? "CALLB" line = callb
  generalize callOperands? "CALLI" line = calli
  generalize callOperands? "CALLL" line = calll
  generalize callOperands? "CALLG" line = callg
  -- each form that is found decides the line, so the cases are taken in the order in which they are tried
  cases pushi with | some n => simp | none => ?_
  cases pushl with | some n => simp | none => ?_
  cases pushg with | some n => simp | none => ?_
  cases pushf with | some n => simp | none => ?_
  cases callb with | some af => simp | none => ?_
  cases calli with | some af => simp | none => ?_
  cases calll with | some af => simp | none => ?_
  cases callg with | some af => simp | none => ?_
  cases isOperation (firstWord line) <;> cases isBlankText line <;> cases isMark (trim line) <;> simp

theorem operations_eq : operations =
    ["NOP".toList, "PUSHR".toList, "POP".toList, "POPL".toList, "POPG".toList, "POPF".toList, "STIL".toList,
      "STIG".toList, "STIF".toList, "INCL".toList, "DECL".toList, "INCG".toList, "DECG".toList, "EXCH".toList,
      "NEG".toList, "ADD".toList, "SUB".toList, "MUL".toList, "DIV".toList, "MOD".toList, "AND".toList, "OR".toList,
      "NOT".toList, "EQ".toList, "NEQ".toList, "LT".toList, "GT".toList, "LEQ".toList, "GEQ".toList, "B".toList,
      "BZ".toList, "BNZ".toList, "BTBL".toList, "JMPL".toList, "JMPG".toList, "CALLL".toList, "CALLG".toList,
      "RET".toList, "RETN".toList, "YIELD".toList] := by
  rw [operations, toList_eq_of_ofList rfl]
  decide

theorem isOperation_eq_false {t : Text} (h : ∀ op ∈ operations, op ≠ [] ∧ op.head? ≠ t.head?) :
    isOperation t = false := by
  rw [isOperation, ← Bool.not_eq_true, contains_iff_mem]
  intro hmem
  obtain ⟨hne, hhead⟩ := h _ hmem
  obtain ⟨rest, hrest⟩ := takeWhile_prefix (l := t) isWordChar
  have heq : (t.takeWhile isWordChar ++ rest).head? = (t.takeWhile isWordChar).head? :=
    head?_append_of_ne_nil _ hne
  rw [hrest] at heq
  exact hhead heq.symm

theorem not_blank_of_isText (h : isText line = true) : isBlankText line = false :=
  (isText_iff.mp h).2.2.2.1

theorem isSectionMark_of_isText (h : isText line = true) : isSectionMark line = false := by
  obtain ⟨-, -, -, -, hmark⟩ := isText_iff.mp h
  simp only [isMark, Bool.or_eq_false_iff] at hmark
  rw [isSectionMark, hmark.1.1, Bool.false_and]

theorem trim_ne_codeMark (h : isSectionMark line = false) : trim line ≠ codeMark := by
  intro hcode
  rw [isSectionMark, hcode] at h
  exact absurd h (by decide)

/-! ### The cursor -/

namespace Cursor

theorem next_of_codeMark (c : Cursor) (h : trim line = codeMark) : c.next line = ⟨true, 0⟩ := by
  rw [next, if_pos h]

theorem next_of_inside (hc : c.inCode = true) (h : isSectionMark line = false) :
    c.next line = ⟨true, c.line + 1⟩ := by
  rw [next, if_neg (trim_ne_codeMark h), hc, h]
  rfl

theorem inCode_of_next (h : (c.next line).inCode = true) :
    trim line = codeMark ∨ c.inCode = true ∧ isSectionMark line = false := by
  by_cases hcode : trim line = codeMark
  · exact .inl hcode
  · rw [next, if_neg hcode] at h
    split at h
    · cases h
    · next hinside =>
      simp only [Bool.or_eq_true, Bool.not_eq_true', not_or, Bool.not_eq_false, Bool.not_eq_true] at hinside
      exact .inr hinside

theorem number?_eq_some_iff :
    c.number? line = some n ↔ c.inCode = true ∧ isSectionMark line = false ∧ n = c.line + 1 := by
  rw [number?]
  split
  · next h =>
    simp only [Bool.or_eq_true, decide_eq_true_eq, Bool.not_eq_true'] at h
    refine ⟨fun hn => absurd hn (by simp), ?_⟩
    rintro ⟨hin, hmark, -⟩
    rcases h with (h | h) | h
    · exact absurd h (trim_ne_codeMark hmark)
    · exact absurd (hin.symm.trans h) (by decide)
    · exact absurd (hmark.symm.trans h) (by decide)
  · next h =>
    simp only [Bool.or_eq_true, decide_eq_true_eq, Bool.not_eq_true', not_or, Bool.not_eq_false,
      Bool.not_eq_true] at h
    simp [h, eq_comm]

theorem next_of_isText (h : isText l = true) (h' : isText l' = true) : c.next l' = c.next l := by
  have hl := isSectionMark_of_isText h
  have hl' := isSectionMark_of_isText h'
  rw [next, next, if_neg (trim_ne_codeMark hl), if_neg (trim_ne_codeMark hl'), hl, hl']

theorem number?_of_isText (h : isText l = true) (h' : isText l' = true) :
    c.number? l' = c.number? l := by
  have hl := isSectionMark_of_isText h
  have hl' := isSectionMark_of_isText h'
  simp only [number?, hl, hl', trim_ne_codeMark hl, trim_ne_codeMark hl']

end Cursor

/-! ### The lines of code -/

/-- The line at position `p` of a listing is the `n`-th line of a code section: the section is
opened `n` lines before, and neither the line nor any line in between opens a section. -/
structure IsCodeLine (ls : List Text) (p n : Nat) : Prop where
  pos : 1 ≤ n
  le : n ≤ p
  opened : ∃ l, ls[p - n]? = some l ∧ trim l = codeMark
  inside : ∀ j l, p - n < j → j ≤ p → ls[j]? = some l → isSectionMark l = false

theorem cursor_inCode (h : (ls.foldl Cursor.next {}).inCode = true) : (ls.foldl Cursor.next {}).line < ls.length ∧
      (∃ l, ls[ls.length - ((ls.foldl Cursor.next {}).line + 1)]? = some l ∧ trim l = codeMark) ∧
      ∀ j l, ls.length - ((ls.foldl Cursor.next {}).line + 1) < j → ls[j]? = some l → isSectionMark l = false := by
  induction ls using List.reverseRecOn with
  | nil => cases h
  | append_singleton ls l ih =>
    rw [foldl_concat] at h ⊢
    rw [length_append, length_singleton]
    rcases Cursor.inCode_of_next h with hcode | ⟨hin, hmark⟩
    · rw [Cursor.next_of_codeMark _ hcode]
      refine ⟨by simp, ⟨l, by simp, hcode⟩, fun j l' hj hl' => ?_⟩
      have hlt := (List.getElem?_eq_some_iff.mp hl').1
      simp only [length_append, length_singleton] at hlt hj
      omega
    · obtain ⟨hlt, ⟨m, hm, hmcode⟩, hinside⟩ := ih hin
      rw [Cursor.next_of_inside hin hmark]
      simp only
      refine ⟨by omega, ⟨m, ?_, hmcode⟩, fun j l' hj hl' => ?_⟩
      · rw [← hm, getElem?_append_left (by omega)]
        congr 1
        omega
      · rcases Nat.lt_or_ge j ls.length with hlt' | hge
        · rw [getElem?_append_left hlt'] at hl'
          exact hinside j l' (by omega) hl'
        · have hlt' := (List.getElem?_eq_some_iff.mp hl').1
          simp only [length_append, length_singleton] at hlt'
          obtain rfl : j = ls.length := by omega
          rw [getElem?_concat_length] at hl'
          exact Option.some.inj hl' ▸ hmark

/-- **A line that the cursor gives a number is a line of code with that number.** -/
theorem isCodeLine_of_number? (rest : List Text)
    (h : (ls.foldl Cursor.next {}).number? l = some n) : IsCodeLine (ls ++ l :: rest) ls.length n := by
  obtain ⟨hin, hmark, rfl⟩ := Cursor.number?_eq_some_iff.mp h
  obtain ⟨hlt, ⟨m, hm, hmcode⟩, hinside⟩ := cursor_inCode hin
  refine ⟨by omega, hlt, ⟨m, ?_, hmcode⟩, fun j l' hj hjle hl' => ?_⟩
  · rw [getElem?_append_left (by omega)]
    exact hm
  · rcases Nat.lt_or_eq_of_le hjle with hlt' | rfl
    · rw [getElem?_append_left hlt'] at hl'
      exact hinside j l' hj hl'
    · rw [getElem?_append_right (Nat.le_refl _), Nat.sub_self, getElem?_cons_zero] at hl'
      exact Option.some.inj hl' ▸ hmark

end Localizer.Dialogue
