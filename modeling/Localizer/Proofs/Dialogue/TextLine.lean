import Localizer.Proofs.Dialogue.Statement
import Localizer.Proofs.Script.CodeLine

/-!
# Two views of a line

Extraction and the assembler both tell texts from instructions, each by rules of its own. Extraction
knows the pushes and `CALLB` by their full form, with all digits, and any other instruction by its
name alone. The assembler looks at the operands, which may have fewer digits, and takes a line whose
operands do not fit for a text. So the two views differ on two kinds of lines
(`text_views_differ_iff`).
-/

namespace Localizer.Dialogue

open List Text Script Option

variable {name line : Text}
variable {width : Nat} {t a f w : Text} {c : Char}

/-! ### Full forms -/

/-- A word of exactly `width` hexadecimal digits. -/
def IsHexWord (width : Nat) (t : Text) : Prop :=
  t.length = width ∧ ∀ c ∈ t, (hexValue? c).isSome = true

/-- A push in full: the name, and a word of `width` digits. -/
def IsPushLine (name : Text) (width : Nat) (line : Text) : Prop :=
  ∃ digits, IsHexWord width digits ∧ Spells [name, digits] line

/-- A call in full: the name, two digits with a comma, and a word of eight digits, which may stand
next to the comma. -/
def IsCallLine (name line : Text) : Prop :=
  ∃ a f, IsHexWord 2 a ∧ IsHexWord 8 f ∧ (Spells [name, a ++ [','], f] line ∨ Spells [name, a ++ ',' :: f] line)

theorem hexWord?_isSome_iff : (hexWord? width t).isSome = true ↔ IsHexWord width t := by
  unfold hexWord? IsHexWord
  split
  · next h => simpa using h
  · next h => simpa using h

theorem operand?_eq_none_iff : operand? name width line = none ↔ ¬ IsPushLine name width line := by
  rw [← not_isSome_iff_eq_none, not_iff_not]
  unfold operand?
  constructor
  · intro h
    split at h
    · next op n hwords =>
      split at h
      · next hop => exact ⟨n, hexWord?_isSome_iff.mp h, hop ▸ words_eq_iff.mp hwords⟩
      · cases h
    · cases h
  · rintro ⟨digits, hdigits, hspells⟩
    rw [words_of_spells hspells]
    simp only [if_true]
    exact hexWord?_isSome_iff.mpr hdigits

/-- The two operands on the line of a call, whatever they are. -/
def callParts? (name line : Text) : Option (Text × Text) :=
  match words line with
  | [op, a, f] => if op = name && a.getLast? = some ',' then some (a.dropLast, f) else none
  | [op, af] => if op = name then splitOnce? ',' af else none
  | _ => none

theorem spells_of_callParts? (h : callParts? name line = some (a, f)) :
    Spells [name, a ++ [','], f] line ∨ Spells [name, a ++ ',' :: f] line := by
  unfold callParts? at h
  split at h
  · next op a' f' hwords =>
    split at h
    · next hop =>
      rw [Bool.and_eq_true, decide_eq_true_eq, decide_eq_true_eq] at hop
      cases h
      rw [dropLast_append_getLast? _ hop.2, ← hop.1]
      exact .inl (words_eq_iff.mp hwords)
    · cases h
  · next op af hwords =>
    split at h
    · next hop =>
      rw [← eq_append_of_splitOnce? h, ← hop]
      exact .inr (words_eq_iff.mp hwords)
    · cases h
  · cases h

theorem callParts?_of_spells (ha : ',' ∉ a)
    (h : Spells [name, a ++ [','], f] line ∨ Spells [name, a ++ ',' :: f] line) :
    callParts? name line = some (a, f) := by
  rcases h with h | h
  · rw [callParts?, words_of_spells h]
    simp
  · rw [callParts?, words_of_spells h]
    simp only [if_true]
    exact splitOnce?_append_sep ha

theorem callOperands?_eq (name line : Text) : callOperands? name line =
    (callParts? name line).bind fun p => (hexWord? 2 p.1).bind fun a => (hexWord? 8 p.2).map (Prod.mk a) := by
  unfold callOperands? callParts?
  rcases words line with _ | ⟨op, _ | ⟨a, _ | ⟨f, _ | ⟨_, _⟩⟩⟩⟩
  · rfl
  · rfl
  · dsimp only
    generalize (if op = name then splitOnce? ',' a else none) = parts
    rcases parts with _ | ⟨a, f⟩
    · rfl
    · cases ha : hexWord? 2 a <;> cases hf : hexWord? 8 f <;> simp [ha, hf]
  · dsimp only
    generalize (if op = name && a.getLast? = some ',' then some (a.dropLast, f) else none) = parts
    rcases parts with _ | ⟨a, f⟩
    · rfl
    · cases ha : hexWord? 2 a <;> cases hf : hexWord? 8 f <;> simp [ha, hf]
  · rfl

theorem callOperands?_eq_none_iff : callOperands? name line = none ↔ ¬ IsCallLine name line := by
  rw [← not_isSome_iff_eq_none, not_iff_not, callOperands?_eq]
  constructor
  · intro h
    obtain ⟨_, hcall⟩ := isSome_iff_exists.mp h
    obtain ⟨p, hparts, hnumbers⟩ := bind_eq_some_iff.mp hcall
    obtain ⟨m, ha, hlast⟩ := bind_eq_some_iff.mp hnumbers
    obtain ⟨n, hf, -⟩ := map_eq_some_iff.mp hlast
    exact ⟨p.1, p.2, hexWord?_isSome_iff.mp (isSome_of_eq_some ha),
      hexWord?_isSome_iff.mp (isSome_of_eq_some hf), spells_of_callParts? hparts⟩
  · rintro ⟨a, f, ha, hf, hspells⟩
    obtain ⟨m, hm⟩ := isSome_iff_exists.mp (hexWord?_isSome_iff.mpr ha)
    obtain ⟨n, hn⟩ := isSome_iff_exists.mp (hexWord?_isSome_iff.mpr hf)
    rw [callParts?_of_spells (fun hcomma => absurd (ha.2 _ hcomma) (by decide)) hspells]
    simp only [bind_some, hm, hn, map_some, isSome_some]

/-! ### Words of hexadecimal digits -/

namespace IsHexWord

theorem not_mem (h : IsHexWord width t) (hc : hexValue? c = none) : c ∉ t := fun hm => by
  have hdigit := h.2 c hm
  simp [hc] at hdigit

theorem isWord (h : IsHexWord (width + 1) t) : IsWord t :=
  ⟨ne_nil_of_length_eq_add_one h.1, fun c hc => not_blank_of_hexValue? (h.2 c hc)⟩

theorem isHexToken (h : IsHexWord (width + 1) t) : isHexToken t = true := by
  rw [Script.isHexToken, trim_eq_self_of_forall h.isWord.not_blank, hexDigits?_of_forall h.isWord.ne_nil h.2]
  rfl

end IsHexWord

/-! ### Instructions -/

def behindFirst (line : Text) : Text := (trimStart line).drop (firstWord line).length

/-- The line is an instruction for the assembler: its first word is an opcode that accepts what
stands behind. -/
def IsInstruction (line : Text) : Prop :=
  ∃ k op, opcodes.find? (firstWord line) = some (k, op) ∧
    op.accepts ((splitOperands (behindFirst line)).map unescapeLine) = true

theorem splitOperands_drop_trimEnd (line : Text) :
    splitOperands ((trimEnd line).drop (firstWord line).length) =
      splitOperands (line.drop (firstWord line).length) := by
  obtain ⟨s, hs, hblank⟩ := trimEnd_append_dropped line
  have hle : (firstWord line).length ≤ (trimEnd line).length := by
    conv_lhs => rw [hs, firstWord_append_blanks hblank]
    exact length_firstWord_le _
  generalize (firstWord line).length = n at hle ⊢
  conv_rhs => rw [hs, drop_append_of_le_length hle, splitOperands_append_blanks hblank]

/-- **The assembler takes a line for a text unless it is an instruction.** -/
theorem readCodeLines_eq_text_iff (hblank : trim line ≠ [])
    (hindent : (opcodes.find? (firstWord line)).isSome = true → trimStart line = line) :
    (∃ t, readCodeLines opcodes [line] = [.text t]) ↔ ¬ IsInstruction line := by
  obtain ⟨s, hs, hs'⟩ := trimEnd_append_dropped line
  have hne : trimEnd line ≠ [] := fun hnil => by
    rw [hnil, nil_append] at hs
    exact hblank (Blanks.trim_eq_nil (hs ▸ hs'))
  have hword : firstWord (trimEnd line) = firstWord line := by
    conv_rhs => rw [hs, firstWord_append_blanks hs']
  have hread : readCodeLines opcodes [line] = (readCodeLine opcodes line).toList := by
    rw [readCodeLines, filterMap_cons]
    cases readCodeLine opcodes line <;> rfl
  rw [hread, readCodeLine, isEmpty_eq_false_iff.mpr hne, if_neg Bool.false_ne_true, hword]
  simp only
  cases hfind : opcodes.find? (firstWord line) with
  | none =>
    refine ⟨fun _ => ?_, fun _ => ⟨_, rfl⟩⟩
    rintro ⟨k, op, hop, -⟩
    cases hfind.symm.trans hop
  | some kop =>
    obtain ⟨k, op⟩ := kop
    have hrest : line.drop (firstWord line).length = behindFirst line := by
      rw [behindFirst, hindent (isSome_of_eq_some hfind)]
    have hinstruction : IsInstruction line ↔
        op.accepts ((splitOperands (behindFirst line)).map unescapeLine) = true := by
      refine ⟨?_, fun hacc => ⟨k, op, hfind, hacc⟩⟩
      rintro ⟨k', op', hop, hacc⟩
      cases hfind.symm.trans hop
      exact hacc
    simp only [splitOperands_drop_trimEnd, hrest]
    rw [hinstruction]
    cases op.accepts ((splitOperands (behindFirst line)).map unescapeLine) with
    | true
    | false => simp

/-! ### Full forms are instructions -/

theorem splitOperands_append_comma {s : Text} (hs : IsOperand s) :
    splitOperands (s ++ ',' :: t) = trim s :: splitOperands t := by
  rw [splitOperands, splitOn_append_sep hs.2, map_cons, filter_cons_of_pos (by simpa using hs.1)]
  rfl

theorem splitOperands_of_spells (h : Spells [w] t) (hcomma : ',' ∉ w) : splitOperands t = [w] := by
  have ht : ',' ∉ t := by
    cases h with
    | cons hlead _ _ hrest =>
      cases hrest with
      | nil hblanks =>
        intro hm
        rcases mem_append.mp hm with hm | hm
        · exact absurd (hlead _ hm) (by decide)
        · exact (mem_append.mp hm).elim hcomma fun hm => absurd (hblanks _ hm) (by decide)
  have hne : w ≠ [] := by
    cases h with
    | cons _ hw _ _ => exact hw.ne_nil
  rw [splitOperands, splitOn_of_not_mem ht, map_singleton, h.trim_eq, filter_cons_of_pos (by simpa using hne)]
  rfl

theorem splitOperands_call (ha : IsHexWord 2 a) (hf : IsHexWord 8 f)
    (h : Spells [a ++ [','], f] t ∨ Spells [a ++ ',' :: f] t) : splitOperands t = [a, f] := by
  have hcomma : ∀ {width : Nat} {t : Text}, IsHexWord width t → ',' ∉ t := fun ht => ht.not_mem (by decide)
  have hfirst : ∀ {lead : Text} (rest : Text), Blanks lead →
      splitOperands (lead ++ a ++ ',' :: rest) = a :: splitOperands rest := by
    intro lead rest hlead
    have hspells : Spells [a] (lead ++ (a ++ [])) := .cons hlead ha.isWord blanks_nil.breaksOff (.nil blanks_nil)
    rw [append_nil] at hspells
    have hoperand : IsOperand (lead ++ a) := by
      refine ⟨fun hnil => ha.isWord.ne_nil (hspells.trim_eq.symm.trans hnil), fun hm => ?_⟩
      exact (mem_append.mp hm).elim (fun hm => absurd (hlead _ hm) (by decide)) (hcomma ha)
    rw [splitOperands_append_comma hoperand, hspells.trim_eq]
  rcases h with h | h
  · cases h with
    | @cons lead _ rest _ hlead _ _ hrest =>
      rw [append_assoc, ← append_assoc, singleton_append, hfirst rest hlead,
        splitOperands_of_spells hrest (hcomma hf)]
  · cases h with
    | @cons lead _ rest _ hlead _ hbreaks hrest =>
      have hlast : Spells [f] (f ++ rest) := Spells.cons blanks_nil hf.isWord hbreaks hrest
      rw [append_assoc, ← append_assoc, cons_append, hfirst (f ++ rest) hlead,
        splitOperands_of_spells hlast (hcomma hf)]

theorem accepts_pushForms (h : (name, width) ∈ pushForms) :
    0 < width ∧ ∃ (k : Nat) (op : Opcode), opcodes[k]? = some op ∧ op.name = name ∧
      ∀ operands, op.accepts operands = fits [isHexToken] operands := by
  simp only [pushForms, mem_cons, Prod.mk.injEq, not_mem_nil, or_false] at h
  rcases h with ⟨rfl, rfl⟩ | ⟨rfl, rfl⟩ | ⟨rfl, rfl⟩ | ⟨rfl, rfl⟩
  · exact ⟨by decide, 1, ⟨"PUSHI", .bytes 4⟩, rfl, rfl, fun _ => rfl⟩
  · exact ⟨by decide, 2, ⟨"PUSHL", .bytes 1⟩, rfl, rfl, fun _ => rfl⟩
  · exact ⟨by decide, 3, ⟨"PUSHG", .bytes 4⟩, rfl, rfl, fun _ => rfl⟩
  · exact ⟨by decide, 4, ⟨"PUSHF", .bytes 4⟩, rfl, rfl, fun _ => rfl⟩

theorem behindFirst_of_spells {ws : List Text} (h : Spells (w :: ws) line) :
    firstWord line = w ∧ Spells ws (behindFirst line) := by
  obtain ⟨rest, hstart, hrest, hword⟩ := h.first
  refine ⟨hword, ?_⟩
  rwa [behindFirst, hstart, hword, drop_left]

/-- **A push in full is an instruction for the assembler.** -/
theorem IsPushLine.isInstruction (h : IsPushLine name width line)
    (hname : (name, width) ∈ pushForms) : IsInstruction line := by
  obtain ⟨digits, hdigits, hspells⟩ := h
  obtain ⟨hwidth, k, op, hop, rfl, haccepts⟩ := accepts_pushForms hname
  obtain ⟨n, rfl⟩ := Nat.exists_eq_succ_of_ne_zero hwidth.ne'
  obtain ⟨hword, hrest⟩ := behindFirst_of_spells hspells
  refine ⟨k, op, hword.symm ▸ find?_opcodes hop, ?_⟩
  rw [haccepts, splitOperands_of_spells hrest (hdigits.not_mem (by decide)), map_singleton,
    unescapeLine_eq_self (hdigits.not_mem (by decide)), fits, hdigits.isHexToken]
  rfl

/-- **A call in full is an instruction for the assembler.** -/
theorem IsCallLine.isInstruction (h : IsCallLine "CALLB" line) : IsInstruction line := by
  obtain ⟨a, f, ha, hf, hspells⟩ := h
  have hrest : firstWord line = "CALLB".toList ∧
      (Spells [a ++ [','], f] (behindFirst line) ∨ Spells [a ++ ',' :: f] (behindFirst line)) := by
    rcases hspells with hspells | hspells
    · exact ⟨(behindFirst_of_spells hspells).1, .inl (behindFirst_of_spells hspells).2⟩
    · exact ⟨(behindFirst_of_spells hspells).1, .inr (behindFirst_of_spells hspells).2⟩
  have hop : opcodes[41]? = some ⟨"CALLB", .bytes 5⟩ := rfl
  refine ⟨41, ⟨"CALLB", .bytes 5⟩, hrest.1.symm ▸ find?_opcodes hop, ?_⟩
  rw [splitOperands_call ha hf hrest.2, map_cons, map_singleton,
    unescapeLine_eq_self (ha.not_mem (by decide)), unescapeLine_eq_self (hf.not_mem (by decide))]
  change fits [isHexToken, isHexToken] [a, f] = true
  rw [fits, fits, ha.isHexToken, hf.isHexToken]
  rfl

/-! ### Names -/

/-- The instructions that extraction knows by their full form only. -/
def knownInFull : List Text := ["PUSHI", "PUSHL", "PUSHG", "PUSHF", "CALLB"]

def BeginsWith (name line : Text) : Prop :=
  ∃ rest, trimStart line = name ++ rest ∧ ∀ c, rest.head? = some c → isWordChar c = false

theorem mem_of_find? {k : Nat} {op : Opcode} (h : opcodes.find? name = some (k, op)) :
    name ∈ operations ∨ name ∈ knownInFull := by
  have hnames : ∀ op ∈ opcodes, op.name ∈ operations ∨ op.name ∈ knownInFull := by
    decide +kernel
  obtain ⟨hop, rfl⟩ := of_find?_opcodes h
  exact hnames op (mem_of_getElem? hop)

theorem isWordChar_of_mem_name (h : name ∈ operations ∨ name ∈ knownInFull) (hc : c ∈ name) :
    isWordChar c = true := by
  have hletters : ((operations ++ knownInFull).all fun w => w.all isBasicLetter) = true := by
    decide +kernel
  exact isWordChar_of_basic (.inl (all_eq_true.mp (all_eq_true.mp hletters name (mem_append.mpr h)) c hc))

theorem isOperation_name (h : name ∈ operations ∨ name ∈ knownInFull) :
    isOperation name = operations.contains name := by
  rw [isOperation, takeWhile_eq_self_iff.mpr fun c hc => isWordChar_of_mem_name h hc]

/-- **What extraction takes for an operation begins with its name.** -/
theorem isOperation_firstWord_iff :
    isOperation (firstWord line) = true ↔ ∃ name ∈ operations, BeginsWith name line := by
  rw [isOperation, contains_iff_mem]
  constructor
  · intro h
    refine ⟨_, h, (firstWord line).dropWhile isWordChar ++ (trimStart line).dropWhile (fun c => !isBlank c), ?_, ?_⟩
    · rw [← append_assoc, takeWhile_append_dropWhile, firstWord, takeWhile_append_dropWhile]
    · intro c hc
      cases hword : (firstWord line).dropWhile isWordChar with
      | nil =>
        rw [hword, nil_append] at hc
        exact isWordChar_of_isBlank (by simpa using of_head?_dropWhile hc)
      | cons d rest =>
        rw [hword, cons_append, head?_cons] at hc
        exact of_head?_dropWhile (by rw [hword]; exact hc)
  · rintro ⟨name, hname, rest, hstart, hrest⟩
    have hword : ∀ c ∈ name, isWordChar c = true := fun c hc => isWordChar_of_mem_name (.inl hname) hc
    have hblank : ∀ c ∈ name, (!isBlank c) = true := fun c hc => by
      rw [Bool.not_eq_true', ← Bool.not_eq_true]
      exact fun h => absurd ((isWordChar_of_isBlank h).symm.trans (hword c hc)) (by decide)
    rw [firstWord, hstart, takeWhile_append_of_pos hblank, takeWhile_append_eq_left hword fun c hc => ?_]
    · exact hname
    · rw [head?_takeWhile] at hc
      exact hrest c (filter_eq_some_iff.mp hc).1

/-! ### Where the views differ -/

/-- A line that extraction knows as a push, or as a call of a function of the game. -/
def IsFullForm (line : Text) : Prop :=
  (∃ f ∈ pushForms, IsPushLine f.1 f.2 line) ∨ IsCallLine "CALLB" line

theorem IsCallLine.firstWord_eq (h : IsCallLine name line) : firstWord line = name := by
  obtain ⟨a, f, -, -, hspells | hspells⟩ := h
  · exact (behindFirst_of_spells hspells).1
  · exact (behindFirst_of_spells hspells).1

theorem IsFullForm.isInstruction (h : IsFullForm line) : IsInstruction line := by
  rcases h with ⟨f, hf, hpush⟩ | hcall
  · exact hpush.isInstruction hf
  · exact hcall.isInstruction

theorem isText_iff_not_form (hblank : trim line ≠ []) (hmark : isMark (trim line) = false) :
    isText line = true ↔
      ¬ IsFullForm line ∧ ¬ IsCallLine "CALLI" line ∧ ¬ isOperation (firstWord line) = true := by
  have hblank' : isBlankText line = false := by
    rw [← Bool.not_eq_true]
    exact fun h => hblank (Blanks.trim_eq_nil (all_eq_true.mp h))
  rw [isText_iff, hblank', hmark, ← Bool.not_eq_true]
  constructor
  · rintro ⟨hpush, hcall, hop, -⟩
    refine ⟨?_, callOperands?_eq_none_iff.mp (hcall "CALLI" (by decide)), hop⟩
    rintro (⟨f, hf, hline⟩ | hline)
    · exact operand?_eq_none_iff.mp (hpush f hf) hline
    · exact callOperands?_eq_none_iff.mp (hcall "CALLB" (by decide)) hline
  · rintro ⟨hfull, hcalli, hop⟩
    -- the other two calls are known by their names, too
    have hnamed : ∀ name ∈ operations, ¬ IsCallLine name line := fun name hname h => hop <| by
      rw [h.firstWord_eq, isOperation_name (.inl hname)]
      exact contains_iff_mem.mpr hname
    refine ⟨fun f hf => operand?_eq_none_iff.mpr fun h => hfull (.inl ⟨f, hf, h⟩), fun name hname => ?_, hop, rfl, rfl⟩
    refine callOperands?_eq_none_iff.mpr ?_
    simp only [callNames, mem_cons, not_mem_nil, or_false] at hname
    rcases hname with rfl | rfl | rfl | rfl
    · exact fun h => hfull (.inr h)
    · exact hcalli
    · exact hnamed _ (by rw [operations_eq]; decide)
    · exact hnamed _ (by rw [operations_eq]; decide)

/-- **Extraction and the assembler differ on two kinds of lines.** Extraction takes for a text what
the assembler takes for an instruction exactly if a push or a `CALLB` is not written in full. It
takes for an instruction what the assembler takes for a text exactly if the line begins with the
name of another instruction and its operands do not fit, or if it is a `CALLI` in full, which the
assembler does not know. -/
theorem text_views_differ_iff {line : Text} (hblank : trim line ≠ []) (hmark : isMark (trim line) = false)
    (hindent : (opcodes.find? (firstWord line)).isSome = true → trimStart line = line) :
    ((isText line = true ∧ ¬ ∃ t, readCodeLines opcodes [line] = [.text t]) ↔
      firstWord line ∈ knownInFull ∧ IsInstruction line ∧ ¬ IsFullForm line) ∧
    ((isText line = false ∧ ∃ t, readCodeLines opcodes [line] = [.text t]) ↔
      (∃ name ∈ operations, BeginsWith name line) ∧ ¬ IsInstruction line ∨ IsCallLine "CALLI" line) := by
  have hcalli : IsCallLine "CALLI" line → firstWord line ∉ knownInFull ∧ ¬ IsInstruction line := by
    intro h
    rw [IsInstruction, h.firstWord_eq]
    refine ⟨by decide, ?_⟩
    rintro ⟨k, op, hfind, -⟩
    rcases mem_of_find? hfind with hop | hop
    · exact absurd hop (by rw [operations_eq]; decide)
    · exact absurd hop (by decide)
  have hknown : firstWord line ∈ knownInFull → ¬ isOperation (firstWord line) = true := by
    intro h
    have hdisjoint : ∀ name ∈ knownInFull, name ∉ operations := by
      rw [operations_eq]
      decide
    rw [isOperation_name (.inr h), List.contains_iff_mem]
    exact hdisjoint _ h
  have hname : IsInstruction line → isOperation (firstWord line) = true ∨ firstWord line ∈ knownInFull := by
    rintro ⟨k, op, hfind, -⟩
    refine (mem_of_find? hfind).imp_left fun hop => ?_
    rw [isOperation_name (.inl hop)]
    exact List.contains_iff_mem.mpr hop
  rw [readCodeLines_eq_text_iff hblank hindent, not_not, ← isOperation_firstWord_iff, ← Bool.not_eq_true,
    isText_iff_not_form hblank hmark]
  refine ⟨⟨?_, ?_⟩, ⟨?_, ?_⟩⟩
  · rintro ⟨⟨hform, -, hop⟩, hinstruction⟩
    exact ⟨(hname hinstruction).resolve_left hop, hinstruction, hform⟩
  · rintro ⟨hmem, hinstruction, hform⟩
    exact ⟨⟨hform, fun h => (hcalli h).1 hmem, hknown hmem⟩, hinstruction⟩
  · rintro ⟨hform, hinstruction⟩
    by_contra hneither
    obtain ⟨hop, hcall⟩ := not_or.mp hneither
    exact hform ⟨fun h => hinstruction h.isInstruction, hcall, fun h => hop ⟨h, hinstruction⟩⟩
  · rintro (⟨hop, hinstruction⟩ | hcall)
    · exact ⟨fun hform => hform.2.2 hop, hinstruction⟩
    · exact ⟨fun hform => hform.2.1 hcall, (hcalli hcall).2⟩

theorem not_isFullForm_pushi_one : ¬ IsFullForm "PUSHI 1" := by
  have hpush : ∀ f ∈ pushForms, operand? f.1 f.2 "PUSHI 1" = none := by decide
  rintro (⟨f, hf, hline⟩ | hline)
  · exact operand?_eq_none_iff.mp (hpush f hf) hline
  · exact callOperands?_eq_none_iff.mp (by decide) hline

theorem text_views_differ_iff_pushi_one :
    trim "PUSHI 1" ≠ [] ∧ isMark (trim "PUSHI 1") = false ∧ trimStart "PUSHI 1" = "PUSHI 1".toList ∧
      isText "PUSHI 1" = true ∧ ¬ ∃ t, readCodeLines opcodes ["PUSHI 1"] = [.text t] :=
  ⟨by decide, by decide, by decide,
    (text_views_differ_iff (by decide) (by decide) fun _ => by decide).1.mpr
      ⟨by decide, ⟨1, ⟨"PUSHI", .bytes 4⟩, by decide, by decide⟩, not_isFullForm_pushi_one⟩⟩

/-- A push with one digit is a text for extraction and an instruction for the assembler. -/
theorem pushi_one_differs :
    trim "PUSHI 1" ≠ [] ∧ isMark (trim "PUSHI 1") = false ∧ isText "PUSHI 1" = true ∧
      readCodeLines opcodes ["PUSHI 1"] = [.instruction "PUSHI" ["1"] "PUSHI 1"] := by
  refine ⟨by decide, by decide, ?_, by decide⟩
  have hword : firstWord "PUSHI 1" = "PUSHI".toList := by decide
  refine (isText_iff_not_form (by decide) (by decide)).mpr ⟨not_isFullForm_pushi_one, ?_, ?_⟩
  · exact callOperands?_eq_none_iff.mp (by decide)
  · rw [hword, isOperation_name (.inr (by decide)), operations_eq]
    decide

end Localizer.Dialogue
