import Localizer.Proofs.Script.Instruction

/-!
# Lines of code, read and encoded

A line that shows an instruction is read as that instruction: its name, and its operands without the
white space around them. A line that was read can be encoded as soon as the pools have its texts,
and `Coded` says what its code is: a text is a push of its place, the operands of a jump or call
between scripts are two words that stand for a script and an entry point, and every other
instruction has a payload that no pool has a say in.
-/

namespace Localizer.Script

open List Text Except

variable {operands : List Text}

variable {op : Opcode} {l : CodeLine}
variable {k : Nat} {i : Instruction} {code : Bytes} {raw : Text} {ps : List (Text → Bool)} {pool1 pool2 : Pool}
  {codes codes' : List Bytes}

/-! ### Reading a line -/

theorem name_of_mem_opcodes : ∀ op ∈ opcodes, op.name ≠ [] ∧
    ∀ c ∈ op.name, isBlank c = false ∧ c ≠ '[' ∧ c ≠ Encoding.Utf8.byteOrderMark := by
  have hall : (opcodes.all fun op => !op.name.isEmpty &&
      op.name.all fun c => !isBlank c && (c != '[' && c != Encoding.Utf8.byteOrderMark)) = true := by
    decide
  simpa using hall

theorem readCodeLine_append (rest : Text) (hop : opcodes[k]? = some op)
    (hrest : ∀ c, rest.head? = some c → isBlank c = true)
    (hacc : op.accepts ((splitOperands rest).map unescapeLine) = true) :
    readCodeLine opcodes (op.name ++ rest) =
      some (.instruction op.name ((splitOperands rest).map unescapeLine) (op.name ++ trimEnd rest)) := by
  obtain ⟨hne, hname⟩ := name_of_mem_opcodes op (mem_of_getElem? hop)
  have hline : trimEnd (op.name ++ rest) = op.name ++ trimEnd rest :=
    dropEndWhile_append fun c hc => (hname c (mem_of_getLast? hc)).1
  obtain ⟨s, hs, hblank⟩ := trimEnd_append_dropped rest
  have hhead : ∀ c, (trimEnd rest).head? = some c → isBlank c = true := fun c hc => by
    refine hrest c ?_
    rw [hs, head?_append, hc]
    rfl
  have hword : firstWord (op.name ++ trimEnd rest) = op.name := firstWord_append (fun c hc => (hname c hc).1) hne hhead
  have hsplit : splitOperands (trimEnd rest) = splitOperands rest := by
    rw [hs, splitOperands_append_blanks hblank, ← hs]
  have hempty : (op.name ++ trimEnd rest).isEmpty = false := by simp [hne]
  rw [readCodeLine, hline, hempty]
  simp only [hword, find?_opcodes hop, drop_left, hsplit, hacc, if_true]
  rfl

def instructionLine (name : Text) (operands : List Text) : Text :=
  if operands.isEmpty then name else name ++ " " ++ join ", " operands

theorem line_instruction (i : Instruction) :
    (Item.instruction i).line = instructionLine i.name i.operands := rfl

/-- **The line of an instruction is read as the instruction.** -/
theorem readCodeLine_instructionLine {op : Opcode} (hop : opcodes[k]? = some op)
    (hoperands : ∀ o ∈ operands, IsOperand o)
    (hacc : op.accepts (operands.map fun o => unescapeLine (trim o)) = true) :
    ∃ raw, readCodeLine opcodes (instructionLine op.name operands) =
      some (.instruction op.name (operands.map fun o => unescapeLine (trim o)) raw) := by
  cases operands with
  | nil =>
    have h := readCodeLine_append [] hop (by simp) hacc
    rw [append_nil] at h
    exact ⟨_, h⟩
  | cons o os =>
    have hsplit := splitOperands_join hoperands (by simp)
    have hline : instructionLine op.name (o :: os) = op.name ++ (' ' :: join ", ".toList (o :: os)) := by
      simp [instructionLine]
    have h := readCodeLine_append (' ' :: join ", ".toList (o :: os)) hop
      (fun c hc => Option.some.inj hc ▸ rfl) (by rw [hsplit, map_map]; exact hacc)
    rw [hsplit, map_map, ← hline] at h
    exact ⟨_, h⟩

theorem readCodeLine_of_encodes (h : Encodes i code) :
    ∃ raw, readCodeLine opcodes (Item.instruction i).line =
      some (.instruction i.name i.operands raw) := by
  obtain ⟨b, op, hop, hcomplete, hi, -⟩ := h
  have hnum : ∀ o ∈ op.payload.operands i.payload, IsNumber o := op.payload.isNumber_operands i.payload
  have hself : (op.payload.operands i.payload).map (fun o => unescapeLine (trim o)) = op.payload.operands i.payload :=
    (map_congr_left fun o ho => (hnum o ho).unescapeLine_trim).trans (map_id' _)
  obtain ⟨raw, hraw⟩ := readCodeLine_instructionLine hop (fun o ho => (hnum o ho).isOperand)
    (by rw [hself]; exact op.accepts_operands (mem_of_getElem? hop) hcomplete)
  rw [hself] at hraw
  rw [line_instruction, hi]
  exact ⟨raw, hraw⟩

/-- A line of code as reading gives it: an instruction has operands that its opcode accepts. -/
def CodeLine.Accepted : CodeLine → Prop
  | .instruction name operands _ => ∃ k op, opcodes.find? name = some (k, op) ∧ op.accepts operands = true
  | .text _ => True

theorem accepted_of_readCodeLine (h : readCodeLine opcodes raw = some l) : l.Accepted := by
  unfold readCodeLine at h
  simp only at h
  split at h
  · cases h
  split at h
  · cases h
    trivial
  · next k op hfind =>
    split at h
    · next hacc =>
      cases h
      exact ⟨k, op, hfind, hacc⟩
    · cases h
      trivial

theorem accepted_of_mem_readCodeLines {ls : List Text} (h : l ∈ readCodeLines opcodes ls) :
    l.Accepted := by
  obtain ⟨raw, -, hraw⟩ := mem_filterMap.mp h
  exact accepted_of_readCodeLine hraw

theorem readCodeLines_append (ls ms : List Text) :
    readCodeLines opcodes (ls ++ ms) = readCodeLines opcodes ls ++ readCodeLines opcodes ms :=
  filterMap_append

theorem readCodeLines_cons {l : Text} {c : CodeLine} (h : readCodeLine opcodes l = some c)
    (ls : List Text) : readCodeLines opcodes (l :: ls) = c :: readCodeLines opcodes ls := by
  rw [readCodeLines, filterMap_cons, h]
  rfl

theorem readCodeLines_singleton {l : Text} {c : CodeLine} (h : readCodeLine opcodes l = some c) :
    readCodeLines opcodes [l] = [c] := readCodeLines_cons h []

/-! ### Encoding operands -/

theorem fits_cons {p : Text → Bool} (h : fits (p :: ps) operands = true) :
    ∃ a more, operands = a :: more ∧ p a = true ∧ fits ps more = true := by
  cases operands with
  | nil => cases h
  | cons a more => exact ⟨a, more, rfl, by simpa [fits] using h⟩

theorem reads_of_fits (h : fits (isHexToken :: ps) operands = true) :
    ∃ a more n, operands = a :: more ∧ readHexToken a = .ok n ∧ fits ps more = true := by
  obtain ⟨a, more, rfl, ha, hfits⟩ := fits_cons h
  obtain ⟨n, hn⟩ := readHexToken_of_isHexToken ha
  exact ⟨a, more, n, rfl, hn, hfits⟩

theorem encodeOperands_plain {op : Opcode} (hop : op ∈ opcodes)
    (hplain : namesScript op.name = false) (hacc : op.accepts operands = true) :
    ∃ payload, ∀ pool1 pool2, encodeOperands op.name operands op pool1 pool2 = .ok payload := by
  simp only [namesScript, Bool.or_eq_false_iff, decide_eq_false_iff_not] at hplain
  unfold Opcode.accepts at hacc
  unfold encodeOperands
  rcases payload_of_mem_opcodes op hop with hp | hp | hp | hp | hp | hp | hp <;> rw [hp] at hacc ⊢
  · obtain ⟨hne, hall⟩ := Bool.and_eq_true_iff.mp hacc
    have hhex := all_eq_true.mp hall
    cases operands with
    | nil => cases hne
    | cons count entries =>
      obtain ⟨n, hn⟩ := readHexToken_of_isHexToken (hhex count mem_cons_self)
      obtain ⟨ws, hws, -⟩ := mapM_ok_of_forall (R := fun _ _ => True) fun t ht =>
        (readHexToken_of_isHexToken (hhex t (mem_cons_of_mem count ht))).imp fun _ h => ⟨h, trivial⟩
      exact ⟨_, fun _ _ => by simp only [hn, hws]; rfl⟩
  · exact ⟨[], fun _ _ => rfl⟩
  · obtain ⟨a, more, n, rfl, hn, -⟩ := reads_of_fits hacc
    exact ⟨_, fun _ _ => by simp only [hn]; rfl⟩
  · obtain ⟨a, more, n, rfl, hn, -⟩ := reads_of_fits hacc
    exact ⟨_, fun _ _ => by simp only [hn]; rfl⟩
  · obtain ⟨a, more, n, rfl, hn, hacc⟩ := reads_of_fits hacc
    obtain ⟨b, more, m, rfl, hm, -⟩ := reads_of_fits hacc
    exact ⟨_, fun _ _ => by simp only [hn, hm]; rfl⟩
  · rw [if_neg hplain.1] at hacc
    obtain ⟨a, more, n, rfl, hn, hacc⟩ := reads_of_fits hacc
    obtain ⟨b, more, m, rfl, hm, -⟩ := reads_of_fits hacc
    exact ⟨_, fun _ _ => by simp only [hplain.1, if_false, hn, hm]; rfl⟩
  · rw [if_neg hplain.2] at hacc
    obtain ⟨a, more, n, rfl, hn, hacc⟩ := reads_of_fits hacc
    obtain ⟨b, more, m, rfl, hm, hacc⟩ := reads_of_fits hacc
    obtain ⟨c, more, l, rfl, hl, -⟩ := reads_of_fits hacc
    exact ⟨_, fun _ _ => by simp only [hplain.2, if_false, hn, hm, hl]; rfl⟩

/-- A word that an operand stands for: the number it is, or the place of its text. -/
def Stands (place : Text → Nat → Prop) (t : Text) (word : Bytes) : Prop :=
  ∃ n : Nat, word = Word.u32 n ∧ if isHexToken t = true then readHexToken t = .ok n else place t n

/-- What comes after the two words of a jump or call between scripts: nothing, or the argument
count. -/
def Trailer (name : Text) (operands : List Text) (tail : Bytes) : Prop :=
  (name = "JMPG" ∧ tail = []) ∨
    (name = "CALLG" ∧ ∃ a b c more n, operands = a :: b :: c :: more ∧ readHexToken c = .ok n ∧ tail = Word.u8 (n : Nat))

theorem Trailer.unique {name : Text} {tail tail' : Bytes} (h : Trailer name operands tail)
    (h' : Trailer name operands tail') : tail' = tail := by
  rcases h with ⟨hname, rfl⟩ | ⟨hname, a, b, c, more, n, rfl, hn, rfl⟩
  · rcases h' with ⟨-, rfl⟩ | ⟨hname', -⟩
    · rfl
    · exact absurd (hname.symm.trans hname') (by decide)
  · rcases h' with ⟨hname', -⟩ | ⟨-, _, _, _, _, m, hoperands, hm, rfl⟩
    · exact absurd (hname'.symm.trans hname) (by decide)
    · cases hoperands
      rw [ok.inj (hn.symm.trans hm)]

/-- The code of a line, given where the texts of the two string regions are. -/
inductive Coded (place1 place2 : Text → Nat → Prop) : CodeLine → Bytes → Prop
  | text {t : Text} {n : Nat} : place1 t n → Coded place1 place2 (.text t) (0x01 :: Word.u32 n)
  /-- A jump or call between scripts has a word for the script and a word for the entry point. -/
  | names {name a b : Text} {more : List Text} {raw : Text} {k : Nat} {op : Opcode} {p q tail : Bytes} :
    opcodes.find? name = some (k, op) → namesScript name = true → Stands place2 a p → Stands place1 b q →
      Trailer name (a :: b :: more) tail →
      Coded place1 place2 (.instruction name (a :: b :: more) raw) (UInt8.ofNat k :: (p ++ q ++ tail))
  | plain {name : Text} {operands : List Text} {raw : Text} {k : Nat} {op : Opcode} {payload : Bytes} :
    opcodes.find? name = some (k, op) → namesScript name = false →
      (∀ pool1 pool2, encodeOperands name operands op pool1 pool2 = .ok payload) →
      Coded place1 place2 (.instruction name operands raw) (UInt8.ofNat k :: payload)

def Pool.Place (pool : Pool) (t : Text) (n : Nat) : Prop := pool.offset? t = some n

theorem operandOffset_stands {pool : Pool} {t : Text}
    (h : isHexToken t = false → (pool.offset? t).isSome = true) :
    ∃ n : Nat, operandOffset pool.offsets t = .ok n ∧ Stands pool.Place t (Word.u32 n) := by
  by_cases ht : isHexToken t = true
  · obtain ⟨n, hn⟩ := readHexToken_of_isHexToken ht
    exact ⟨n, by rw [operandOffset_of_isHexToken ht, hn], n, rfl, by rwa [if_pos ht]⟩
  · obtain ⟨n, hn⟩ := Option.isSome_iff_exists.mp (h (by simpa using ht))
    have hlookup : pool.offsets.lookup t = some n := hn
    exact ⟨n, by rw [operandOffset, if_neg ht, hlookup]; rfl, n, rfl, by rwa [if_neg ht]⟩

theorem encodeOperands_names (hop : op ∈ opcodes) (hnames : namesScript op.name = true) (hacc : op.accepts operands = true)
    (h1 : ∀ a b more, operands = a :: b :: more → isHexToken b = false → (pool1.offset? b).isSome = true)
    (h2 : ∀ a more, operands = a :: more → isHexToken a = false → (pool2.offset? a).isSome = true) :
    ∃ a b more p q tail, operands = a :: b :: more ∧ Stands pool2.Place a p ∧ Stands pool1.Place b q ∧
      Trailer op.name operands tail ∧
      encodeOperands op.name operands op pool1.offsets pool2.offsets = .ok (p ++ q ++ tail) := by
  rcases eq_of_namesScript op hop hnames with rfl | rfl
  · obtain ⟨a, more, rfl, -, hacc⟩ := fits_cons (p := anyOperand) hacc
    obtain ⟨b, more, rfl, -, -⟩ := fits_cons hacc
    obtain ⟨n, hn, hp⟩ := operandOffset_stands (h2 a _ rfl)
    obtain ⟨m, hm, hq⟩ := operandOffset_stands (h1 a b more rfl)
    refine ⟨a, b, more, _, _, [], rfl, hp, hq, .inl ⟨rfl, rfl⟩, ?_⟩
    simp [encodeOperands, hn, hm, bind, Except.bind, pure, Except.pure]
  · obtain ⟨a, more, rfl, -, hacc⟩ := fits_cons (p := anyOperand) hacc
    obtain ⟨b, more, rfl, -, hacc⟩ := fits_cons hacc
    obtain ⟨c, more, rfl, hc, -⟩ := fits_cons hacc
    obtain ⟨n, hn, hp⟩ := operandOffset_stands (h2 a _ rfl)
    obtain ⟨m, hm, hq⟩ := operandOffset_stands (h1 a b _ rfl)
    obtain ⟨l, hl⟩ := readHexToken_of_isHexToken hc
    refine ⟨a, b, c :: more, _, _, Word.u8 l, rfl, hp, hq, .inr ⟨rfl, a, b, c, more, l, rfl, hl, rfl⟩, ?_⟩
    simp [encodeOperands, hn, hm, hl, bind, Except.bind, pure, Except.pure]

theorem encodeLine_instruction {name : Text} {places1 places2 : List (Text × Nat)} {payload : Bytes}
    (hfind : opcodes.find? name = some (k, op))
    (h : encodeOperands name operands op places1 places2 = .ok payload) :
    encodeLine opcodes places1 places2 (.instruction name operands raw) =
      .ok (UInt8.ofNat k :: payload) := by
  simp [encodeLine, hfind, h, bind, Except.bind, pure, Except.pure]

/-- **A line that was read is encoded once the pools have its texts.** -/
theorem encodeLine_coded (hacc : l.Accepted)
    (h1 : ∀ t, entryOrText? l = some t → (pool1.offset? t).isSome = true)
    (h2 : ∀ t, scriptName? l = some t → (pool2.offset? t).isSome = true) :
    ∃ code, encodeLine opcodes pool1.offsets pool2.offsets l = .ok code ∧
      Coded pool1.Place pool2.Place l code := by
  cases l with
  | text t =>
    obtain ⟨n, hn⟩ := Option.isSome_iff_exists.mp (h1 t rfl)
    have hlookup : pool1.offsets.lookup t = some n := hn
    refine ⟨_, ?_, .text hn⟩
    rw [encodeLine, find?_pushi, hlookup]
    rfl
  | instruction name operands raw =>
    obtain ⟨k, op, hfind, hacc⟩ := hacc
    obtain ⟨hop, rfl⟩ := of_find?_opcodes hfind
    cases hnames : namesScript op.name with
    | false =>
      obtain ⟨payload, hpayload⟩ := encodeOperands_plain (mem_of_getElem? hop) hnames hacc
      exact ⟨_, encodeLine_instruction hfind (hpayload _ _), .plain hfind hnames hpayload⟩
    | true =>
      obtain ⟨a, b, more, p, q, tail, rfl, hp, hq, htail, hpayload⟩ := encodeOperands_names (mem_of_getElem? hop) hnames hacc
        (fun a b more ho hb => h1 b (by subst ho; simp [entryOrText?, hnames, hb]))
        (fun a more ho ha => h2 a (by subst ho; simp [scriptName?, hnames, ha]))
      exact ⟨_, encodeLine_instruction hfind hpayload, .names hfind hnames hp hq htail⟩

theorem Coded.eq_of_encodes {place1 place2 : Text → Nat → Prop} {code' : Bytes}
    (hcode : Encodes i code) (hplain : namesScript i.name = false)
    (h : Coded place1 place2 (.instruction i.name i.operands raw) code') : code' = code := by
  obtain ⟨name, payload, operands⟩ := i
  obtain ⟨b, op, hop, hcomplete, hi, rfl⟩ := hcode
  simp only [Instruction.mk.injEq, true_and] at hi
  cases h with
  | names _ hnames _ _ _ => exact absurd (hplain.symm.trans hnames) (by decide)
  | plain hfind _ hpayload =>
    rw [hi.1, find?_opcodes hop] at hfind
    cases hfind
    have heq := hpayload [] []
    rw [hi.2, encodeOperands_operands (mem_of_getElem? hop) hcomplete] at heq
    rw [← ok.inj heq, UInt8.ofNat_toNat]

/-! ### The layout of code -/

/-- The codes of instructions of which each has the same opcode and the same length in both lists.
-/
def SameLayout (codes codes' : List Bytes) : Prop :=
  Forall₂ (fun code code' => code'.length = code.length ∧ code'.head? = code.head?) codes codes'

theorem SameLayout.length_flatten (h : SameLayout codes codes') :
    codes'.flatten.length = codes.flatten.length := by
  induction h with
  | nil => rfl
  | cons h _ ih => rw [flatten_cons, flatten_cons, length_append, length_append, h.1, ih]

theorem SameLayout.opcode_at (h : SameLayout codes codes') (k : Nat) :
    codes'.flatten[(codes.take k).flatten.length]? =
      codes.flatten[(codes.take k).flatten.length]? := by
  induction h generalizing k with
  | nil => rfl
  | @cons code code' codes codes' hcode _ ih =>
    obtain ⟨hlen, hhead⟩ := hcode
    cases k with
    | zero =>
      have hrest := ih 0
      simp only [take_zero, flatten_nil, length_nil, flatten_cons, ← head?_eq_getElem?,
        head?_append] at hrest ⊢
      rw [hhead, hrest]
    | succ k =>
      rw [take_succ_cons, flatten_cons, flatten_cons, flatten_cons, length_append,
        getElem?_append_right (by omega), getElem?_append_right (by omega), hlen, Nat.add_sub_cancel_left]
      exact ih k

/-! ## Replacing offsets

What replacing offsets by texts does at one instruction: nothing at a plain one, the two names at a
jump or call between scripts, and at a call that takes texts the pushes just before it. -/

open Word Localizer.Script.Ordinal

variable {strings1 strings2 : StringIndex} {before : List Item} {found : Found}

variable {tail : Bytes} {ps : List (Bytes × StringItem)} {name : Text} {function : Nat}

/-! ### Plain instructions -/

/-- An instruction that is listed as it is: no jump or call between scripts, and no call of one of
the functions that take texts. -/
def Instruction.IsPlain (i : Instruction) : Prop :=
  namesScript i.name = false ∧ (i.name = "CALLB" → 2 < value (i.payload.take 4))

theorem replaceOffsets_plain (h : i.IsPlain) :
    replaceOffsets argumentTable strings1 strings2 (before, found) i =
      (.instruction i :: before, found) := by
  obtain ⟨hnames, hfunction⟩ := h
  simp only [namesScript, Bool.or_eq_false_iff, decide_eq_false_iff_not] at hnames
  have hnone : textCalls.contains i.name = true →
      (argumentTable.lookup i.name).bind (fun fs => Assoc.get? (value (i.payload.take 4) : Int) fs) = none := by
    intro hcall
    have hcall : i.name = "CALLB" ∨ i.name = "CALLL" := by simpa [textCalls] using hcall
    rcases hcall with hname | hname
    · have hlt := hfunction hname
      have hlookup : argumentTable.lookup i.name = some [(0, [.number 1]), (1, [.number (-1)]), (2, [.number (-1)])] := by
        rw [hname]
        decide
      rw [hlookup, Option.bind_some]
      simp only [Assoc.get?]
      rw [if_neg (by omega), if_neg (by omega), if_neg (by omega)]
    · have hlookup : argumentTable.lookup i.name = some [] := by
        rw [hname]
        decide
      rw [hlookup]
      rfl
  unfold replaceOffsets
  simp only [hnames.1, hnames.2, decide_false, Bool.false_and, Bool.false_eq_true, if_false]
  split
  · next hcall =>
    rw [hnone (Bool.and_eq_true_iff.mp hcall).1]
  · rfl

theorem foldl_replaceOffsets_plain {is : List Instruction} (h : ∀ i ∈ is, i.IsPlain)
    (before : List Item) :
    is.foldl (replaceOffsets argumentTable strings1 strings2) (before, found) =
      ((is.map .instruction).reverse ++ before, found) := by
  induction is generalizing before with
  | nil => rfl
  | cons i is ih =>
    rw [foldl_cons, replaceOffsets_plain (h i mem_cons_self), ih fun i hi => h i (mem_cons_of_mem _ hi)]
    simp

/-! ### Jumps and calls between scripts -/

/-- The operands of a jump or call between scripts as they are listed. -/
def namedOperands (strings1 strings2 : StringIndex) (p q tail : Bytes) : List Text :=
  nameOrOffset (value p) (strings2.resolve? (value p)) ::
    nameOrOffset (value q) (strings1.resolve? (value q)) :: tail.map fun b => hexByte b.toNat

/-- The opcodes that go to another script, with what comes after the two words of each: nothing, or
the argument count. -/
def Crosses (name : Text) (tail : Bytes) : Prop :=
  (name = "JMPG" ∧ tail = []) ∨ (name = "CALLG" ∧ ∃ n, tail = [n])

theorem exists_opcode_between (h : Crosses name tail) :
    ∃ (k : Nat) (op : Opcode), opcodes[k]? = some op ∧ op.name = name ∧ op.payload = .bytes (8 + tail.length) ∧
      namesScript name = true ∧ ∀ a b, op.accepts (a :: b :: tail.map fun n => hexByte n.toNat) = true := by
  rcases h with ⟨rfl, rfl⟩ | ⟨rfl, n, rfl⟩
  · exact ⟨0x26, ⟨"JMPG", .bytes 8⟩, by decide, rfl, rfl, by decide, fun a b => rfl⟩
  · refine ⟨0x28, ⟨"CALLG", .bytes 9⟩, by decide, rfl, rfl, by decide, fun a b => ?_⟩
    simp [Opcode.accepts, fits, anyOperand, (isNumber_hexByte _).isHexToken]

theorem Crosses.trailer (h : Crosses name tail) (a b : Text) :
    Trailer name (a :: b :: tail.map fun n => hexByte n.toNat) tail := by
  rcases h with ⟨rfl, rfl⟩ | ⟨rfl, n, rfl⟩
  · exact .inl ⟨rfl, rfl⟩
  · exact .inr ⟨rfl, a, b, hexByte n.toNat, [], n.toNat, rfl, readHexToken_hexByte n, (u8_toNat n).symm⟩

theorem readCodeLine_crosses {a b : Text} (hname : Crosses name tail) (ha : IsOperand a) (hb : IsOperand b) :
    ∃ raw, readCodeLine opcodes (instructionLine name (a :: b :: tail.map fun n => hexByte n.toNat)) =
      some (.instruction name
        (unescapeLine (trim a) :: unescapeLine (trim b) :: tail.map fun n => hexByte n.toNat) raw) := by
  obtain ⟨k, op, hop, rfl, -, -, hacc⟩ := exists_opcode_between hname
  have hnumbers : ∀ o ∈ tail.map (fun n => hexByte n.toNat), IsNumber o := by
    intro o ho
    obtain ⟨n, -, rfl⟩ := mem_map.mp ho
    exact isNumber_hexByte _
  have hread : (a :: b :: tail.map fun n => hexByte n.toNat).map (fun o => unescapeLine (trim o)) =
      unescapeLine (trim a) :: unescapeLine (trim b) :: tail.map fun n => hexByte n.toNat := by
    exact congrArg (unescapeLine (trim a) :: unescapeLine (trim b) :: ·)
      ((map_congr_left fun o ho => (hnumbers o ho).unescapeLine_trim).trans (map_id' _))
  rw [← hread]
  refine readCodeLine_instructionLine hop ?_ (by rw [hread]; exact hacc _ _)
  intro o ho
  rcases mem_cons.mp ho with rfl | ho
  · exact ha
  rcases mem_cons.mp ho with rfl | ho
  · exact hb
  · exact (hnumbers o ho).isOperand

/-- The payload of a jump or call between scripts: two words, and the argument count of a call. -/
structure Between (name : Text) (payload p q tail : Bytes) : Prop where
  payload : payload = p ++ q ++ tail
  length_p : p.length = 4
  length_q : q.length = 4
  tail : Crosses name tail

theorem replaceOffsets_names {i : Instruction} {p q tail : Bytes} (h : Between i.name i.payload p q tail) :
    ∃ found', replaceOffsets argumentTable strings1 strings2 (before, found) i =
        (.instruction { i with operands := namedOperands strings1 strings2 p q tail } :: before, found') ∧
      ((strings2.resolve? (value p)).isSome → (strings1.resolve? (value q)).isSome →
        found' = (found.use2 (strings2.resolve? (value p))).use1 (strings1.resolve? (value q))) := by
  obtain ⟨hpayload, hp, hq, htail⟩ := h
  have hfirst : i.payload.take 4 = p := by rw [hpayload, append_assoc, take_left' hp]
  have hrest : i.payload.drop 4 = q ++ tail := by rw [hpayload, append_assoc, drop_left' hp]
  unfold replaceOffsets
  rcases htail with ⟨hname, rfl⟩ | ⟨hname, n, rfl⟩
  · have hlen : i.payload.length = 8 := by simp [hpayload, hp, hq]
    rw [append_nil] at hrest
    simp only [hname, hlen, hfirst, hrest, decide_true, Bool.and_self, if_true]
    exact ⟨_, rfl, fun _ _ => rfl⟩
  · have hlen : i.payload.length = 9 := by simp [hpayload, hp, hq]
    have hsecond : (i.payload.drop 4).take 4 = q := by rw [hrest, take_left' hq]
    have hlast : i.payload.drop 8 = [n] := by rw [hpayload, drop_left' (by simp [hp, hq])]
    have hother : ¬ ("CALLG".toList = "JMPG".toList) := by decide
    simp only [hname, hother, hlen, hfirst, hsecond, hlast, decide_true, decide_false, Bool.false_and, Bool.and_self,
      Bool.false_eq_true, if_false, if_true]
    refine ⟨_, rfl, fun hs2 hs1 => ?_⟩
    rw [if_pos hs2, if_pos hs1]

/-! ### Calls that take texts -/

def pushOf (word : Bytes) : Instruction := ⟨"PUSHI", word, [hexWord (value word)]⟩

def pushes (ps : List (Bytes × StringItem)) : List Item := ps.map fun p => .instruction (pushOf p.1)

def pushedTexts (ps : List (Bytes × StringItem)) : List Item :=
  ps.map fun p => .text p.1 (escapeLine p.2.text)

theorem replaceArgument_push {call : Instruction} {done todo : List Item} {word : Bytes}
    {it : StringItem} (hword : word.length = 4) (hit : strings1.resolve? (value word) = some it) :
    replaceArgument strings1 call function (done ++ .instruction (pushOf word) :: todo, found)
        (.number (done.length + 1)) = (done ++ .text word (escapeLine it.text) :: todo, found.use1 (some it)) := by
  have hpos : ¬ (number (done.length + 1)).toInt ≤ 0 := by
    simp only [toInt]
    omega
  have hindex : (number (done.length + 1)).toInt.toNat - 1 = done.length := by
    simp only [toInt]
    omega
  unfold replaceArgument
  simp only
  rw [if_neg hpos, hindex, getElem?_append_right (Nat.le_refl _), Nat.sub_self]
  simp only [getElem?_cons_zero, pushOf, decide_true, hword, Bool.and_self, if_true, hit]
  rw [set_append_right _ _ (Nat.le_refl _), Nat.sub_self, set_cons_zero]

theorem foldl_replaceArgument (call : Instruction) (function : Nat)
    (h : ∀ p ∈ ps, p.1.length = 4 ∧ strings1.resolve? (value p.1) = some p.2) (done : List Item) (found : Found) :
    ((range' done.length ps.length).map fun k : Nat => number (k + 1)).foldl
        (replaceArgument strings1 call function) (done ++ pushes ps, found) =
      (done ++ pushedTexts ps, { found with used1 := (ps.map fun p => p.2.start).reverse ++ found.used1 }) := by
  induction ps generalizing done found with
  | nil => rfl
  | cons p ps ih =>
    obtain ⟨hword, hit⟩ := h p mem_cons_self
    have hrest := ih (fun p hp => h p (mem_cons_of_mem _ hp)) (done ++ [.text p.1 (escapeLine p.2.text)])
      (found.use1 (some p.2))
    rw [length_append, length_singleton] at hrest
    rw [length_cons, range'_succ, map_cons, foldl_cons, pushes, map_cons,
      replaceArgument_push hword hit, append_cons]
    rw [pushes] at hrest
    rw [hrest]
    simp [pushedTexts, Found.use1]

theorem isPush_of_mem_pushes : ∀ it ∈ pushes ps, it.isPush = true := by
  intro it hit
  obtain ⟨p, -, rfl⟩ := mem_map.mp hit
  simp [Item.isPush, pushOf]

theorem targetPositions_texts {count : Nat} (hf : function ≤ 2) (hone : function = 0 → count = 1) :
    ∃ positions, (argumentTable.lookup ("CALLB" : Text)).bind (fun fs => Assoc.get? (function : Int) fs) = some positions ∧
      targetPositions positions count = (range' 0 count).map fun k : Nat => number (k + 1) := by
  have hlookup : argumentTable.lookup ("CALLB" : Text) =
      some [(0, [.number 1]), (1, [.number (-1)]), (2, [.number (-1)])] := by
    decide
  match function, hf, hone with
  | 0, _, hone =>
    rw [hone rfl]
    exact ⟨[.number 1], rfl, rfl⟩
  | 1, _, _ =>
    refine ⟨[.number (-1)], rfl, ?_⟩
    rw [← range_eq_range']
    rfl
  | 2, _, _ =>
    refine ⟨[.number (-1)], rfl, ?_⟩
    rw [← range_eq_range']
    rfl

theorem replaceOffsets_texts {i : Instruction} {ps : List (Bytes × StringItem)}
    (hname : i.name = "CALLB") (hlen : 4 ≤ i.payload.length) (hf : value (i.payload.take 4) ≤ 2)
    (hone : value (i.payload.take 4) = 0 → ps.length = 1)
    (hps : ∀ p ∈ ps, p.1.length = 4 ∧ strings1.resolve? (value p.1) = some p.2)
    (hbefore : ∀ it, before.head? = some it → it.isPush = false) :
    replaceOffsets argumentTable strings1 strings2 ((pushes ps).reverse ++ before, found) i =
      (.instruction i :: (pushedTexts ps).reverse ++ before,
        { found with used1 := (ps.map fun p => p.2.start).reverse ++ found.used1 }) := by
  -- the arguments are the pushes of the block, and none before it
  have hargs : ((pushes ps).reverse ++ before).takeWhile Item.isPush = (pushes ps).reverse := by
    rw [takeWhile_append_of_pos fun it hit => isPush_of_mem_pushes it (mem_reverse.mp hit)]
    cases before with
    | nil => simp
    | cons it before => rw [takeWhile_cons_of_neg (by simp [hbefore it rfl]), append_nil]
  obtain ⟨positions, hpositions, htargets⟩ := targetPositions_texts hf hone
  have hcount : (pushes ps).length = ps.length := length_map _
  have hfold := foldl_replaceArgument i (value (i.payload.take 4)) hps [] found
  rw [nil_append, nil_append, length_nil] at hfold
  have hjump : ¬ ("CALLB".toList = "JMPG".toList) := by decide
  have hcallg : ¬ ("CALLB".toList = "CALLG".toList) := by decide
  have hcall : textCalls.contains "CALLB".toList = true := by decide
  unfold replaceOffsets
  simp only [hname, hjump, hcallg, hcall, hlen, hpositions, hargs, reverse_reverse, hcount, htargets, hfold,
    decide_true, decide_false, Bool.false_and, Bool.true_and, Bool.false_eq_true, if_false, if_true]
  rw [drop_left' (by rw [length_reverse, hcount])]

end Localizer.Script
