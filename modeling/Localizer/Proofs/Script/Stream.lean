import Localizer.Proofs.Script.Assembly

/-!
# Code as a stream of instructions

Code has no marks between its instructions: where one ends is told by its opcode, and for a branch
table by its count. Complete instructions are found again one by one, and the lines that show them
are encoded as the same bytes. The code of a line is one complete instruction as well, with one
exception: the count of a branch table of 256 words or more leaves words out, which are taken for
instructions.
-/

namespace Localizer.Script

open List Text Except Word UInt8

variable {operands : List Text} {pool1 pool2 : List (Text × Nat)} {payload : Bytes}

variable {name : Text} {op : Opcode} {codes : List Bytes}
variable {k : Nat} {code : Bytes} {is : List Instruction}

/-! ### Complete instructions and their lines -/

theorem encodeLine_of_encodes {i : Instruction} (h : Encodes i code) (raw : Text)
    (pool1 pool2 : List (Text × Nat)) :
    encodeLine opcodes pool1 pool2 (.instruction i.name i.operands raw) = .ok code := by
  obtain ⟨b, op, hop, hcomplete, hi, rfl⟩ := h
  have hname : i.name = op.name := congrArg Instruction.name hi
  have hoperands : i.operands = op.payload.operands i.payload := congrArg Instruction.operands hi
  have hpayload := encodeOperands_operands (mem_of_getElem? hop) hcomplete op.name pool1 pool2
  rw [hname, hoperands, encodeLine_instruction (find?_opcodes hop) hpayload, UInt8.ofNat_toNat]

theorem mapM_encodeLine_lines (h : Forall₂ Encodes is codes) (pool1 pool2 : List (Text × Nat)) :
    (readCodeLines opcodes (is.map fun i => (Item.instruction i).line)).mapM (encodeLine opcodes pool1 pool2) =
      .ok codes := by
  unfold readCodeLines
  induction h with
  | nil => rfl
  | @cons i code is codes hi _ ih =>
    obtain ⟨raw, hraw⟩ := readCodeLine_of_encodes hi
    rw [map_cons, filterMap_cons, hraw, mapM_cons, encodeLine_of_encodes hi, ih]
    rfl

/-- **Assembling the disassembly is the identity.** Code that is put together from complete
instructions is taken apart into just those, and the lines that show them are read and encoded as
the same bytes, instruction by instruction. -/
theorem reassemble_disassemble {codes : List Bytes} (h : ∀ code ∈ codes, IsInstruction code)
    (pool1 pool2 : List (Text × Nat)) :
    List.Forall₂ Encodes (disassemble opcodes codes.flatten) codes ∧
      (readCodeLines opcodes ((disassemble opcodes codes.flatten).map fun i => (Item.instruction i).line)).mapM
        (encodeLine opcodes pool1 pool2) = .ok codes := by
  obtain ⟨is, his⟩ := exists_instructions h
  rw [disassemble_flatten his]
  exact ⟨his, mapM_encodeLine_lines his pool1 pool2⟩

/-- A branch table of two words, a call with its count behind its function, a call between scripts,
and an instruction without operands. -/
theorem reassemble_disassemble_four :
    ∃ codes : List Bytes, codes.flatten =
        [0x24, 2, 1, 0, 0, 0, 2, 0, 0, 0, 0x29, 7, 0, 0, 0, 3, 0x28, 1, 0, 0, 0, 2, 0, 0, 0, 4, 0x2C] ∧
      codes.length = 4 ∧
      (readCodeLines opcodes ((disassemble opcodes codes.flatten).map fun i => (Item.instruction i).line)).mapM
        (encodeLine opcodes [] []) = .ok codes := by
  exact ⟨[[0x24, 2, 1, 0, 0, 0, 2, 0, 0, 0], [0x29, 7, 0, 0, 0, 3], [0x28, 1, 0, 0, 0, 2, 0, 0, 0, 4], [0x2C]],
    rfl, rfl, (reassemble_disassemble (by decide) [] []).2⟩

/-! ### Lines and their instructions -/

def CodeLine.opcodeName : CodeLine → Text
  | .text _ => "PUSHI"
  | .instruction name _ _ => name

/-- The number of words of a branch table that its count leaves out, the count being one byte. The
first operand of a branch table is the count, the others are its words. -/
def CodeLine.uncounted : CodeLine → Nat
  | .text _ => 0
  | .instruction name operands _ => if name = "BTBL" then (operands.length - 1) / 256 * 256 else 0

theorem payload_eq_table_iff : ∀ op ∈ opcodes, op.payload = .table ↔ op.name = "BTBL" := by decide

@[simp] theorem length_u8 (n : Int) : (u8 n).length = 1 := length_bytes 1 _

theorem length_encodeOperands {size : Nat} (hp : op.payload = .bytes size)
    (h : encodeOperands name operands op pool1 pool2 = .ok payload) : payload.length = size := by
  unfold encodeOperands at h
  rw [hp] at h
  split at h
  · next heq => cases heq
  · next heq =>
    cases heq
    rw [← ok.inj h, length_nil]
  · next heq =>
    cases heq
    split at h
    · obtain ⟨a, -, h⟩ := exists_of_bind_ok h
      rw [← ok.inj h, length_u8]
    · cases h
  · next heq =>
    cases heq
    split at h
    · obtain ⟨a, -, h⟩ := exists_of_bind_ok h
      rw [← ok.inj h, length_u32]
    · cases h
  · next heq =>
    cases heq
    split at h
    · obtain ⟨a, -, h⟩ := exists_of_bind_ok h
      obtain ⟨b, -, h⟩ := exists_of_bind_ok h
      rw [← ok.inj h, length_append, length_u32, length_u8]
    · cases h
  · next heq =>
    cases heq
    split at h
    · by_cases hname : name = "JMPG"
      all_goals
        simp only [hname, if_true, if_false] at h
        obtain ⟨a, -, h⟩ := exists_of_bind_ok h
        obtain ⟨b, -, h⟩ := exists_of_bind_ok h
        rw [← ok.inj h, length_append, length_u32, length_u32]
    · cases h
  · next heq =>
    cases heq
    split at h
    · by_cases hname : name = "CALLG"
      all_goals
        simp only [hname, if_true, if_false] at h
        obtain ⟨a, -, h⟩ := exists_of_bind_ok h
        obtain ⟨b, -, h⟩ := exists_of_bind_ok h
        obtain ⟨c, -, h⟩ := exists_of_bind_ok h
        rw [← ok.inj h, length_append, length_append, length_u32, length_u32, length_u8]
    · cases h
  · cases h

theorem u8_natCast (n : Nat) : u8 n = [ofNat n] := by
  have hwrap : wrap 8 n % 256 = n % 256 := by
    change ((n : Int) % ((256 : Nat) : Int)).toNat % 256 = _
    omega
  rw [u8, bytes, bytes, hwrap]
  congr 1
  apply UInt8.toNat_inj.mp
  simp

theorem encodeOperands_table (hp : op.payload = .table)
    (h : encodeOperands name operands op pool1 pool2 = .ok payload) :
    ∃ words : Bytes, payload = ofNat (operands.length - 1) :: words ∧
      words.length = (operands.length - 1) * 4 := by
  unfold encodeOperands at h
  rw [hp] at h
  cases operands with
  | nil => cases h
  | cons count entries =>
    obtain ⟨n, -, h⟩ := exists_of_bind_ok h
    obtain ⟨ws, hws, h⟩ := exists_of_bind_ok h
    have hlen : entries.length = ws.length := (forall₂_of_mapM hws).length_eq
    refine ⟨(ws.map fun w : Nat => u32 w).flatten, ?_, ?_⟩
    · rw [← ok.inj h, u8_natCast, length_cons, Nat.add_sub_cancel, hlen, singleton_append]
    · rw [length_cons, Nat.add_sub_cancel, hlen]
      simp [length_flatten, Function.comp_def]

theorem encodes_of_complete {op : Opcode} (hop : opcodes[k]? = some op)
    (h : op.payload.Complete payload) :
    Encodes ⟨op.name, payload, op.payload.operands payload⟩ (ofNat k :: payload) :=
  ⟨ofNat k, op, by rwa [toNat_ofNat_of_getElem?_opcodes hop], h, rfl, rfl⟩

/-- **The code of a line begins with one complete instruction of the line's opcode.** After it come
the words of a branch table that its count leaves out, and nothing else. -/
theorem exists_encodes_of_encodeLine {l : CodeLine}
    (h : encodeLine opcodes pool1 pool2 l = .ok code) :
    ∃ i own surplus, Encodes i own ∧ code = own ++ surplus ∧ i.name = l.opcodeName ∧
      surplus.length = l.uncounted * 4 := by
  cases l with
  | text t =>
    obtain ⟨_, hfind, h⟩ := exists_of_bind_ok h
    obtain rfl := ok.inj hfind
    obtain ⟨offset, -, h⟩ := exists_of_bind_ok h
    obtain rfl := ok.inj h
    exact ⟨_, _, [], @encodes_of_complete (u32 offset) 1 ⟨"PUSHI", .bytes 4⟩ rfl (length_u32 offset),
      (append_nil _).symm, rfl, rfl⟩
  | instruction name operands raw =>
    obtain ⟨⟨k, op⟩, hfind, h⟩ := exists_of_bind_ok h
    obtain ⟨payload, hpayload, h⟩ := exists_of_bind_ok h
    obtain rfl := ok.inj h
    have hfind : opcodes.find? name = some (k, op) := by
      cases hx : opcodes.find? name with
      | none => rw [hx] at hfind; cases hfind
      | some x => rw [hx] at hfind; exact congrArg some (ok.inj hfind)
    obtain ⟨hop, rfl⟩ := of_find?_opcodes hfind
    have htable := payload_eq_table_iff op (mem_of_getElem? hop)
    cases hp : op.payload with
    | table =>
      obtain ⟨words, rfl, hwords⟩ := encodeOperands_table hp hpayload
      -- the count is the number of words modulo 256, and so many of them belong to the instruction
      have hcount : (ofNat (operands.length - 1)).toNat = (operands.length - 1) % 256 := by simp
      have hown : op.payload.Complete
          (ofNat (operands.length - 1) :: words.take ((operands.length - 1) % 256 * 4)) := by
        rw [hp]
        exact ⟨_, _, rfl, by rw [hcount, length_take]; omega⟩
      refine ⟨_, _, words.drop ((operands.length - 1) % 256 * 4), encodes_of_complete hop hown, ?_, rfl, ?_⟩
      · rw [cons_append, cons_append, take_append_drop]
      · rw [CodeLine.uncounted, if_pos (htable.mp hp), length_drop]
        omega
    | bytes size =>
      have hown : op.payload.Complete payload := by
        rw [hp]
        exact length_encodeOperands hp hpayload
      have hname : op.name ≠ "BTBL" := fun hname => by
        simp [htable.mpr hname] at hp
      refine ⟨_, _, [], encodes_of_complete hop hown, (append_nil _).symm, rfl, ?_⟩
      rw [CodeLine.uncounted, if_neg hname, Nat.zero_mul, length_nil]

theorem disassemble_flatten_append (h : Forall₂ Encodes is codes) (rest : Bytes) :
    disassemble opcodes (codes.flatten ++ rest) = is ++ disassemble opcodes rest := by
  induction h with
  | nil => rfl
  | cons hi _ ih => rw [flatten_cons, append_assoc, disassemble_append hi, ih, cons_append]

theorem forall₂_encodes_of_counted {code : List CodeLine}
    (h : Forall₂ (fun l c => encodeLine opcodes pool1 pool2 l = .ok c) code codes)
    (hcounted : ∀ l ∈ code, l.uncounted = 0) :
    ∃ is, Forall₂ Encodes is codes ∧ is.map Instruction.name = code.map CodeLine.opcodeName := by
  induction h with
  | nil => exact ⟨[], .nil, rfl⟩
  | @cons l c code codes hl _ ih =>
    obtain ⟨i, own, surplus, hi, rfl, hname, hsurplus⟩ := exists_encodes_of_encodeLine hl
    rw [hcounted l mem_cons_self, Nat.zero_mul, length_eq_zero_iff] at hsurplus
    obtain ⟨is, his, hnames⟩ := ih fun l hl => hcounted l (mem_cons_of_mem _ hl)
    refine ⟨i :: is, .cons ?_ his, by rw [map_cons, map_cons, hname, hnames]⟩
    rwa [hsurplus, append_nil]

theorem mapM_of_assembleParts {rows : List Row} {code : List CodeLine} {ps : Parts}
    (h : assembleParts rows code = .ok ps) :
    ∃ pool1 pool2, Forall₂ (fun l c => encodeLine opcodes pool1 pool2 l = .ok c) code ps.code := by
  obtain ⟨⟨offsets, pool⟩, -, h⟩ := exists_of_bind_ok h
  obtain ⟨codes, hcodes, h⟩ := exists_of_bind_ok h
  obtain rfl := ok.inj h
  exact ⟨_, _, forall₂_of_mapM hcodes⟩

/-- **The assembled stream has one instruction for each line of code**, in order and with the line's
opcode, as long as no branch table has more words than its count can say. With the first table that
does, the words that its count leaves out are taken for the instructions that follow it. -/
theorem disassemble_assembleParts {rows : List Row} (hne : rows ≠ []) (ls : List Text) :
    ∃ ps, assembleParts rows (readCodeLines opcodes ls) = .ok ps ∧
      ((∀ l ∈ readCodeLines opcodes ls, l.uncounted = 0) →
        List.Forall₂ Encodes (disassemble opcodes ps.code.flatten) ps.code ∧
        (disassemble opcodes ps.code.flatten).map Instruction.name =
          (readCodeLines opcodes ls).map CodeLine.opcodeName) ∧
      ∀ before l after, readCodeLines opcodes ls = before ++ l :: after → (∀ m ∈ before, m.uncounted = 0) →
        ∃ is surplus, is.map Instruction.name = (before ++ [l]).map CodeLine.opcodeName ∧
          surplus.length = l.uncounted * 4 ∧
          disassemble opcodes ps.code.flatten =
            is ++ disassemble opcodes (surplus ++ (ps.code.drop (before.length + 1)).flatten) := by
  have haccepted : ∀ l ∈ readCodeLines opcodes ls, l.Accepted := fun l hl => accepted_of_mem_readCodeLines hl
  obtain ⟨_, _, _, _, _, _, hparts, -⟩ := assembleParts_ok hne haccepted
  obtain ⟨pool1, pool2, hlines⟩ := mapM_of_assembleParts hparts
  refine ⟨_, hparts, fun hcounted => ?_, fun before l after hsplit hcounted => ?_⟩
  · obtain ⟨is, his, hnames⟩ := forall₂_encodes_of_counted hlines hcounted
    rw [disassemble_flatten his]
    exact ⟨his, hnames⟩
  · rw [hsplit] at hlines
    obtain ⟨cs, cs', hcodes, hbefore, hafter⟩ := forall₂_append_left hlines
    obtain ⟨c, cs', hl, -, rfl⟩ := forall₂_cons_left_iff.mp hafter
    obtain ⟨is, his, hnames⟩ := forall₂_encodes_of_counted hbefore hcounted
    obtain ⟨i, own, surplus, hi, rfl, hname, hsurplus⟩ := exists_encodes_of_encodeLine hl
    refine ⟨is ++ [i], surplus, ?_, hsurplus, ?_⟩
    · rw [map_append, map_append, hnames, map_singleton, map_singleton, hname]
    · have hdrop : (cs ++ (own ++ surplus) :: cs').drop (before.length + 1) = cs' := by
        rw [hbefore.length_eq, append_cons, drop_left' (by simp)]
      rw [hcodes, hdrop, flatten_append, disassemble_flatten_append his, flatten_cons, append_assoc,
        disassemble_append hi, append_assoc, singleton_append]

/-- A text, a branch table whose count is corrected, and a call by names. -/
theorem disassemble_assembleParts_three :
    ∃ ps, assembleParts [⟨"m", 0, 0, 0, 0, 0⟩]
        (readCodeLines opcodes ["hello", "BTBL 09, 1, 2", "CALLG lib, m, 02"]) = .ok ps ∧
      (disassemble opcodes ps.code.flatten).map Instruction.name =
        [("PUSHI" : Text), ("BTBL" : Text), ("CALLG" : Text)] := by
  have hcounted : ∀ l ∈ readCodeLines opcodes ["hello", "BTBL 09, 1, 2", "CALLG lib, m, 02"], l.uncounted = 0 := by
    decide
  have hnames : (readCodeLines opcodes ["hello", "BTBL 09, 1, 2", "CALLG lib, m, 02"]).map CodeLine.opcodeName =
      [("PUSHI" : Text), ("BTBL" : Text), ("CALLG" : Text)] := by
    decide
  obtain ⟨ps, hps, hone, -⟩ := @disassemble_assembleParts [⟨"m", 0, 0, 0, 0, 0⟩] (by simp)
    ["hello", "BTBL 09, 1, 2", "CALLG lib, m, 02"]
  exact ⟨ps, hps, hnames ▸ (hone hcounted).2⟩

/-! ### A table with more words than its count can say -/

theorem disassemble_zeros (n : Nat) :
    disassemble opcodes (replicate n 0) = replicate n ⟨"NOP", [], []⟩ := by
  have hnop : Encodes ⟨"NOP", [], []⟩ [0] := ⟨0, ⟨"NOP", .bytes 0⟩, rfl, rfl, rfl, rfl⟩
  induction n with
  | zero => rw [replicate_zero, disassemble, replicate_zero]
  | succ n ih => rw [replicate_succ, ← singleton_append, disassemble_append hnop, ih, replicate_succ]

/-- The operands of a branch table of 256 words, all of them zero. -/
def longTable : List Text := replicate 257 "0"

theorem readCodeLine_longTable :
    ∃ raw, readCodeLine opcodes (instructionLine "BTBL" longTable) =
      some (.instruction "BTBL" longTable raw) := by
  have hself : longTable.map (fun o => unescapeLine (trim o)) = longTable := map_replicate
  have hoperand : ∀ o ∈ longTable, IsOperand o := by
    intro o ho
    rw [eq_of_mem_replicate ho]
    exact ⟨by decide, by decide⟩
  have hread := @readCodeLine_instructionLine longTable 0x24 ⟨"BTBL", .table⟩ rfl hoperand
  rw [hself] at hread
  exact hread (by decide +kernel)

theorem encodeLine_longTable (raw : Text) (pool1 pool2 : List (Text × Nat)) :
    encodeLine opcodes pool1 pool2 (.instruction "BTBL" longTable raw) =
      .ok ([0x24, 0] ++ replicate 1024 0) := by
  have hpayload : encodeOperands "BTBL" longTable ⟨"BTBL", .table⟩ [] [] = .ok (0 :: replicate 1024 0) := by
    decide +kernel
  obtain ⟨payload, hall⟩ := @encodeOperands_plain longTable ⟨"BTBL", .table⟩ (by decide) (by decide) (by decide +kernel)
  rw [hall [] []] at hpayload
  have hfind := find?_opcodes (show opcodes[0x24]? = some ⟨"BTBL", .table⟩ from rfl)
  rw [encodeLine_instruction hfind (hall pool1 pool2), ok.inj hpayload]
  rfl

/-- One line with a branch table of 256 words is read back as 1025 instructions: the count is zero,
and each byte of the words is an instruction. -/
theorem disassemble_assembleParts_longTable :
    ∃ l ps, readCodeLines opcodes [instructionLine "BTBL" longTable] = [l] ∧
      assembleParts [⟨"m", 0, 0, 0, 0, 0⟩] [l] = .ok ps ∧
      disassemble opcodes ps.code.flatten = ⟨"BTBL", [0], ["00"]⟩ :: List.replicate 1024 ⟨"NOP", [], []⟩ := by
  obtain ⟨raw, hraw⟩ := readCodeLine_longTable
  have hread := readCodeLines_singleton hraw
  have haccepted : ∀ l ∈ readCodeLines opcodes [instructionLine "BTBL" longTable], l.Accepted := fun l hl =>
    accepted_of_mem_readCodeLines hl
  have hrow : ([⟨"m", 0, 0, 0, 0, 0⟩] : List Row) ≠ [] := by simp
  obtain ⟨_, _, _, _, _, _, hparts, -⟩ := assembleParts_ok hrow haccepted
  rw [hread] at hparts
  obtain ⟨pool1, pool2, hlines⟩ := mapM_of_assembleParts hparts
  obtain ⟨c, cs, hc, hcs, hcodes⟩ := forall₂_cons_left_iff.mp hlines
  rw [encodeLine_longTable] at hc
  have htable : Encodes ⟨"BTBL", [0], ["00"]⟩ [0x24, 0] := ⟨0x24, ⟨"BTBL", .table⟩, rfl, ⟨0, [], rfl, rfl⟩, rfl, rfl⟩
  refine ⟨_, _, hread, hparts, ?_⟩
  rw [hcodes, forall₂_nil_left_iff.mp hcs, ← Except.ok.inj hc, flatten_singleton, disassemble_append htable,
    disassemble_zeros]

end Localizer.Script
