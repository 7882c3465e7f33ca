import Localizer.Fault
import Localizer.Word

/-!
# Instructions of a script

Taking the code of an image apart. A byte that is no opcode is passed over; an instruction that is
cut off by the end of the code ends the list.
-/

namespace Localizer.Script

/-! ## Opcodes of the script machine

An instruction is one opcode byte and its payload. Most opcodes have a payload of fixed size; the
branch table has a count and as many words as it says. The opcode is the position of its entry in
the table. -/

inductive Payload where
  /-- A count byte and as many words. -/
  | table
  | bytes (size : Nat)
  deriving DecidableEq, Repr

structure Opcode where
  name : Text
  payload : Payload
  deriving DecidableEq, Repr

/-- A table of opcodes: the opcode of an entry is its position. -/
abbrev OpcodeTable := List Opcode

/-- The opcode with a name, the last one if the table repeats it. -/
def OpcodeTable.find? (table : OpcodeTable) (name : Text) : Option (Nat × Opcode) :=
  (table.zipIdx.reverse.find? fun (op, _) => op.name = name).map fun (op, i) => (i, op)

def opcodes : OpcodeTable :=
  [⟨"NOP", .bytes 0⟩, ⟨"PUSHI", .bytes 4⟩, ⟨"PUSHL", .bytes 1⟩, ⟨"PUSHG", .bytes 4⟩,
   ⟨"PUSHF", .bytes 4⟩, ⟨"PUSHR", .bytes 0⟩, ⟨"POP", .bytes 0⟩, ⟨"POPL", .bytes 1⟩,
   ⟨"POPG", .bytes 4⟩, ⟨"POPF", .bytes 4⟩, ⟨"STIL", .bytes 5⟩, ⟨"STIG", .bytes 8⟩,
   ⟨"STIF", .bytes 8⟩, ⟨"INCL", .bytes 1⟩, ⟨"DECL", .bytes 1⟩, ⟨"INCG", .bytes 4⟩,
   ⟨"DECG", .bytes 4⟩, ⟨"EXCH", .bytes 0⟩, ⟨"NEG", .bytes 0⟩, ⟨"ADD", .bytes 0⟩,
   ⟨"SUB", .bytes 0⟩, ⟨"MUL", .bytes 0⟩, ⟨"DIV", .bytes 0⟩, ⟨"MOD", .bytes 0⟩,
   ⟨"AND", .bytes 0⟩, ⟨"OR", .bytes 0⟩, ⟨"NOT", .bytes 0⟩, ⟨"EQ", .bytes 0⟩,
   ⟨"NEQ", .bytes 0⟩, ⟨"LT", .bytes 0⟩, ⟨"GT", .bytes 0⟩, ⟨"LEQ", .bytes 0⟩,
   ⟨"GEQ", .bytes 0⟩, ⟨"B", .bytes 4⟩, ⟨"BZ", .bytes 4⟩, ⟨"BNZ", .bytes 4⟩,
   ⟨"BTBL", .table⟩, ⟨"JMPL", .bytes 4⟩, ⟨"JMPG", .bytes 8⟩, ⟨"CALLL", .bytes 5⟩,
   ⟨"CALLG", .bytes 9⟩, ⟨"CALLB", .bytes 5⟩, ⟨"RET", .bytes 0⟩, ⟨"RETN", .bytes 0⟩,
   ⟨"YIELD", .bytes 0⟩]

/-! ## Tokens of a script listing

Operands are written as hexadecimal numbers or as texts. A line break inside a text is written as
a backslash and the letter n. -/

open Text

def escapeLine (t : Text) : Text := replace "\n" "\\n" t

def unescapeLine (t : Text) : Text := replace "\\n" "\n" t

def hexWord (n : Int) : Text := upperHex 8 (Word.wrap 32 n)

def hexByte (n : Int) : Text := upperHex 2 (Word.wrap 8 n)

/-- The digits of a hexadecimal token, which may have the mark `0x`. -/
def hexDigits? (t : Text) : Option Text :=
  let digits (ds : Text) : Option Text := if !ds.isEmpty && ds.all fun c => (hexValue? c).isSome then some ds else none
  match t with
  | '0' :: x :: ds => if x = 'x' || x = 'X' then digits ds else digits t
  | _ => digits t

/-- Whether a token, apart from white space around it, is a hexadecimal number. -/
def isHexToken (t : Text) : Bool := (hexDigits? (trim t)).isSome

def readHexToken (t : Text) : Except Fault Nat :=
  if (trim t).isEmpty then .error (.script .emptyToken)
  else
    match hexDigits? (trim t) with
    | some ds => .ok (hexNumber ds)
    | none => .error (.script (.notHex t))

/-- The operands of an instruction: separated by commas, without white space around them, and none
of them empty. -/
def splitOperands (t : Text) : List Text := ((splitOn ',' t).map trim).filter fun p => !p.isEmpty

/-! ## Instructions of a script image -/

structure Instruction where
  name : Text
  payload : Bytes
  operands : List Text
  deriving DecidableEq, Repr

/-- The operands of a payload of fixed size as written in a listing. A call has its argument count
before its function, other than in the payload. -/
def showOperands (raw : Bytes) : List Text :=
  match raw with
  | [] => []
  | [a] => [hexByte a.toNat]
  | [_, _, _, _] => [hexWord (Word.value raw)]
  | [a, b, c, d, e] => [hexByte e.toNat, hexWord (Word.value [a, b, c, d])]
  | [a, b, c, d, e, f, g, h] => [hexWord (Word.value [a, b, c, d]), hexWord (Word.value [e, f, g, h])]
  | [a, b, c, d, e, f, g, h, i] =>
    [hexWord (Word.value [a, b, c, d]), hexWord (Word.value [e, f, g, h]), hexByte i.toNat]
  | _ => raw.map fun b => hexByte b.toNat

def showWords : Nat → Bytes → List Text
  | 0, _ => []
  | n + 1, bs => hexWord (Word.value (bs.take 4)) :: showWords n (bs.drop 4)

/-- The instruction after its opcode byte, with the rest of the code; none if it is cut off. -/
def Opcode.read? (op : Opcode) (code : Bytes) : Option (Instruction × Bytes) :=
  match op.payload with
  | .table =>
    match code with
    | [] => none
    | count :: rest =>
      if rest.length < count.toNat * 4 then none
      else
        some (⟨op.name, count :: rest.take (count.toNat * 4), hexByte count.toNat :: showWords count.toNat rest⟩,
          rest.drop (count.toNat * 4))
  | .bytes size =>
    if code.length < size then none
    else some (⟨op.name, code.take size, showOperands (code.take size)⟩, code.drop size)

theorem Opcode.length_read? {op : Opcode} {code rest : Bytes} {i : Instruction}
    (h : op.read? code = some (i, rest)) : rest.length ≤ code.length := by
  unfold Opcode.read? at h
  split at h
  · split at h
    · cases h
    · split at h
      · cases h
      · cases h; simp; omega
  · split at h
    · cases h
    · cases h; simp

def disassemble (table : OpcodeTable) (code : Bytes) : List Instruction :=
  match code with
  | [] => []
  | b :: rest =>
    match table[b.toNat]? with
    | none => disassemble table rest
    | some op =>
      match h : op.read? rest with
      | none => []
      | some (i, rest') =>
        have := Opcode.length_read? h
        i :: disassemble table rest'
termination_by code.length

end Localizer.Script
