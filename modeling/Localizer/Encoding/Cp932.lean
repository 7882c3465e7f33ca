import Localizer.Encoding.Cp932.Rows
import Std.Data.HashMap

/-!
# Code page 932

The encoding of the game's texts: one byte for the basic and half-width characters, two for the
others. Reading goes by the rows of `Cp932.Rows`; writing takes the smallest code that reads back
as the character, with six characters of other Japanese code pages admitted as well.
-/

namespace Localizer.Encoding.Cp932

/-- A byte that begins a two-byte code. -/
def isLead (b : UInt8) : Bool := (0x81 ≤ b && b ≤ 0x9F) || (0xE0 ≤ b && b ≤ 0xFC)

/-- The place of a trail byte in its row. -/
def trailIndex? (b : UInt8) : Option Nat :=
  if 0x40 ≤ b && b ≤ 0x7E then some (b.toNat - 0x40)
  else if 0x80 ≤ b && b ≤ 0xFC then some (b.toNat - 0x41)
  else none

/-- The trail byte at a place of its row. -/
def trailAt (i : Nat) : UInt8 := UInt8.ofNat (if i < 63 then i + 0x40 else i + 0x41)

def rowTable : Array (Array Char) :=
  rows.foldl (fun table (lead, row) => table.setIfInBounds lead row.toList.toArray) (Array.replicate 256 #[])

/-- The character of a two-byte code. The lead bytes F0 to F9 are for private use. -/
def double? (lead trail : UInt8) : Option Char := do
  let i ← trailIndex? trail
  if 0xF0 ≤ lead && lead ≤ 0xF9 then
    return Char.ofNat (0xE000 + (lead.toNat - 0xF0) * 188 + i)
  else
    ((← rowTable[lead.toNat]?)[i]?).filter (· ≠ '.')

def single? (b : UInt8) : Option Char :=
  if b ≤ 0x80 then some (Char.ofNat b.toNat)
  else if b = 0xA0 then some '\uF8F0'
  else if 0xA1 ≤ b && b ≤ 0xDF then some (Char.ofNat (0xFF61 + (b.toNat - 0xA1)))
  else if 0xFD ≤ b then some (Char.ofNat (0xF8F1 + (b.toNat - 0xFD)))
  else none

/-- The character at the start of a byte string, with the number of bytes it takes. -/
def head? : Bytes → Option (Char × Nat)
  | [] => none
  | a :: rest =>
    if isLead a then
      match rest with
      | b :: _ => (double? a b).map (·, 2)
      | [] => none
    else (single? a).map (·, 1)

/-- The strict reader, after `skip` bytes of a character that is already read. -/
def decodeFrom? : Nat → Bytes → Option Text
  | _, [] => some []
  | skip + 1, _ :: bs => decodeFrom? skip bs
  | 0, b :: bs => do
    let (c, width) ← head? (b :: bs)
    return c :: (← decodeFrom? (width - 1) bs)

/-- Reads the code page, refusing a byte string with a code that has no character. -/
def decode? (bs : Bytes) : Option Text := decodeFrom? 0 bs

/-- The reader that puts `mark` in the place of each byte that begins no character, after `skip`
bytes of a character that is already read. -/
def decodeMarkingFrom (mark : Text) : Nat → Bytes → Text
  | _, [] => []
  | skip + 1, _ :: bs => decodeMarkingFrom mark skip bs
  | 0, b :: bs =>
    match head? (b :: bs) with
    | some (c, width) => c :: decodeMarkingFrom mark (width - 1) bs
    | none => mark ++ decodeMarkingFrom mark 0 bs

/-- Reads the code page, passing over bytes that begin no character. -/
def decodeLossy (bs : Bytes) : Text := decodeMarkingFrom [] 0 bs

/-- Reads the code page, with the replacement character for each byte that begins no character. -/
def decodeReplacing (bs : Bytes) : Text := decodeMarkingFrom ['\uFFFD'] 0 bs

/-! ### Writing -/

/-- Adds the characters of one row to the codes, from the trail place `i` on. A character keeps the
code it already has. -/
def addRow (lead : Nat) : Nat → List Char → Std.HashMap Nat (Nat × Nat) → Std.HashMap Nat (Nat × Nat)
  | _, [], codes => codes
  | i, c :: cs, codes => addRow lead (i + 1) cs (if c = '.' then codes else codes.insertIfNew c.toNat (lead, i))

/-- For each character of the rows, the smallest code that reads as it: lead byte and trail place.
-/
def codeTable : Std.HashMap Nat (Nat × Nat) :=
  rows.foldl (fun codes (lead, row) => addRow lead 0 row.toList codes) ∅

/-- Characters of other code pages that are written with the code of a look-alike. -/
def lookAlikes : List (Char × Nat × Nat) :=
  [('¢', 0x81, 0x91), ('£', 0x81, 0x92), ('¬', 0x81, 0xCA), ('‖', 0x81, 0x61),
   ('−', 0x81, 0x7C), ('〜', 0x81, 0x60)]

/-- The bytes of one character, if the code page has it. -/
def encodeChar? (c : Char) : Option Bytes :=
  let n := c.toNat
  if n ≤ 0x80 then some [UInt8.ofNat n]
  else if 0xFF61 ≤ n && n ≤ 0xFF9F then some [UInt8.ofNat (n - 0xFF61 + 0xA1)]
  else if n = 0xF8F0 then some [0xA0]
  else if 0xF8F1 ≤ n && n ≤ 0xF8F3 then some [UInt8.ofNat (n - 0xF8F1 + 0xFD)]
  else if 0xE000 ≤ n && n < 0xE000 + 1880 then
    some [UInt8.ofNat (0xF0 + (n - 0xE000) / 188), trailAt ((n - 0xE000) % 188)]
  else
    match lookAlikes.lookup c with
    | some (a, b) => some [UInt8.ofNat a, UInt8.ofNat b]
    | none => codeTable[n]?.map fun (lead, i) => [UInt8.ofNat lead, trailAt i]

/-- Writes the code page, refusing a text with a character that it lacks. -/
def encode? (t : Text) : Option Bytes := (t.mapM encodeChar?).map List.flatten

/-- Writes the code page, passing over the characters that it lacks. -/
def encodeLossy (t : Text) : Bytes := t.flatMap fun c => (encodeChar? c).getD []

end Localizer.Encoding.Cp932
