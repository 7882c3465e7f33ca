import Localizer.Text.Half

/-!
# UTF-8

Reading and writing UTF-8. Two readers share one step: the strict one refuses a byte string that is
not UTF-8, the lenient one passes over every byte that begins no character.
-/

namespace Localizer.Encoding.Utf8

def isTail (b : UInt8) : Bool := 0x80 ≤ b && b ≤ 0xBF

/-- The six bits that a continuing byte carries. -/
def tailBits (b : UInt8) : Nat := b.toNat - 0x80

/-- The character with code point `n`, if there is one and it needs more than `least - 1`. -/
def scalar? (least n : Nat) : Option Char :=
  if least ≤ n && n.isValidChar then some (Char.ofNat n) else none

/-- The character at the start of a byte string, with the number of bytes it takes. -/
def head? : Bytes → Option (Char × Nat)
  | [] => none
  | a :: rest =>
    if a < 0x80 then some (Char.ofNat a.toNat, 1)
    else if a < 0xC2 then none
    else if a < 0xE0 then
      match rest with
      | b :: _ =>
        if isTail b then (scalar? 0x80 ((a.toNat - 0xC0) * 64 + tailBits b)).map (·, 2) else none
      | _ => none
    else if a < 0xF0 then
      match rest with
      | b :: c :: _ =>
        if isTail b && isTail c then
          (scalar? 0x800 (((a.toNat - 0xE0) * 64 + tailBits b) * 64 + tailBits c)).map (·, 3)
        else none
      | _ => none
    else if a < 0xF5 then
      match rest with
      | b :: c :: d :: _ =>
        if isTail b && isTail c && isTail d then
          (scalar? 0x10000
            ((((a.toNat - 0xF0) * 64 + tailBits b) * 64 + tailBits c) * 64 + tailBits d)).map (·, 4)
        else none
      | _ => none
    else none

/-- The strict reader, after `skip` bytes of a character that is already read. -/
def decodeFrom? : Nat → Bytes → Option Text
  | _, [] => some []
  | skip + 1, _ :: bs => decodeFrom? skip bs
  | 0, b :: bs => do
    let (c, width) ← head? (b :: bs)
    return c :: (← decodeFrom? (width - 1) bs)

def decode? (bs : Bytes) : Option Text := decodeFrom? 0 bs

/-- The lenient reader, after `skip` bytes of a character that is already read. -/
def decodeLossyFrom : Nat → Bytes → Text
  | _, [] => []
  | skip + 1, _ :: bs => decodeLossyFrom skip bs
  | 0, b :: bs =>
    match head? (b :: bs) with
    | some (c, width) => c :: decodeLossyFrom (width - 1) bs
    | none => decodeLossyFrom 0 bs

/-- Reads UTF-8, passing over bytes that begin no character. -/
def decodeLossy (bs : Bytes) : Text := decodeLossyFrom 0 bs

def encode (t : Text) : Bytes := t.flatMap String.utf8EncodeChar

/-- Writes UTF-8, refusing a text with a half of a surrogate pair. -/
def encode? (t : Text) : Option Bytes := if t.any Text.isHalf then none else some (encode t)

/-- Writes UTF-8, leaving halves of surrogate pairs out. -/
def encodeLossy (t : Text) : Bytes := encode (t.filter fun c => !Text.isHalf c)

/-- The mark that may stand at the start of a text to announce its encoding. -/
def byteOrderMark : Char := '\uFEFF'

end Localizer.Encoding.Utf8
