import Localizer.Text.Basic

/-!
# UTF-16, low byte first

Reading UTF-16 in the byte order of the font tables. As for UTF-8 there is a strict reader, and a
lenient one that passes over what is no character.
-/

namespace Localizer.Encoding.Utf16

def unit (lo hi : UInt8) : Nat := lo.toNat + 256 * hi.toNat

def pair (high low : Nat) : Char := Char.ofNat (0x10000 + (high - 0xD800) * 0x400 + (low - 0xDC00))

/-- Reads UTF-16, refusing a surrogate unit that stands alone and a byte left over. -/
def decode? : Bytes → Option Text
  | [] => some []
  | [_] => none
  | a :: b :: rest =>
    let n := unit a b
    if n < 0xD800 || 0xE000 ≤ n then (decode? rest).map (Char.ofNat n :: ·)
    else if n < 0xDC00 then
      match rest with
      | c :: d :: rest =>
        let m := unit c d
        if 0xDC00 ≤ m && m < 0xE000 then (decode? rest).map (pair n m :: ·) else none
      | _ => none
    else none

/-- Reads UTF-16, passing over a surrogate unit that stands alone and a byte left over. -/
def decodeLossy : Bytes → Text
  | [] => []
  | [_] => []
  | a :: b :: rest =>
    let n := unit a b
    if n < 0xD800 || 0xE000 ≤ n then Char.ofNat n :: decodeLossy rest
    else
      match rest with
      | c :: d :: rest' =>
        let m := unit c d
        if n < 0xDC00 && 0xDC00 ≤ m && m < 0xE000 then pair n m :: decodeLossy rest'
        else decodeLossy (c :: d :: rest')
      | rest' => decodeLossy rest'

def swapBytes : Bytes → Bytes
  | a :: b :: rest => b :: a :: swapBytes rest
  | rest => rest

def unitBytes (n : Nat) : Bytes := [UInt8.ofNat (n % 256), UInt8.ofNat (n / 256)]

def encode (t : Text) : Bytes :=
  t.flatMap fun c =>
    let n := c.toNat
    if n < 0x10000 then unitBytes n
    else unitBytes (0xD800 + (n - 0x10000) / 0x400) ++ unitBytes (0xDC00 + (n - 0x10000) % 0x400)

end Localizer.Encoding.Utf16
