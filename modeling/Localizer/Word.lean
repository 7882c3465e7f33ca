import Localizer.Text.Basic

/-!
# Words

Unsigned numbers stored in a fixed number of bytes, low byte first.
-/

namespace Localizer.Word

/-- The number that bytes spell, low byte first. -/
def value : Bytes → Nat
  | [] => 0
  | b :: bs => b.toNat + 256 * value bs

def bytes : Nat → Nat → Bytes
  | 0, _ => []
  | width + 1, n => UInt8.ofNat (n % 256) :: bytes width (n / 256)

def wrap (bits : Nat) (n : Int) : Nat := (n % (Nat.pow 2 bits : Nat)).toNat

def u32 (n : Int) : Bytes := bytes 4 (wrap 32 n)

def u8 (n : Int) : Bytes := bytes 1 (wrap 8 n)

/-- The word in the four bytes at an offset; bytes that are missing count as zero. -/
def u32At (bs : Bytes) (offset : Nat) : Nat := value ((bs.drop offset).take 4)

/-- The place of an offset in a field of `width` bytes of a string of `length` bytes, offsets below
zero counting from the end; none if the field does not fit. -/
def place? (width length : Nat) (offset : Int) : Option Nat :=
  let start := if offset < 0 then offset + length else offset
  if 0 ≤ start && start + width ≤ length then some start.toNat else none

def read? (width : Nat) (bs : Bytes) (offset : Int) : Option Nat :=
  (place? width bs.length offset).map fun i => value ((bs.drop i).take width)

/-- The byte string with other bytes in the place of the `width` bytes at `i`. -/
def overwrite (bs : Bytes) (i width : Nat) (new : Bytes) : Bytes := bs.take i ++ new ++ bs.drop (i + width)

/-- The byte string with a number put into the `width` bytes at an offset. -/
def write? (width : Nat) (bs : Bytes) (offset : Int) (n : Nat) : Option Bytes :=
  (place? width bs.length offset).map fun i => overwrite bs i width (bytes width n)

def signed (bits n : Nat) : Int := if n < Nat.pow 2 (bits - 1) then n else (n : Int) - (Nat.pow 2 bits : Nat)

end Localizer.Word
