import Localizer.Text.Basic

/-!
# Halves of surrogate pairs

A JSON document can hold one half of a surrogate pair without the other. A half is no character, and
no encoding has it, but a text that is read from such a document goes on and fails only where it is
written. A half is kept as one of the characters U+10A000 to U+10A7FF, which are for private use. So
texts that hold these characters themselves are outside of this model of texts.
-/

namespace Localizer.Text

def firstHalf : Nat := 0xD800

def halfCount : Nat := 0x800

/-- The code point of the character that stands for the first half. -/
def firstHalfChar : Nat := 0x10A000

def ofHalf (unit : Nat) : Char := Char.ofNat (firstHalfChar + (unit - firstHalf))

/-- The code unit of the half that a character stands for, if it does. -/
def half? (c : Char) : Option Nat :=
  if firstHalfChar ≤ c.toNat && c.toNat < firstHalfChar + halfCount then some (firstHalf + (c.toNat - firstHalfChar))
  else none

def isHalf (c : Char) : Bool := (half? c).isSome

/-- The number by which characters are ordered. -/
def ordinal (c : Char) : Nat := (half? c).getD c.toNat

end Localizer.Text
