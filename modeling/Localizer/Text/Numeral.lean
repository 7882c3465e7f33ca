import Localizer.Text.CharSet

/-!
# Integer numerals

Reading and writing whole numbers. A numeral may have white space around it, a sign, and single
underscores between its digits; the decimal digits of every script count as digits. A base may be
announced by `0x`, `0o` or `0b`. Decimal numerals of excessive length are neither read nor written.
-/

namespace Localizer.Text

/-- The code points of the digit zero in each script that has decimal digits; the other nine digits
of the script follow it. -/
def zeroDigits : List Nat :=
  [0x30, 0x660, 0x6F0, 0x7C0, 0x966, 0x9E6, 0xA66, 0xAE6, 0xB66, 0xBE6, 0xC66, 0xCE6, 0xD66, 0xDE6, 0xE50,
   0xED0, 0xF20, 0x1040, 0x1090, 0x17E0, 0x1810, 0x1946, 0x19D0, 0x1A80, 0x1A90, 0x1B50, 0x1BB0, 0x1C40,
   0x1C50, 0xA620, 0xA8D0, 0xA900, 0xA9D0, 0xA9F0, 0xAA50, 0xABF0, 0xFF10, 0x104A0, 0x10D30, 0x11066,
   0x110F0, 0x11136, 0x111D0, 0x112F0, 0x11450, 0x114D0, 0x11650, 0x116C0, 0x11730, 0x118E0, 0x11950,
   0x11C50, 0x11D50, 0x11DA0, 0x16A60, 0x16AC0, 0x16B50, 0x1D7CE, 0x1D7D8, 0x1D7E2, 0x1D7EC, 0x1D7F6,
   0x1E140, 0x1E2F0, 0x1E950, 0x1FBF0]

def decimalValue? (c : Char) : Option Nat :=
  (zeroDigits.find? fun z => z ≤ c.toNat && c.toNat ≤ z + 9).map (c.toNat - ·)

def isDecimal (c : Char) : Bool := (decimalValue? c).isSome

/-- The value of a digit in a base of at most 36: a decimal digit of any script or a basic letter.
-/
def digitValue? (c : Char) : Option Nat :=
  match decimalValue? c with
  | some d => some d
  | none =>
    if 'a' ≤ c && c ≤ 'z' then some (c.toNat - 87)
    else if 'A' ≤ c && c ≤ 'Z' then some (c.toNat - 55)
    else none

def digitBelow? (base : Nat) (c : Char) : Option Nat := (digitValue? c).filter (· < base)

/-- Continues a numeral whose digits so far spell `n` and whose last character was a digit. -/
def digitsFrom? (base n : Nat) : Text → Option Nat
  | [] => some n
  | '_' :: c :: t => do digitsFrom? base (n * base + (← digitBelow? base c)) t
  | c :: t => do digitsFrom? base (n * base + (← digitBelow? base c)) t

/-- The number that digits in a base spell, with single underscores between them. -/
def digits? (base : Nat) : Text → Option Nat
  | [] => none
  | c :: t => do digitsFrom? base (← digitBelow? base c) t

/-- White space that may stand around a numeral: all but the separators of records. -/
def isNumeralBlank (c : Char) : Bool := isBlank c && !(0x1C ≤ c.toNat && c.toNat ≤ 0x1F)

def trimNumeral (t : Text) : Text := stripWhile isNumeralBlank t

/-- The longest decimal numeral that is read, in digits. -/
def maxDecimalDigits : Nat := 4300

/-- The number that decimal digits spell. Numerals of excessive length are refused. -/
def decimals? (t : Text) : Option Nat :=
  if (t.filter (· ≠ '_')).length ≤ maxDecimalDigits then digits? 10 t else none

/-- The number of digits at the start of a decimal numeral, after its sign, if there are more than
are read. Underscores stand only between digits. -/
def excessDigits? (t : Text) : Option Nat :=
  let t := trimNumeral t
  let t := if t.head? = some '-' || t.head? = some '+' then t.tail else t
  let run := t.takeWhile fun c => isDecimal c || c = '_'
  let groups := splitOn '_' run
  let count := (groups.map List.length).foldl (· + ·) 0
  if maxDecimalDigits < count && groups.all fun g => !g.isEmpty then some count else none

/-- What follows a base mark such as `0x`, of which `upper` and `lower` are the two spellings of the
letter. One underscore may follow the mark. -/
def afterMark? (lower upper : Char) : Text → Option Text
  | z :: m :: t =>
    if decimalValue? z = some 0 && (m = lower || m = upper) then
      some (if t.head? = some '_' then t.tail else t)
    else none
  | _ => none

/-- A numeral with a sign and white space around it. -/
def signed? (magnitude? : Text → Option Nat) (t : Text) : Option Int :=
  match trimNumeral t with
  | '-' :: t => (magnitude? t).map fun n => -(n : Int)
  | '+' :: t => (magnitude? t).map Int.ofNat
  | t => (magnitude? t).map Int.ofNat

def readDecimal? (t : Text) : Option Int := signed? decimals? t

/-- Reads a hexadecimal numeral, with or without its mark. -/
def readHex? (t : Text) : Option Int :=
  signed? (fun t => digits? 16 ((afterMark? 'x' 'X' t).getD t)) t

/-- The magnitude of a numeral that announces its own base; without a mark it is decimal, and then
only zero may begin with the digit zero. -/
def markedMagnitude? (t : Text) : Option Nat :=
  match afterMark? 'x' 'X' t, afterMark? 'o' 'O' t, afterMark? 'b' 'B' t with
  | some t, _, _ => digits? 16 t
  | _, some t, _ => digits? 8 t
  | _, _, some t => digits? 2 t
  | none, none, none =>
    let leadingZero := (t.head?.bind decimalValue?) = some 0
    (decimals? t).filter fun n => !leadingZero || n = 0

def readMarked? (t : Text) : Option Int := signed? markedMagnitude? t

def decimal (n : Nat) : Text := Nat.toDigits 10 n

def decimalInt : Int → Text
  | .ofNat n => decimal n
  | .negSucc n => '-' :: decimal (n + 1)

/-- An integer in decimal, unless it has too many digits to be written. -/
def decimalInt? (n : Int) : Option Text :=
  if (decimal n.natAbs).length ≤ maxDecimalDigits then some (decimalInt n) else none

/-- A number in lower-case hexadecimal with at least `width` digits. -/
def lowerHex (width n : Nat) : Text := padLeft width '0' (Nat.toDigits 16 n)

def upperHexDigit (c : Char) : Char := if 'a' ≤ c && c ≤ 'f' then Char.ofNat (c.toNat - 32) else c

/-- A number in upper-case hexadecimal with at least `width` digits. -/
def upperHex (width n : Nat) : Text := padLeft width '0' ((Nat.toDigits 16 n).map upperHexDigit)

end Localizer.Text
