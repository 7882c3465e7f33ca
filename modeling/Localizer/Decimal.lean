import Localizer.Text.Casing
import Localizer.Text.Numeral

/-!
# Floating-point numbers and decimal text

A finite double is `±m · 2^q` for integers `m` and `q`. Everything that turns a double into an
integer or into digits starts from this form, in exact arithmetic.
-/

namespace Localizer.Decimal

/-- A finite double taken apart: `(-1)^negative · mantissa · 2^exponent`. -/
structure Binary where
  negative : Bool
  /-- The integer mantissa, below 2^53. -/
  mantissa : Nat
  exponent : Int
  deriving DecidableEq, Repr

/-- The parts of a double, unless it is infinite or not a number. -/
def Binary.ofFloat? (x : Float) : Option Binary :=
  let bits := x.toBits.toNat
  let negative := bits / Nat.pow 2 63 == 1
  let e : Nat := bits / Nat.pow 2 52 % 2048
  let f : Nat := bits % Nat.pow 2 52
  if e = 2047 then none
  else if e = 0 then some ⟨negative, f, -1074⟩
  else some ⟨negative, f + Nat.pow 2 52, (e : Int) - 1075⟩

/-- `n / d` to the nearest integer, a tie going to the even neighbour. -/
def roundDiv (n d : Nat) : Nat :=
  let q := n / d
  let r := n % d
  if 2 * r < d then q else if d < 2 * r then q + 1 else q + q % 2

namespace Binary

def fraction (b : Binary) : Nat × Nat :=
  if 0 ≤ b.exponent then (b.mantissa * Nat.pow 2 b.exponent.toNat, 1) else (b.mantissa, Nat.pow 2 (-b.exponent).toNat)

def withSign (b : Binary) (n : Nat) : Int := if b.negative then -(n : Int) else n

def trunc (b : Binary) : Int := b.withSign (b.fraction.1 / b.fraction.2)

/-- The greatest integer not above the value. -/
def floor (b : Binary) : Int := Int.fdiv (b.withSign b.fraction.1) b.fraction.2

/-- The nearest integer, a tie going to the even neighbour. -/
def round (b : Binary) : Int := b.withSign (roundDiv b.fraction.1 b.fraction.2)

end Binary

/-- The power of two that the last bit of the double nearest to `n / d` stands for: the quotient has
53 bits above it, unless it is too small for a double to have them all. -/
def unitExponent (n d : Nat) : Int :=
  let e : Int := (n.log2 : Int) - d.log2 - 52
  let long := if 0 ≤ e then d * Nat.pow 2 53 * Nat.pow 2 e.toNat ≤ n else d * Nat.pow 2 53 ≤ n * Nat.pow 2 (-e).toNat
  let short := if 0 ≤ e then n < d * Nat.pow 2 52 * Nat.pow 2 e.toNat else n * Nat.pow 2 (-e).toNat < d * Nat.pow 2 52
  max (-1074) (if long then e + 1 else if short then e - 1 else e)

/-- The double nearest to `n / d`, a tie going to the even neighbour; none if it is beyond all
doubles. The bits of a double are those of its mantissa with those of its exponent above, so that a
mantissa that is rounded up to a power of two carries over into the exponent. -/
def ofFraction? (n d : Nat) : Option Float :=
  if n = 0 then some 0
  else
    let e := unitExponent n d
    let m := if 0 ≤ e then roundDiv n (d * Nat.pow 2 e.toNat) else roundDiv (n * Nat.pow 2 (-e).toNat) d
    let bits := (e + 1074).toNat * Nat.pow 2 52 + m
    if bits < 0x7FF0000000000000 then some (Float.ofBits (UInt64.ofNat bits)) else none

/-- The double nearest to the quotient of two integers, unless it is beyond all doubles. -/
def quotient? (a : Int) (b : Nat) : Option Float :=
  (ofFraction? a.natAbs b).map fun x => if a < 0 then -x else x

/-- The double nearest to an integer, unless it is beyond all doubles. -/
def ofInt? (n : Int) : Option Float := quotient? n 1

def trunc? (x : Float) : Option Int := (Binary.ofFloat? x).map Binary.trunc

def floor? (x : Float) : Option Int := (Binary.ofFloat? x).map Binary.floor

def round? (x : Float) : Option Int := (Binary.ofFloat? x).map Binary.round

/-- An integer is at most a double. Nothing is at most what is not a number. -/
def intLe (n : Int) (x : Float) : Bool :=
  match floor? x with
  | some m => n ≤ m
  | none => x > 0

/-- A double is at most an integer. What is not a number is at most nothing. -/
def leInt (x : Float) (n : Int) : Bool :=
  match Binary.ofFloat? x with
  | some b => b.withSign b.fraction.1 ≤ n * b.fraction.2
  | none => x < 0

/-! ## Reading decimal fractions

A decimal fraction has digits with at most one point among them and may have an exponent; single
underscores may stand between digits. The value is the nearest double. -/

open Text

/-- The double nearest to `n · 10^e`, infinite if it is beyond all doubles. Exponents beyond the
range of doubles are cut off, which does not change the result. -/
def nearest (n : Nat) (e : Int) : Float :=
  let x? := if 0 ≤ e then ofFraction? (n * Nat.pow 10 (min e.toNat 400)) 1
    else ofFraction? n (Nat.pow 10 (min (-e).toNat ((decimal n).length + 400)))
  x?.getD (1.0 / 0.0)

/-- Digits with single underscores between them, as values; none if the grouping is wrong. -/
def digitRun? : Text → Option (List Nat)
  | [] => some []
  | [c] => (decimalValue? c).map ([·])
  | c :: '_' :: d :: t => do return (← decimalValue? c) :: (← digitRun? (d :: t))
  | c :: d :: t => do return (← decimalValue? c) :: (← digitRun? (d :: t))

def spell (ds : List Nat) : Nat := ds.foldl (fun n d => n * 10 + d) 0

/-- A fraction without sign, for instance `12.5e3`. -/
def unsigned? (t : Text) : Option Float := do
  let (body, exponent) ←
    match t.span fun c => c ≠ 'e' && c ≠ 'E' with
    | (body, []) => some (body, (0 : Int))
    | (body, _ :: e) =>
      let (negative, digits) :=
        match e with
        | '-' :: ds => (true, ds)
        | '+' :: ds => (false, ds)
        | ds => (false, ds)
      match digitRun? digits with
      | some (d :: ds) => some (body, if negative then -(spell (d :: ds) : Int) else spell (d :: ds))
      | _ => none
  let (whole, places) := (splitOnce? '.' body).getD (body, [])
  let ws ← digitRun? whole
  let ps ← digitRun? places
  if ws.isEmpty && ps.isEmpty then none
  else some (nearest (spell (ws ++ ps)) (exponent - ps.length))

/-- The magnitude of a number: a fraction, infinity, or the mark of no number. -/
def magnitude? (t : Text) : Option Float :=
  let word := lower t
  if word = "inf" || word = "infinity" then some (1.0 / 0.0)
  else if word = "nan" then some (0.0 / 0.0)
  else unsigned? t

def signedNumber? : Text → Option Float
  | '-' :: t => (magnitude? t).map fun x => -x
  | '+' :: t => magnitude? t
  | t => magnitude? t

/-- Reads a decimal fraction with white space around it. -/
def read? (t : Text) : Option Float := signedNumber? (trimNumeral t)

/-! ## Decimal text of floating-point numbers

Two forms are written: with a fixed number of places, correctly rounded; and with the fewest digits
that still read back as the same double, nearest to it among those. -/

open Text

/-! ### Fixed places -/

/-- `n` units of the last of `places` decimal places, as text. -/
def pointed (places n : Nat) : Text :=
  let digits := padLeft (places + 1) '0' (decimal n)
  let whole := digits.take (digits.length - places)
  if places = 0 then whole else whole ++ '.' :: digits.drop (digits.length - places)

/-- A double with a fixed number of decimal places, ties to even. -/
def fixed (places : Nat) (x : Float) : Text :=
  match Binary.ofFloat? x with
  | none => if x.isNaN then "nan" else if x < 0 then "-inf" else "inf"
  | some b =>
    let (n, d) := b.fraction
    (if b.negative then "-" else "") ++ pointed places (roundDiv (n * Nat.pow 10 places) d)

/-- As `fixed`, with a plus sign on what has no minus sign. -/
def fixedSigned (places : Nat) (x : Float) : Text :=
  match fixed places x with
  | '-' :: t => '-' :: t
  | t => '+' :: t

/-! ### Fewest digits -/

def scaled (n : Nat) (e : Int) : Nat × Nat :=
  if 0 ≤ e then (n * Nat.pow 10 e.toNat, 1) else (n, Nat.pow 10 (-e).toNat)

/-- Whether `digits · 10^e` reads back as the double `b`: it lies within half the gap to the next
double on its side, the ends counting if the mantissa is even. -/
def readsBack (b : Binary) (digits : Nat) (e : Int) : Bool :=
  let (n, d) := scaled digits e
  -- in units of a quarter of the gap above
  let unit : Binary := { b with mantissa := 1, exponent := b.exponent - 2 }
  let (un, ud) := unit.fraction
  let value := n * ud
  let quarter := d * un
  let centre := 4 * b.mantissa * quarter
  let below := if b.mantissa = Nat.pow 2 52 && b.exponent ≠ -1074 then quarter else 2 * quarter
  let above := 2 * quarter
  if b.mantissa % 2 = 0 then centre ≤ value + below && value ≤ centre + above
  else centre < value + below && value < centre + above

/-- The decimal exponent `e` with `10^e ≤ value < 10^(e+1)`, for a value that is not zero; the
search starts below and has `fuel` steps. -/
def leadingExponent (n d : Nat) : Nat → Int → Int
  | 0, e => e
  | fuel + 1, e =>
    let (pn, pd) := scaled 1 (e + 1)
    if pn * d ≤ n * pd then leadingExponent n d fuel (e + 1) else e

/-- The digits and exponent of `digits · 10^e` nearest to `b` among the numbers with `count` digits
that read back, if there are any. -/
def candidate? (b : Binary) (lead : Int) (count : Nat) : Option (Nat × Int) :=
  let (n, d) := b.fraction
  let e := lead - (count - 1 : Nat)
  let (sn, sd) := scaled 1 e
  let low := n * sd / (d * sn)
  let nearest := roundDiv (n * sd) (d * sn)
  let other := if nearest = low then low + 1 else low
  if readsBack b nearest e then some (nearest, e)
  else if readsBack b other e then some (other, e)
  else none

/-- The fewest digits that read back as `b`, with their exponent. -/
def shortest (b : Binary) : Nat × Int :=
  let (n, d) := b.fraction
  let lead := leadingExponent n d 640 (-330)
  ((List.range 17).findSome? fun k => candidate? b lead (k + 1)).getD (0, 0)

/-- Digits without trailing zeros, which the exponent takes up. -/
def stripZeros : Nat → Nat → Int → Nat × Int
  | 0, n, e => (n, e)
  | fuel + 1, n, e => if n % 10 = 0 && n ≠ 0 then stripZeros fuel (n / 10) (e + 1) else (n, e)

/-- The text of a double: the fewest digits that read back, positional from 0.0001 up to 10^16, with
at least one place after the point. -/
def shortestText (x : Float) : Text :=
  match Binary.ofFloat? x with
  | none => if x.isNaN then "nan" else if x < 0 then "-inf" else "inf"
  | some b =>
    let sign : Text := if b.negative then "-" else ""
    if b.mantissa = 0 then sign ++ "0.0"
    else
      let (n, e) := shortest b
      let (n, e) := stripZeros 20 n e
      let digits := decimal n
      let point := digits.length + e
      sign ++
        if -4 < point && point ≤ 16 then
          if point ≤ 0 then "0." ++ List.replicate (-point).toNat '0' ++ digits
          else if digits.length ≤ point.toNat then
            digits ++ List.replicate (point.toNat - digits.length) '0' ++ ".0"
          else digits.take point.toNat ++ '.' :: digits.drop point.toNat
        else
          let exponent := point - 1
          let mantissa := if digits.length = 1 then digits else digits.take 1 ++ '.' :: digits.drop 1
          mantissa ++ (if exponent < 0 then "e-" else "e+") ++ padLeft 2 '0' (decimal exponent.natAbs)

end Localizer.Decimal
