import Localizer.Decimal
import Localizer.Fault

/-!
# Numbers

A number is whole as long as it is made from whole numbers; a quotient is always a fraction. The
fields of a key frame are whole and become fractions between two key frames, and the figures of a
movie are whole or not as they are given.

Whole numbers have no bound but fractions do, so that what mixes both can fail: a whole number
beyond all fractions cannot become one, and what is infinite or not a number cannot become whole.
-/

namespace Localizer

inductive Number where
  | whole (n : Int)
  | real (x : Float)

namespace Number

def fraction (n : Int) : Except Fault Float := (Decimal.ofInt? n).elim (.error .unbounded) .ok

/-- The quotient of two whole numbers, of which the second is positive. -/
def quotient (a : Int) (b : Nat) : Except Fault Float := (Decimal.quotient? a b).elim (.error .unbounded) .ok

def toFloat : Number → Except Fault Float
  | whole n => fraction n
  | real x => .ok x

/-- Why a fraction without an integer part has none. -/
def notWhole (x : Float) : Fault := if x.isNaN then .badNumeral else .unbounded

def cut (x : Float) : Except Fault Int := (Decimal.trunc? x).elim (.error (notWhole x)) .ok

def rounded (x : Float) : Except Fault Int := (Decimal.round? x).elim (.error (notWhole x)) .ok

def floored (x : Float) : Except Fault Int := (Decimal.floor? x).elim (.error (notWhole x)) .ok

def trunc : Number → Except Fault Int
  | whole n => .ok n
  | real x => cut x

def round : Number → Except Fault Int
  | whole n => .ok n
  | real x => rounded x

def add : Number → Number → Except Fault Number
  | whole a, whole b => .ok (whole (a + b))
  | a, b => return real ((← a.toFloat) + (← b.toFloat))

def sub : Number → Number → Except Fault Number
  | whole a, whole b => .ok (whole (a - b))
  | a, b => return real ((← a.toFloat) - (← b.toFloat))

def mul : Number → Number → Except Fault Number
  | whole a, whole b => .ok (whole (a * b))
  | a, b => return real ((← a.toFloat) * (← b.toFloat))

/-- The quotient by a number that is positive, always a fraction. -/
def div : Number → Number → Except Fault Float
  | whole a, whole b => quotient a b.toNat
  | a, b => return (← a.toFloat) / (← b.toFloat)

def le : Number → Number → Bool
  | whole a, whole b => a ≤ b
  | whole a, real y => Decimal.intLe a y
  | real x, whole b => Decimal.leInt x b
  | real x, real y => x ≤ y

def lt (a b : Number) : Bool := a.le b && !b.le a

end Number

end Localizer
