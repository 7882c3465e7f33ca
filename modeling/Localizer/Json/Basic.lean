import Localizer.Text.Basic

/-!
# JSON values

The values of JSON documents. An object keeps its members in the order in which their names first
appeared; a name that is given again takes the later value. Whole numbers and fractions are
different values, as they are written differently.
-/

namespace Localizer

inductive Json where
  | null
  | bool (b : Bool)
  /-- A number written without point and exponent. -/
  | int (n : Int)
  /-- A number written with a point or an exponent. -/
  | real (x : Float)
  | str (t : Text)
  | arr (items : List Json)
  | obj (members : List (Text × Json))
  deriving Inhabited

namespace Json

/-- Sets a member, in its old place if there is one. -/
def setMember (name : Text) (v : Json) : List (Text × Json) → List (Text × Json)
  | [] => [(name, v)]
  | (k, w) :: ms => if k = name then (k, v) :: ms else (k, w) :: setMember name v ms

def member? (name : Text) : Json → Option Json
  | obj ms => ms.lookup name
  | _ => none

/-- What counts as present in a condition: everything but null, false, zero and what is empty. -/
def truthy : Json → Bool
  | null => false
  | bool b => b
  | int n => n ≠ 0
  | real x => !(x == 0)
  | str t => !t.isEmpty
  | arr items => !items.isEmpty
  | obj ms => !ms.isEmpty

/-- The number that a value counts as, a truth value counting as one or zero. -/
def toInt? : Json → Option Int
  | bool b => some (if b then 1 else 0)
  | int n => some n
  | _ => none

end Json

end Localizer
