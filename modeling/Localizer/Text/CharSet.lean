import Localizer.Text.Basic

/-!
# Blank characters and sets of characters

The white space that separates words: the control characters that move the cursor or separate
records, and the spaces and separators of Unicode. Stripping and splitting into words are defined
from this one class.
-/

namespace Localizer.Text

def isBlank (c : Char) : Bool :=
  let n := c.toNat
  (0x09 ≤ n && n ≤ 0x0D) || (0x1C ≤ n && n ≤ 0x20) || n == 0x85 || n == 0xA0 || n == 0x1680 ||
  (0x2000 ≤ n && n ≤ 0x200A) || n == 0x2028 || n == 0x2029 || n == 0x202F || n == 0x205F || n == 0x3000

def trimStart (t : Text) : Text := t.dropWhile isBlank

def trimEnd (t : Text) : Text := dropEndWhile isBlank t

def trim (t : Text) : Text := trimEnd (trimStart t)

def isBlankText (t : Text) : Bool := t.all isBlank

/-- The maximal runs of characters that are not white space. -/
def words (t : Text) : List Text :=
  (t.foldr (fun c ps => if isBlank c then [] :: ps else
    match ps with
    | [] => [[c]]
    | p :: ps => (c :: p) :: ps) [[]]).filter fun p => !p.isEmpty

/-- The first word of `t`, empty if there is none. -/
def firstWord (t : Text) : Text := (trimStart t).takeWhile fun c => !isBlank c

/-- `t` with each run of white space replaced by one space and none at either end. -/
def collapseBlanks (t : Text) : Text := join " " (words t)

/-! ## Sets of characters

A set of characters is given by ranges of code points. Large ones are written in a compact
notation, hexadecimal items that give how far a range starts behind the end of the one before and
how far it extends: `30-9 8-19 5` are the digits, the capital letters and the underscore. -/

/-- A set of characters as ranges of code points, both ends included. -/
structure CharSet where
  ranges : Array (Nat × Nat)

def hexValue? (c : Char) : Option Nat :=
  if '0' ≤ c && c ≤ '9' then some (c.toNat - 48)
  else if 'a' ≤ c && c ≤ 'f' then some (c.toNat - 87)
  else if 'A' ≤ c && c ≤ 'F' then some (c.toNat - 55)
  else none

/-- The number that hexadecimal digits spell, other characters counting as zero. -/
def hexNumber (t : Text) : Nat := t.foldl (fun n c => n * 16 + (hexValue? c).getD 0) 0

namespace CharSet

/-- The ranges that items spell, the range before them ending at `last`. -/
def rangesFrom (last : Nat) : List Text → List (Nat × Nat)
  | [] => []
  | item :: items =>
    let (gap, extent) := (splitOnce? '-' item).getD (item, [])
    let lo := last + hexNumber gap
    let hi := lo + hexNumber extent
    (lo, hi) :: rangesFrom hi items

def ofNotation (s : String) : CharSet := ⟨(rangesFrom 0 (words s.toList)).toArray⟩

def contains (s : CharSet) (c : Char) : Bool := s.ranges.any fun (lo, hi) => lo ≤ c.toNat && c.toNat ≤ hi

end CharSet

/-! ## Comments

In tables a comment begins with `//` or `;` and runs to the end of the line. -/

def beforeSlashes : Text → Text
  | [] => []
  | '/' :: '/' :: _ => []
  | c :: t => c :: beforeSlashes t

/-- A line without its comment and without white space at either end. -/
def stripComment (t : Text) : Text := trim (upTo ';' (beforeSlashes t))

def splitComment : Text → Text × Text
  | [] => ([], [])
  | ';' :: t => ([], ';' :: t)
  | '/' :: '/' :: t => ([], '/' :: '/' :: t)
  | c :: t => let (a, b) := splitComment t; (c :: a, b)

end Localizer.Text
