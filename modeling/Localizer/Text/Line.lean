import Localizer.Text.Basic

/-!
# Lines

Two notions of line are in use. A *line break* is any of the characters that end a line on a
screen; texts are cut into lines at those. A file read as text first has its carriage returns
turned into line feeds, and is then cut at line feeds only.
-/

namespace Localizer.Text

def isLineBreak (c : Char) : Bool :=
  let n := c.toNat
  (0x0A ≤ n && n ≤ 0x0D) || (0x1C ≤ n && n ≤ 0x1E) || n == 0x85 || n == 0x2028 || n == 0x2029

/-- The lines of `t`, each with the break that ends it. A carriage return and a line feed together
are one break. The last line may have no break, and is not empty. -/
def linesWithBreaks : Text → List (Text × Text)
  | [] => []
  | '\r' :: '\n' :: t => ([], ['\r', '\n']) :: linesWithBreaks t
  | c :: t =>
    if isLineBreak c then ([], [c]) :: linesWithBreaks t
    else
      match linesWithBreaks t with
      | [] => [([c], [])]
      | (l, b) :: ls => (c :: l, b) :: ls

def lines (t : Text) : List Text := (linesWithBreaks t).map Prod.fst

def fullLines (t : Text) : List Text := (linesWithBreaks t).map fun (l, b) => l ++ b

/-- `t` with each carriage return, and each pair of carriage return and line feed, turned into a
line feed: what reading a file as text does. -/
def unifyNewlines : Text → Text
  | [] => []
  | '\r' :: '\n' :: t => '\n' :: unifyNewlines t
  | c :: t => (if c = '\r' then '\n' else c) :: unifyNewlines t

/-- The lines of a file read as text: cut after each line feed, which is dropped. -/
def fileLines (t : Text) : List Text :=
  let ps := splitOn '\n' t
  if ps.getLast? = some [] then ps.dropLast else ps

end Localizer.Text
