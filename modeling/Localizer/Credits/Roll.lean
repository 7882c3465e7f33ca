import Localizer.Fault
import Localizer.Text.Line

/-!
# The roll

The lines of the section `[000]` of the credits with their places on the roll, in the order in which
they pass.
-/

namespace Localizer.Credits

open Text

/-! ## Lines of the credits

A line of the credits is a text followed by its placement: the size of the letters, how it is
aligned (`L`, `R` or `C`), its column, and perhaps its row. A row with a sign counts from the row of
the line before. -/

structure Placement where
  size : Text
  align : Char
  x : Text
  y? : Option Text
  deriving DecidableEq, Repr

/-- The digits that a text begins with, and the rest. -/
def digits? (t : Text) : Option (Text × Text) :=
  let (ds, rest) := t.span isDecimal
  if ds.isEmpty then none else some (ds, rest)

/-- What follows the white space that a text begins with. -/
def afterBlanks? (t : Text) : Option Text := if t.head?.any isBlank then some (trimStart t) else none

/-- The row that a text begins with, which may have a sign, and the rest. -/
def row? : Text → Option (Text × Text)
  | c :: t => if c = '+' || c = '-' then (digits? t).map fun (ds, rest) => (c :: ds, rest) else digits? (c :: t)
  | [] => none

/-- Reads size, alignment and column, and gives the rest. White space may stand before. -/
def placementStart? (t : Text) : Option (Placement × Text) := do
  let (size, t) ← digits? (trimStart t)
  match ← afterBlanks? t with
  | align :: t =>
    if align = 'L' || align = 'R' || align = 'C' then
      let (x, t) ← digits? (← afterBlanks? t)
      return (⟨size, align, x, none⟩, t)
    else none
  | [] => none

/-- Reads a whole text as a placement, with its row if `hasRow` and else without one. White space
may stand around it. -/
def placement? (hasRow : Bool) (t : Text) : Option Placement := do
  let (p, t) ← placementStart? t
  if hasRow then
    let (y, t) ← row? (← afterBlanks? t)
    if isBlankText t then return { p with y? := some y } else none
  else if isBlankText t then return p else none

/-- Cuts a line before the first part that can be read as something, and gives both parts and what
was read. What stands before that part does not run over the end of a line. -/
def cutBefore? {α : Type} (read? : Text → Option α) : Text → Option (Text × Text × α)
  | [] => none
  | c :: t =>
    match read? (c :: t) with
    | some a => some ([], c :: t, a)
    | none => if c = '\n' then none else (cutBefore? read? t).map fun (s, u, a) => (c :: s, u, a)

/-- Cuts a line into a text and a placement, the text being as short as can be. -/
def cutPlacement? (hasRow : Bool) (line : Text) : Option (Text × Text × Placement) := cutBefore? (placement? hasRow) line

/-- A text without white space around it, and without double quotes around what is left. -/
def unquote (t : Text) : Text :=
  let t := trim t
  if 2 ≤ t.length && t.head? = some '"' && t.getLast? = some '"' then (t.drop 1).dropLast else t

def cutLine? (line : Text) : Option (Text × Text × Placement) :=
  match (cutPlacement? true line).or (cutPlacement? false line) with
  | some (a, b, p) => if (unquote a).isEmpty then none else some (unquote a, trim b, p)
  | none => none

def readLine? (line : Text) : Option (Text × Text) := (cutLine? line).map fun (text, context, _) => (text, context)

/-- A line that says nothing: it is empty or a comment. -/
def isIdle (line : Text) : Bool := let s := trim line; s.isEmpty || startsWith s "//"

/-- The lines of a file, without carriage returns and line feeds at their ends. -/
def creditLines (t : Text) : List Text := (fileLines t).map (dropEndWhile fun c => c = '\r' || c = '\n')

/-! ## The roll -/

structure RollLine where
  y : Int
  text : Text
  size : Int
  align : Char
  x : Int
  deriving DecidableEq, Repr

/-- The number of the section that a line begins, as written. -/
def sectionNumber? (line : Text) : Option Text :=
  match trim line with
  | '[' :: t =>
    let digits := t.dropLast
    if t.getLast? = some ']' && !digits.isEmpty && digits.all isDecimal then some digits else none
  | _ => none

def number (t : Text) : Except Fault Int := (readDecimal? t).elim (.error .badNumeral) .ok

/-- Reads what follows white space at the start of a text, passing over as much of it as can be. -/
def pastBlanks? {α : Type} (read? : Text → Option α) : Text → Option α
  | [] => read? []
  | c :: t => if isBlank c then (pastBlanks? read? t).or (read? (c :: t)) else read? (c :: t)

/-- The text and the placement that a line shows. White space before the text is passed over first.
-/
def shownLine? (line : Text) : Option (Text × Placement) :=
  match (pastBlanks? (cutPlacement? true) line).or (pastBlanks? (cutPlacement? false) line) with
  | some (a, _, p) => if (unquote a).isEmpty then none else some (unquote a, p)
  | none => none

/-- A line on the roll, after one in the row `last`: its row is given, counted from there, or the
same. -/
def placeLine (last : Int) (text : Text) (p : Placement) : Except Fault RollLine := do
  let size ← number p.size
  let x ← number p.x
  let y ← match p.y? with
    | none => pure last
    | some t => do
      let n ← number t
      pure (if t.head? = some '+' || t.head? = some '-' then last + n else n)
  return ⟨y, text, size, p.align, x⟩

/-- The lines of the section `[000]`, `inside` telling whether it has begun and `last` being the row
of the line before. It ends with the next section, unless that is `[000]` again. -/
def rollFrom (inside : Bool) (last : Int) : List Text → Except Fault (List RollLine)
  | [] => .ok []
  | l :: ls =>
    match sectionNumber? l with
    | some n =>
      if n = "000" then rollFrom true 0 ls
      else if inside then .ok []
      else rollFrom inside last ls
    | none =>
      if !inside || isIdle l then rollFrom inside last ls
      else
        match shownLine? l with
        | none => rollFrom inside last ls
        | some (text, p) => do
          let line ← placeLine last text p
          return line :: (← rollFrom inside line.y ls)

def roll (t : Text) : Except Fault (List RollLine) := do
  return (← rollFrom false 0 (creditLines t)).mergeSort fun a b => a.y ≤ b.y

end Localizer.Credits
