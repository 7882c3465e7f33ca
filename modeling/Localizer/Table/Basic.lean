import Localizer.Assoc
import Localizer.Text.CharSet
import Localizer.Text.Line

/-!
# Tables

A table is a text of lines. The line `[NAME]` begins a section, and a line `key=value` in a section
gives a value to a key. Comments begin with `//` or `;`. Reading a table gives its values by section
and key; updating one changes values in their lines and keeps all other lines as they are.
-/

namespace Localizer

open Text

/-- The values of a table by section and key, both in the order of their first appearance. -/
abbrev Table := List (Text × List (Text × Text))

namespace Table

def sectionName? (raw : Text) : Option Text :=
  match trim (splitComment raw).1 with
  | '[' :: t => (splitOnce? ']' t).map fun (a, _) => trim a
  | _ => none

/-! ### Reading -/

/-- A line, already without its comment, that begins a section. -/
def isSectionLine (line : Text) : Bool := startsWith line "[" && line.contains ']'

/-- A value without the double quotes around it. -/
def unquote (v : Text) : Text :=
  if 2 ≤ v.length && v.head? = some '"' && v.getLast? = some '"' then (v.drop 1).dropLast else v

/-- A reader of tables: the section it is in and the values so far. -/
structure Reader where
  current? : Option Text := none
  table : Table := []

def Reader.enter (r : Reader) (name : Text) : Reader := ⟨some name, Assoc.insertNew name [] r.table⟩

/-- Gives a key of the current section a value. Nothing is kept outside of a section, nor in one
without a name. -/
def Reader.put (r : Reader) (key value : Text) : Reader :=
  match r.current? with
  | none | some [] => r
  | some sec => { r with table := Assoc.modify sec [] (Assoc.insert key value) r.table }

def Reader.line (r : Reader) (raw : Text) : Reader :=
  let line := stripComment (trim raw)
  if isSectionLine line then (sectionName? raw).elim r r.enter
  else
    match splitOnce? '=' line with
    | some (k, v) => r.put (trim k) (unquote v)
    | none => r

def read (t : Text) : Table := ((lines t).foldl Reader.line {}).table

/-! ### Updating -/

def nextSection (current? : Option Text) (raw : Text) : Option Text := (sectionName? raw).or current?

/-- A line without its line feed, and that line feed. Other breaks count as part of the line. -/
def cutFeed (l b : Text) : Text × Text := if b = "\n" || b = "\r\n" then (l, b) else (l ++ b, [])

/-- A value as it is written: in double quotes if it has a space. -/
def written (v : Text) : Text := if v.contains ' ' then "\"" ++ v ++ "\"" else v

/-- A line of a section with its value changed, if its key has a new one. The value runs up to the
first tab. -/
def updateLine (changes : List (Text × Text)) (l b : Text) : Text :=
  let (line, feed) := cutFeed l b
  let (target, tail) := line.span (· ≠ '\t')
  match splitOnce? '=' target with
  | none => l ++ b
  | some (left, _) =>
    match Assoc.get? (trim left) changes with
    | none => l ++ b
    | some v => left ++ "=" ++ written v ++ tail ++ feed

def changesIn (updates : Table) : Option Text → List (Text × Text)
  | none | some [] => []
  | some sec => (Assoc.get? sec updates).getD []

def updateLines (updates : Table) : Option Text → List (Text × Text) → Text
  | _, [] => []
  | current?, (l, b) :: ls =>
    match sectionName? (l ++ b) with
    | some name => l ++ b ++ updateLines updates (some name) ls
    | none => updateLine (changesIn updates current?) l b ++ updateLines updates current? ls

def update (t : Text) (updates : Table) : Text := updateLines updates none (linesWithBreaks t)

/-! ### Keys of texts -/

def isJapaneseChar (c : Char) : Bool :=
  let n := c.toNat
  (0x4E00 ≤ n && n ≤ 0x9FFF) || (0x3040 ≤ n && n ≤ 0x30FF) || (0x31F0 ≤ n && n ≤ 0x31FF)

def isJapanese (t : Text) : Bool := t.any isJapaneseChar

/-- The key of a value: its file, section and key. -/
def fullKey (file sec key : Text) : Text := file ++ "[" ++ sec ++ "]" ++ key

/-- The file, section and key that a full key is made of. The section stands between the last
brackets. -/
def splitKey? (full : Text) : Option (Text × Text × Text) := do
  let (before, key) ← splitLast? ']' full
  if key.contains '[' then none
  else
    let (file, sec) ← splitLast? '[' before
    return (file, sec, key)

end Table

end Localizer
