import Localizer.Assoc
import Localizer.Fault
import Localizer.Text.Casing
import Localizer.Text.Line

/-!
# Configuration files

A configuration file has sections, `[NAME]`, with options in them, `name = value` or `name: value`.
Names of options are not case sensitive. A line that is indented deeper than its option goes on with
the value. Lines that begin with `#` or `;` are comments. The options of the section `DEFAULT` are
seen from all others. Neither a section nor an option of one section may be given twice.
-/

namespace Localizer

open Text

structure Ini where
  sections : List Text := []
  /-- The lines of the value of each option, by section and name. -/
  values : List ((Text × Text) × List Text) := []

namespace Ini

def defaultSection : Text := "DEFAULT"

structure Reader where
  ini : Ini := {}
  current? : Option Text := none
  /-- The current option, empty if there is none. -/
  option : Text := []
  indent : Nat := 0
  /-- Whether there was a line that is neither a section nor an option. -/
  spoilt : Bool := false

/-- Adds a line to the value of the current option, if there is one. -/
def Reader.addLine (r : Reader) (sec line : Text) : Reader :=
  if r.option.isEmpty then r
  else { r with ini := { r.ini with values := Assoc.modify (sec, r.option) [] (· ++ [line]) r.ini.values } }

/-- The name of the section that a line begins: what stands before its last closing bracket. -/
def sectionName? : Text → Option Text
  | '[' :: t => (splitLast? ']' t).bind fun (name, _) => if name.isEmpty then none else some name
  | _ => none

def option? (line : Text) : Option (Text × Text) :=
  match line.span fun c => c ≠ '=' && c ≠ ':' with
  | (name, _ :: value) => some (lower (trimEnd name), trim value)
  | _ => none

def Reader.enter (r : Reader) (name : Text) : Except Fault Reader :=
  if r.ini.sections.contains name then .error (.ini .repeatedSection)
  else
    .ok { r with
      current? := some name, option := []
      ini := if name = defaultSection then r.ini else { r.ini with sections := r.ini.sections ++ [name] } }

/-- Begins an option. An option without a name spoils the file. -/
def Reader.put (r : Reader) (sec name value : Text) : Except Fault Reader :=
  if Assoc.contains (sec, name) r.ini.values then .error (.ini .repeatedOption)
  else
    .ok { r with
      option := name, spoilt := r.spoilt || name.isEmpty
      ini := { r.ini with values := r.ini.values ++ [((sec, name), [value])] } }

/-- Reads a line that begins something, having no white space around it. -/
def Reader.head (r : Reader) (line : Text) : Except Fault Reader :=
  match sectionName? line, r.current?, option? line with
  | some name, _, _ => r.enter name
  | none, none, _ => .error (.ini .noSection)
  | none, some sec, some (name, value) => r.put sec name value
  | none, some _, none => .ok { r with spoilt := true }

def Reader.line (r : Reader) (raw : Text) : Except Fault Reader :=
  let line := trim raw
  let indent := (raw.takeWhile isBlank).length
  if startsWith line "#" || startsWith line ";" then .ok r
  else
    match r.current? with
    | none => if line.isEmpty then .ok r else { r with indent }.head line
    | some sec =>
      if line.isEmpty || (!r.option.isEmpty && r.indent < indent) then .ok (r.addLine sec line)
      else { r with indent }.head line

/-- Reads a configuration file. A line that cannot be read is a fault, after all others. -/
def read (t : Text) : Except Fault Ini := do
  let r ← (fileLines t).foldlM Reader.line {}
  if r.spoilt then .error (.ini .unreadableLine) else return r.ini

def get? (ini : Ini) (sec name : Text) : Option Text :=
  if ini.sections.contains sec then
    ((Assoc.get? (sec, name) ini.values).or (Assoc.get? (defaultSection, name) ini.values)).map fun ls =>
      trimEnd (join "\n" ls)
  else none

/-- The texts that stand for a truth value, in lower case. -/
def truthTexts : List (Text × Bool) :=
  [("1", true), ("yes", true), ("true", true), ("on", true), ("0", false), ("no", false), ("false", false), ("off", false)]

def getBool (ini : Ini) (sec name : Text) : Except Fault Bool :=
  match ini.get? sec name with
  | none => .ok false
  | some v => (truthTexts.lookup (lower v)).elim (.error .badNumeral) .ok

end Ini

end Localizer
