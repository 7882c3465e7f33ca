import Localizer.Assoc
import Localizer.Workspace

/-!
# Names of dialogue files

The texts of a script are kept in a file named after the script, with the title of the script in
parentheses if it has one. Going back, whatever stands in parentheses is dropped.
-/

namespace Localizer.Dialogue

open Text

/-- Drops parenthesized notes, after `skip` characters of one that is already dropped. A note goes
from an opening parenthesis to the first closing one. -/
def dropNotesFrom : Nat → Text → Text
  | _, [] => []
  | skip + 1, _ :: t => dropNotesFrom skip t
  | 0, c :: t =>
    if c = '(' && t.contains ')' then dropNotesFrom ((t.takeWhile (· ≠ ')')).length + 1) t
    else c :: dropNotesFrom 0 t

/-- A text without parenthesized notes and with single spaces between its words. -/
def plainTitle (t : Text) : Text := collapseBlanks (dropNotesFrom 0 t)

/-- The title in a remark: what follows its first wide colon, or else its first colon, or else all.
-/
def titleOf (remark : Text) : Text :=
  match splitOnce? '：' remark with
  | some (_, r) => trim r
  | none =>
    match splitOnce? ':' remark with
    | some (_, r) => trim r
    | none => trim remark

def listEntry (line : Text) : Text × Text :=
  let line := trim line
  let name := firstWord line
  (name, plainTitle (titleOf (trim (line.drop name.length))))

def readList (t : Text) : List (Text × Text) :=
  Assoc.ofList (((lines t).filter fun l => !isBlankText l).map listEntry)

/-- The titles in the list of scripts, none if there is no list. -/
def loadList (p : Text) : Job (List (Text × Text)) := do
  if ← Job.isThere p then return readList (← Job.readCp932Lossy p) else return []

/-- Where the texts of a script are kept. The title is left out if it is the name of the script. -/
def itemsPath (out script title : Text) : Text :=
  let stem := Path.stem script
  let name :=
    if !title.isEmpty && trim (Path.stem title) ≠ trim (Path.stem stem) then stem ++ "(" ++ title ++ ").json"
    else stem ++ ".json"
  Path.child (Path.child out (Path.parent script)) name

def filesBelow (p ext : Text) : Job (List Text) := do
  let ws ← get
  return ((ws.find p ext).filter ws.isFile).mergeSort Path.le

def scriptOf (p : Text) : Text := plainTitle (Path.stem p) ++ ".txt"

def assignScripts : List Text → List (Text × Text) → Except Fault (List (Text × Text))
  | [], found => .ok found
  | p :: ps, found =>
    match Assoc.get? (scriptOf p) found with
    | some q => .error (.abandoned
        ("多个 JSON 指向同一个脚本：" ++ scriptOf p ++ "\n  1) " ++ q ++ "\n  2) " ++ p))
    | none => assignScripts ps (found ++ [(scriptOf p, p)])

/-- For each script, the file below a directory with its texts. -/
def scriptsBelow (p : Text) : Job (List (Text × Text)) := do
  Job.ofExcept (assignScripts (← filesBelow p ".json") [])

end Localizer.Dialogue
