import Localizer.Glyph
import Localizer.Json.Text

/-!
# Scenarios

A scenario is a run of the tools on made-up material of a chosen size, for measuring them and for
seeing that nothing changes. It prepares its material in a directory of its own and then does its
work, which may be repeated and gives the same outcome each time.
-/

namespace Localizer

open Text

/-- A scenario: the preparation, whose result is the work. -/
abbrev Scenario := Job (Job Json)

namespace Scenario

/-- The outcome of a scenario and that of doing its work once more. -/
def play (s : Scenario) : Job (Json × Json) := do
  let work ← s
  return (← work, ← work)

/-- Does a job and takes back what it printed and which programs it called. -/
def quietly {α : Type} (job : Job α) : Job α := do
  let before ← get
  let a ← job
  modify fun ws => { ws with out := before.out, commands := before.commands }
  return a

/-- The work of a scenario that is done once for each of two equal parties. -/
def inPairs (work : Job (List Json)) : Job Json := return .arr ((← work) ++ (← work))

/-- The sum of the numbers that two equal parties come to. -/
def summed (work : Job Nat) : Job Json := return .int ((← work) + (← work) : Nat)

def total (ns : List Nat) : Nat := ns.foldl Nat.add 0

def totalInt (ns : List Int) : Int := ns.foldl Int.add 0

def bytesJson (bs : Bytes) : Json := .obj [("hex", .str (bs.flatMap fun b => lowerHex 2 b.toNat))]

def numbers (ns : List Int) : Json := .arr (ns.map .int)

def texts (ts : List Text) : Json := .arr (ts.map .str)

def threeDigits (n : Nat) : Text := padLeft 3 '0' (decimal n)

def series (n : Nat) (part : Nat → Text) : Text := (List.range n).flatMap part

/-- Writes bytes to a file, with the directories that it needs. -/
def saveBytes (path : Text) (bs : Bytes) : Job Unit := do
  Job.makeDirs (Path.parent path)
  Job.writeBytes path bs

/-- Writes a text to a file as UTF-8, with the directories that it needs. -/
def save (path t : Text) : Job Unit := saveBytes path (Encoding.Utf8.encode t)

/-- Writes a text to a file in the code page, with the directories that it needs. -/
def saveCp932 (path t : Text) : Job Unit := saveBytes path (Encoding.Cp932.encodeLossy t)

end Scenario

end Localizer
