import Localizer.Scenario.Dialogues
import Localizer.Scenario.Texts

/-!
# The programme of scenarios

Scenarios are called by name, alone or one after another. Each has a directory of its own; what one
changes for those after it is kept as the state of the programme.
-/

namespace Localizer.Scenario

open Text

structure Programme where
  hasFaces : Bool := true
  nextDir : Nat := 1
  measure : Text → Int := displayWidth

/-- The directory that all scenarios of a programme share. -/
def sharedDir (cwd : Text) : Text := cwd ++ "/tmp/0"

def Programme.dir (p : Programme) (cwd : Text) : Text := cwd ++ "/tmp/" ++ decimal p.nextDir

/-- Prepares a workspace for scenarios: with a small glyph table, which is used instead of the one
in the current directory. -/
def prepare : Job Unit := do
  let path := sharedDir (← get).cwd ++ "/font.tbl"
  saveGlyphTable path 32
  modify fun ws => { ws with glyphTable := path }

inductive Title where
  | literalSearch
  | literalMove
  | conversion
  | scriptRoundTrip
  | codeParsing
  | tableRoundTrip
  | creditsRoundTrip
  | rollLayout
  | dialogueRoundTrip
  | wrapping
  | openingRoundTrip
  | animationRoundTrip
  | movieMaking
  | corpusCollection
  | tileDrawing
deriving DecidableEq

def Title.hasDir : Title → Bool
  | .literalSearch | .conversion | .codeParsing => false
  | _ => true

def Programme.scenario (p : Programme) (title : Title) (n : Nat) (cwd : Text) : Scenario :=
  let dir := p.dir cwd
  match title with
  | .literalSearch => literalSearch n
  | .literalMove => literalMove n dir
  | .conversion => conversion n (sharedDir cwd)
  | .scriptRoundTrip => scriptRoundTrip n dir
  | .codeParsing => codeParsing n
  | .tableRoundTrip => tableRoundTrip n dir
  | .creditsRoundTrip => creditsRoundTrip n dir
  | .rollLayout => rollLayout n dir
  | .dialogueRoundTrip => dialogueRoundTrip p.measure n dir
  | .wrapping => wrapping n dir
  | .openingRoundTrip => openingRoundTrip n dir
  | .animationRoundTrip => animationRoundTrip n dir
  | .movieMaking => movieMaking n dir
  | .corpusCollection => corpusCollection n dir
  | .tileDrawing => if p.hasFaces then tileDrawing n dir else pure (pure (.int 0))

/-- The programme after a scenario. Once lines have been wrapped, each character counts as one
column. -/
def Programme.after (p : Programme) (title : Title) : Programme :=
  { p with
    nextDir := if title.hasDir then p.nextDir + 1 else p.nextDir
    measure := if title = .wrapping then (fun t => t.length) else p.measure }

def Programme.play (p : Programme) : List (Title × Nat) → Job (List (Json × Json))
  | [] => return []
  | (title, n) :: rest => do
    let outcome ← (p.scenario title n (← get).cwd).play
    return outcome :: (← (p.after title).play rest)

end Localizer.Scenario
