import Localizer.Credits.Roll
import Localizer.Document
import Localizer.Number

/-!
# The credits tool

Collects the lines of credits in documents, and writes translated documents as credits.
-/

namespace Localizer.Credits

open Text Encoding

def documentItems (number : Nat) : List Text → List Json
  | [] => []
  | l :: ls =>
    match if isIdle l then none else readLine? l with
    | some (text, context) =>
      Document.item [("key", .str (decimal number)), ("original", .str text), ("translation", .str []),
        ("context", .str context), ("stage", .int 0)] :: documentItems (number + 1) ls
    | none => documentItems (number + 1) ls

def collectAll (input output : Text) : Job Unit := do
  Job.makeDirs output
  for name in ((← get).names input).filter fun n => endsWith n ".txt" do
    let t ← Job.readCp932Lossy (Path.child input name)
    Job.writeUtf8 (Path.child output (Path.stem name ++ ".json"))
      (Json.render 2 (.arr (documentItems 1 (creditLines t))))

/-- A text as it stands in the credits: on one line, and in double quotes if it has a space. -/
def writtenText (t : Text) : Text :=
  let t := t.filter fun c => c ≠ '\r' && c ≠ '\n'
  if t.contains ' ' then "\"" ++ t ++ "\"" else t

def itemParts (v : Json) : Except Fault (Text × Text) := do
  let translation ← Document.field "translation" .null v
  let source ← Document.field "original" .null v
  let text ← Document.text (Document.orElse translation source)
  let context ← Document.text (← Document.field "context" .null v)
  return (writtenText text, trim context)

def writtenLine (text context : Text) : Text := text ++ "\t" ++ context ++ "\n"

def writtenLines (conv : Glyph.Converter) : List Json → Job Text
  | [] => pure []
  | v :: vs => do
    let (text, context) ← Job.ofExcept (itemParts v)
    return writtenLine (← conv.run text) context ++ (← writtenLines conv vs)

def itemNumber (v : Json) : Except Fault Int := do Document.wholeNumber (← Document.field "key" (.str "0") v)

/-- The items of a document in the order of their numbers. -/
def orderedItems : Json → Except Fault (List Json)
  | .arr items => do
    let keyed ← items.mapM fun v => return (← itemNumber v, v)
    return (keyed.mergeSort fun a b => a.1 ≤ b.1).map Prod.snd
  | _ => .error .noSuchOperation

def writeAll (input output : Text) : Job Unit := do
  let conv ← Glyph.converter Glyph.defaultRules
  Job.makeDirs output
  for p in (← get).find input ".json" do
    let doc ← Job.ofExcept (Json.read (← Job.readUtf8 p))
    let items ← Job.ofExcept (orderedItems doc)
    let t ← writtenLines conv items
    Job.writeBytes (Path.child output (Path.stem p ++ ".txt")) (Cp932.encodeLossy ("[000]\n" ++ t))

/-- The command line: a direction and two directories. Returns the exit code. -/
def run (args : List Text) : Job Nat := do
  match args with
  | [mode, input, output] =>
    if mode = "d" then collectAll (Path.tidy input) (Path.tidy output)
    else if mode = "e" then writeAll (Path.tidy input) (Path.tidy output)
    else Job.abandon "模式只能是 d 或 e"
    return 0
  | _ => Job.abandon "用法: python roll_batch3.py d|e 输入文件夹 输出文件夹"

/-! ## Playing the credits

A player shows the roll on a stage of 640 by 480 points. The roll moves up with the time, and begins
again when all of it has passed. Time goes on only while the player is running. Rows have no bound
but positions in motion are fractions, so that a roll that goes too far cannot be moved. -/

def stageWidth : Int := 640

def stageHeight : Int := 480

/-- The room below the stage in which the roll starts, and above it in which it ends. -/
def margin : Int := 80

/-- The time between two pictures, in seconds. -/
def tickLength : Float := 0.016

structure Label where
  row : Int
  x : Int := 0
  y : Int := 0

structure Player where
  charWidth : Int
  lines : List RollLine := []
  labels : List Label := []
  name : Text := []
  range : Int × Int := (0, 0)
  time : Float := 0
  running : Bool := false
  enabled : Bool := false
  button : Text := "暂停"
  info : Text := "未加载"
  /-- Rows per second. -/
  speed : Int := 60
  /-- The row at the top of the stage when the roll starts. -/
  start : Int := 0

/-- Work on a player. A fault leaves what was done before it. -/
abbrev Act (α : Type) := ExceptT Fault (StateM Player) α

def proceed : Option Fault → Act Unit
  | none => pure ()
  | some f => throw f

namespace Player

def setSpeed (p : Player) (v : Int) : Player := { p with speed := max 10 (min 240 v) }

/-- The row that is at the top of the stage. -/
def top (p : Player) : Except Fault Float := return (← Number.fraction p.start) + p.time * Float.ofInt p.speed

def status (p : Player) (state : Text) : Text := p.name ++ " | 行数 " ++ decimal p.lines.length ++ " | " ++ state

def toggle (p : Player) : Player :=
  if p.lines.isEmpty then p
  else
    let p := { p with running := !p.running }
    { p with button := if p.running then "暂停" else "播放"
             info := p.status (if p.running then "Running" else "Paused") }

/-- The height of the roll with the stage and the room around it. -/
def total (p : Player) : Int := p.range.2 - p.range.1 + stageHeight + margin * 2

end Player

/-- The lines on the stage where they are when the row `top` is at its top, up to one that cannot be
moved. -/
def placedLabels (top : Number) : List Label → List Label × Option Fault
  | [] => ([], none)
  | l :: ls =>
    match (Number.whole l.row).sub top >>= Number.trunc with
    | .error f => (l :: ls, some f)
    | .ok y =>
      let (ls, f) := placedLabels top ls
      ({ l with y } :: ls, f)

/-- Moves the lines to where they are when the row `top` is at the top of the stage. -/
def placeAt (top : Number) : Act Unit := do
  let (labels, f) := placedLabels top (← get).labels
  modify fun p => { p with labels }
  proceed f

def place : Act Unit := do
  let p ← get
  if !p.lines.isEmpty then placeAt (.real (← p.top))

def tick : Act Unit := do
  let p ← get
  if !p.lines.isEmpty then
    if p.running then modify fun p => { p with time := p.time + tickLength }
    let p ← get
    let top ← p.top
    if (Number.whole (p.start + p.total)).lt (.real top) then
      modify fun p => { p with time := 0 }
      placeAt (.whole p.start)
    else placeAt (.real top)

def ticks : Nat → Act Unit
  | 0 => pure ()
  | n + 1 => do
    tick
    ticks n

/-- The position of a line from the left: as it is aligned, but on the stage. -/
def column (charWidth : Int) (l : RollLine) : Int :=
  let width := charWidth * l.text.length
  let x := if l.align = 'L' then l.x else if l.align = 'C' then l.x - width / 2 else l.x - width
  max 0 (min (stageWidth - width) x)

/-- The lines on the stage before they are placed, up to one whose size is beyond all measure. -/
def newLabels : List RollLine → List Label × Option Fault
  | [] => ([], none)
  | l :: ls =>
    match Number.fraction l.size with
    | .error f => ([], some f)
    | .ok _ =>
      let (labels, f) := newLabels ls
      ({ row := l.y } :: labels, f)

/-- Shows a roll from its start. A roll without lines is not shown. -/
def showRoll (name : Text) (ls : List RollLine) : Act Unit := do
  modify fun p => { p with lines := ls, name }
  match ls with
  | [] => modify fun p => { p with
      running := false, enabled := false, info := name ++ " | 解析到 0 行（确认是否有 [000]）" }
  | first :: _ =>
    let (labels, f) := newLabels ls
    modify fun p => { p with range := (first.y, ls.foldl (fun m (l : RollLine) => max m l.y) first.y), labels }
    proceed f
    modify fun p => { p with
      labels := (p.labels.zip ls).map fun (label, l) => { label with x := column p.charWidth l }
      enabled := true, running := true, button := "暂停", time := 0, start := first.y - stageHeight - margin }
    place
    modify fun p => { p with info := p.status "Running" }

/-- The name of a file: what follows the last slash of either kind. -/
def shownName (path : Text) : Text := ((splitOn '\\' (Path.base path)).getLast?).getD []

/-- Shows the roll in the text of a file. The stage is emptied first. -/
def load (path : Text) (text : Except Fault Text) : Act Unit := do
  modify fun p => { p with labels := [] }
  let t ← text
  showRoll (shownName path) (← roll t)

def readCredits (p : Text) : Job Text :=
  return unifyNewlines (Encoding.Cp932.decodeReplacing (← Job.readBytes p))

end Localizer.Credits
