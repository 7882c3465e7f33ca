import Localizer.Editor.Command

/-!
# Dialogues of the editor

Changes that go over many frames: moving a layer or setting its opacity within a range, and letting
a layer follow another. A field of a dialogue that the user leaves alone keeps its default.
-/

namespace Localizer.Editor

open Text Animation

/-- What a field of a dialogue is taken as when it cannot be read. -/
def unreadable : Edit Unit → Edit Unit := orSay .warning "提示" "输入格式错误: "

/-- The number of the frame that is shown, as the default of a field. -/
def shownFrameText : Edit Text := return decimalInt (← ofExcept (Number.cut (← get).doc.frame))

/-! ### Opacity -/

def batchAlpha (first? last? alpha? : Option Text) : Edit Unit := do
  let e ← get
  match e.selected?, e.doc.anim? with
  | some place, some a =>
    let shown ← shownFrameText
    unreadable do
      let m ← typed (first?.getD "0")
      let n ← typed (last?.getD shown)
      let first := max 0 (min m n)
      let last := min a.totalFrames (max m n)
      let opacity := max 0 (min 255 (← typed (alpha?.getD "255")))
      discard (layerAt a place)
      pushUndo
      editKeys place (alphaEdits first last opacity a.totalFrames)
      render
  | _, _ => pure ()

/-! ### Positions -/

inductive Course where
  | keep
  /-- It goes on by a step with each frame. -/
  | ramp (step : Int)
  | fixed (value : Int)

/-- Reads what is asked of a coordinate: nothing, `#` and a step, or a value. -/
def readCourse (t : Text) : Edit Course := do
  match (lower (trim t)).map fun c => if c = 'i' then 'j' else c with
  | [] => return .keep
  | '#' :: t =>
    match readDecimal? t with
    | some n => return .ramp n
    | none => throw .badNumeral
  | t => return .fixed (← typed t)

/-- The coordinate at a frame, given what it is there, what it was at the first frame, and how many
frames have passed. -/
def Course.at (c : Course) (now first passed : Int) : Int :=
  match c with
  | keep => now
  | ramp step => first + passed * step
  | fixed value => value

/-- The place of the sign that begins the second number of a complex number, if it has one: the last
sign that does not belong to an exponent. -/
def secondSign? (t : Text) : Option Nat :=
  ((List.range t.length).reverse.find? fun i =>
    0 < i && (t[i]? = some '+' || t[i]? = some '-') && t[i - 1]? ≠ some 'e' && t[i - 1]? ≠ some 'E')

/-- The second number of a complex number; a sign alone stands for one. -/
def imaginary? (t : Text) : Option Float :=
  if t = "" || t = "+" then some 1
  else if t = "-" then some (-1)
  else Decimal.signedNumber? t

/-- A complex number in lower case, as `100+200j`, which may stand in parentheses. -/
def readComplex? (t : Text) : Option (Float × Float) :=
  let t := trim t
  let t := if t.head? = some '(' && t.getLast? = some ')' then trim (t.drop 1).dropLast else t
  if t.getLast? = some 'j' then
    let t := t.dropLast
    match secondSign? t with
    | some i => do return (← Decimal.signedNumber? (t.take i), ← imaginary? (t.drop i))
    | none => (imaginary? t).map fun y => (0, y)
  else none

/-- The integer part of a fraction that must be finite. -/
def wholeText (x : Float) : Edit Text := return decimalInt (← ofExcept (Number.cut x))

/-- The two coordinates that an expression asks for: a complex number, two expressions with a comma
between them, or one expression for both. -/
def splitExpression (t : Text) : Edit (Text × Text) := do
  if t.contains 'j' then
    match readComplex? t with
    | some (x, y) => return (← wholeText x, ← wholeText y)
    | none => throw .badNumeral
  else
    match splitOnce? ',' t with
    | some (x, y) => return (trim x, trim y)
    | none => return (t, t)

def visit (t : Int) : Edit Unit := do
  goTo t
  render

/-- Makes sure that a layer has key frames at several frames, each of which is shown on the way. -/
def anchor (place : Nat) : List Int → Edit Unit
  | [] => pure ()
  | t :: ts => do
    visit t
    editKeys place [.of t id]
    anchor place ts

/-- Where a layer is on the canvas; where it was before if it is not drawn. -/
def onScreen (place : Nat) (before : Int × Int) : Edit (Int × Int) :=
  return (Assoc.get? place (← get).screen).getD before

/-- Moves a layer as is asked at `n` frames, `passed` frames after the first one. The layer is first
drawn at each frame, since what is asked are places on the canvas. -/
def moveAlong (place : Nat) (before base : Int × Int) (first : Int) (cx cy : Course) : Nat → Int → Edit Unit
  | 0, _ => pure ()
  | n + 1, passed => do
    visit (first + passed)
    let (x, y) ← onScreen place before
    let scale := (← get).view.scale
    if scale > 0 then
      let dx ← ofExcept (planeDistance (cx.at x base.1 passed - x) scale)
      let dy ← ofExcept (planeDistance (cy.at y base.2 passed - y) scale)
      editKeys place [.of (first + passed) (Key.moved dx dy)]
    moveAlong place before base first cx cy n (passed + 1)

def batchMove (first? last? expression? x? y? : Option Text) : Edit Unit := do
  let e ← get
  match e.selected?, e.doc.anim? with
  | some place, some a =>
    let shown ← shownFrameText
    unreadable do
      let m ← typed (first?.getD "0")
      let n ← typed (last?.getD shown)
      let first := min m n
      let last := max m n
      let expression := (lower (trim (expression?.getD []))).map fun c => if c = 'i' then 'j' else c
      let (x, y) ← if expression.isEmpty then pure (trim (x?.getD []), trim (y?.getD [])) else splitExpression expression
      discard (layerAt a place)
      let before := (Assoc.get? place e.screen).getD (0, 0)
      let cx ← readCourse x
      let cy ← readCourse y
      visit first
      let base ← onScreen place before
      pushUndo
      anchor place (borders first last a.totalFrames)
      moveAlong place before base first cx cy (last + 1 - first).toNat 0
      setFrame e.doc.frame
      render
  | _, _ => pure ()

/-- Opens a dialogue for a range of frames, and closes it again. -/
def batchNothing : Edit Unit := do
  let e ← get
  if e.selected?.isSome && e.doc.anim?.isSome then discard shownFrameText

/-! ### Following -/

def dialogRows (e : Editor) (a : Animation) : Edit (List Nat) := do
  let (rs, f) := layerRowsFrom e.hidden a 0 a.layers
  check f
  return rs.map Row.place

/-- A choice among rows: the given one, which must be there, or the default. -/
def chosenAmong (rows : List Nat) (default? : Option Nat) (choice? : Option Int) : Edit (Option Nat) :=
  match choice? with
  | some i => if rows.any fun r => r = i then pure (some i.toNat) else throw .noSuchRow
  | none => pure (default?.filter rows.contains)

/-- Lets one layer follow another at every frame, as `edits` says. -/
def follow (edits : List Key → Int → List KeyEdit) (target? source? : Option Int) : Edit Unit := do
  let e ← get
  match e.doc.anim? with
  | none => pure ()
  | some a =>
    if 2 ≤ a.layers.length then
      let rows ← dialogRows e a
      match ← chosenAmong rows e.selected? target?, ← chosenAmong rows none source? with
      | some target, some source =>
        if target = source then say .warning "提示" "目标图层和来源图层不能相同。"
        else
          let l ← layerAt a source
          pushUndo
          editKeys target (edits l.keys a.totalFrames)
          render
      | _, _ => say .warning "提示" "请先在左右各选一个图层。"

def followAlpha : Option Int → Option Int → Edit Unit := follow followAlphaEdits

def followPosition : Option Int → Option Int → Edit Unit := follow followPositionEdits

/-- Opens a dialogue in which layers are chosen, and closes it again. -/
def followNothing : Edit Unit := do
  let e ← get
  match e.doc.anim? with
  | none => pure ()
  | some a => if 2 ≤ a.layers.length then discard (dialogRows e a)

/-! ### Buttons -/

/-- The buttons of the window from top to bottom, with what they do. Dialogues that they open are
closed without an answer. -/
def buttons (e : Editor) : List (Text × Edit Unit) :=
  [(e.playLabel, togglePlay), ("新增静态层", addLayer none), ("删除选中层", deleteChosen), ("批量改帧范围坐标", batchNothing),
   ("跟随图层坐标", followNothing), ("批量改帧范围透明度", batchNothing), ("跟随图层透明度", followNothing), ("-10", nudge (-10) 0),
   ("+10", nudge 10 0), ("-10", nudge 0 (-10)), ("+10", nudge 0 10), ("继承上一帧", inheritPrevious),
   ("-10", nudgeAlpha (-10)), ("+10", nudgeAlpha 10)]

/-- Presses the `n`-th of the buttons with a label. -/
def press (label : Text) (n : Nat) : Edit Unit := do
  match ((buttons (← get)).filter fun b => b.1 = label)[n]? with
  | some (_, work) => work
  | none => throw .outOfRange

/-! ### The world -/

/-- Where layers are at a time, one after another. -/
def transforms (a : Animation) (t : Number) : List Int → List (Int × Transform) → Edit (List Transform)
  | [], _ => return []
  | i :: is, known => do
    let (tf, known) ← ofExcept (transformAt a t (a.layers.length + 2) [] known i)
    return tf :: (← transforms a t is known)

/-- Where layers of the animation are at a time. -/
def worldAt (places : List Int) (t : Number) : Edit (List Transform) := do
  match (← get).doc.anim? with
  | none => throw .noSuchOperation
  | some a => transforms a t places []

/-- The editor on a canvas, with nothing loaded. -/
def start (files : Workspace) (w h : Int) : Editor := (tick.run.run { files := files, canvas := ⟨w, h, [], none, []⟩ }).2

end Localizer.Editor
