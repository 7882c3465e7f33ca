import Localizer.Editor.Show

/-!
# Commands of the editor

What the user can do with files, with frames and with layers. A dialogue that a command opens is an
argument here: what the user has answered.
-/

namespace Localizer.Editor

/-! ## Undo and redo

Before each change the document is put aside. At most `historyLimit` documents are kept. Undoing
brings the latest one back and keeps the one it replaces for redoing; a new change forgets what
could be redone. -/

def historyLimit : Nat := 50

/-- The document as it can be put aside: there must be an animation. -/
def snapshot? (e : Editor) : Option Document := if e.doc.anim?.isSome then some e.doc else none

/-- Puts the document aside. -/
def pushed (e : Editor) : Editor :=
  match snapshot? e with
  | none => e
  | some d => { e with undos := (d :: e.undos).take historyLimit, redos := [] }

def pushUndo : Edit Unit := modify pushed

def restore (d : Document) : Edit Unit := do
  modify fun e => { e with doc := d, screen := [] }
  loadAll
  fillLayers
  fillActions
  render

def undo : Edit Unit := do
  let e ← get
  match e.undos with
  | [] => pure ()
  | d :: ds =>
    set { e with undos := ds, redos := (snapshot? e).toList ++ e.redos }
    restore d

def redo : Edit Unit := do
  let e ← get
  match e.redos with
  | [] => pure ()
  | d :: ds =>
    set { e with redos := ds, undos := (snapshot? e).toList ++ e.undos }
    restore d

/-! ## Commands of the editor -/

open Text Animation

def say (tone : Tone) (title text : Text) : Edit Unit :=
  modify fun e => { e with messages := e.messages ++ [⟨tone, title, text⟩] }

/-- Does work, and shows a message if it fails. -/
def orSay (tone : Tone) (title text : Text) (work : Edit Unit) : Edit Unit :=
  tryCatch work fun _ => say tone title text

/-! ### Files -/

def openAnimation (p : Text) : Edit Unit := do
  let a ← ofExcept (decode (← ofExcept ((← get).files.read p)).bytes)
  modify fun e => { e with
    doc := { e.doc with anim? := some a, frame := 0, adjust := [] }
    baseDir := Path.directory p
    path := p
    playing := false
    hidden := []
    selected? := none
    screen := [] }
  loadAll
  fillLayers
  fillActions
  render

def load (p : Text) : Edit Unit := orSay .error "错误" "解析文件失败: " (openAnimation p)

/-- Loads an animation that the user has chosen and lists those beside it. -/
def openFile (answer? : Option Text) : Edit Unit := do
  match answer? with
  | none => pure ()
  | some p =>
    fillFiles (Path.directory p) p
    load p

def writeTo (a : Animation) (p : Text) : Edit Unit := do
  let bs ← ofExcept (encode a)
  let (outcome, ws) := (Job.writeBytes p bs).run.run (← get).files
  modify fun e => { e with files := ws }
  ofExcept outcome

def savedText (p : Text) : Text := "已保存：" ++ Path.base p

def save : Edit Unit := do
  let e ← get
  match e.doc.anim? with
  | none => pure ()
  | some a =>
    if !e.path.isEmpty then
      orSay .error "错误" "保存失败: " do
        writeTo a e.path
        say .info "保存" (savedText e.path)

/-- Saves the animation in a file that the user has chosen. -/
def saveAs (answer? : Option Text) : Edit Unit := do
  match (← get).doc.anim?, answer? with
  | some a, some p =>
    orSay .error "错误" "保存失败: " do
      writeTo a p
      modify fun e => { e with path := p, baseDir := Path.directory p }
      fillFiles (Path.directory p) p
      say .info "保存" (savedText p)
  | _, _ => pure ()

def onFileChoice : Edit Unit := do
  let e ← get
  match e.fileChoice with
  | [] => pure ()
  | i :: _ =>
    if !e.busy.files && !e.baseDir.isEmpty then
      let name := if i < 0 then [] else (e.fileRows[i.toNat]?).getD []
      let p := Path.append e.baseDir name
      if Path.normal p ≠ Path.normal e.path then load p

/-! ### Frames -/

def setFrame (x : Float) : Edit Unit := modify fun e => { e with doc := { e.doc with frame := x } }

def goTo (t : Int) : Edit Unit := do setFrame (← ofExcept (Number.fraction t))

def chooseShownFrame : Edit Unit := do chooseFrame (← ofExcept (Number.cut (← get).doc.frame))

def onActionChoice : Edit Unit := do
  let e ← get
  match e.doc.anim?, e.actionTexts.findIdx? (· = e.actionText) with
  | some a, some i =>
    match a.actions[i]? with
    | none => pure ()
    | some action =>
      modify fun e => { e with doc := { e.doc with range := (action.start, action.stop) } }
      fillFrames
      goTo action.start
      chooseFrame action.start
      render
  | _, _ => pure ()

def onFrameChoice : Edit Unit := do
  let e ← get
  if !e.busy.frames && e.doc.anim?.isSome then
    match e.frameChoice with
    | [] => pure ()
    | i :: _ =>
      if 0 ≤ i && i < e.frameCount then goTo (e.firstFrame + i)
      render

def pause : Edit Unit := modify fun e => { e with playing := false, playLabel := "播放" }

/-- Starts the animation, from the start of the action if it is at its end. -/
def play : Edit Unit := do
  let e ← get
  if e.doc.anim?.isSome then
    if (Number.whole e.doc.range.2).le (.real e.doc.frame) then
      goTo e.doc.range.1
      chooseFrame e.doc.range.1
    modify fun e => { e with playing := true, playLabel := "暂停" }

def togglePlay : Edit Unit := do
  let e ← get
  if e.doc.anim?.isSome then
    if e.playing then pause else play

def stop : Edit Unit := do
  pause
  let e ← get
  if e.doc.anim?.isSome then
    goTo e.doc.range.1
    chooseFrame e.doc.range.1
    render

def renderIfStill : Edit Unit := do if !(← get).playing then render

def stepForward : Edit Unit := do
  let e ← get
  match e.doc.anim? with
  | none => pure ()
  | some a =>
    let last := max 0 (min a.totalFrames e.doc.range.2)
    if (Number.whole last).lt (.real (e.doc.frame + 1)) then goTo last else setFrame (e.doc.frame + 1)
    chooseShownFrame
    renderIfStill

def stepBackward : Edit Unit := do
  let e ← get
  match e.doc.anim? with
  | none => pure ()
  | some _ =>
    let first := e.doc.range.1
    if Number.lt (.real (e.doc.frame - 1)) (.whole first) then goTo first else setFrame (e.doc.frame - 1)
    chooseShownFrame
    renderIfStill

/-- The pictures that are shown in a second. -/
def displayRate : Float := 30

/-- The frames that pass between two pictures. They do not go back. -/
def frameStep (a : Animation) (speed : Number) : Except Fault Float := do
  let rate ← if 0 < a.tickRate then Number.fraction a.tickRate else pure 30
  let step := rate / displayRate * (← speed.toFloat)
  return if step ≤ 0 then 1 else step

/-- Goes on by a step, but not beyond a last frame, at which the animation stops. -/
def advance (step : Float) (last : Int) : Edit Unit := do
  let frame := (← get).doc.frame
  if Number.lt (.real frame) (.whole last) then
    setFrame (frame + step)
    if (Number.whole last).lt (.real (frame + step)) then goTo last
  else
    goTo last
    pause

/-- Goes on by the time between two pictures if the animation is running, and draws. -/
def tick : Edit Unit := do
  let e ← get
  match e.playing, e.doc.anim? with
  | true, some a =>
    let (start, stop) := if e.doc.range.2 ≤ e.doc.range.1 then (0, a.totalFrames) else e.doc.range
    advance (← ofExcept (frameStep a e.speed)) (max start stop)
    chooseShownFrame
  | _, _ => pure ()
  render

/-! ### Choosing layers -/

/-- A numeral that the user has typed, with white space around it. -/
def typed? (t : Text) : Option Int := readDecimal? (trim t)

/-- A numeral that the user must have typed. -/
def typed (t : Text) : Edit Int :=
  match typed? t with
  | some n => pure n
  | none => throw .badNumeral

def layerAt (a : Animation) (place : Nat) : Edit Layer :=
  match a.layers[place]? with
  | some l => pure l
  | none => throw .outOfRange

def onLayerChoice : Edit Unit := do
  match (← get).layerChoice with
  | [] =>
    modify fun e => { e with
      selected? := none, positionText := noPosition, alphaText := "-", busy := { e.busy with alpha := false } }
  | place :: _ =>
    modify fun e =>
      let (x, y) := ((Assoc.get? place e.screen).map fun (x, y) => (decimalInt x, decimalInt y)).getD (e.xText, e.yText)
      let adjust := (Assoc.get? place e.doc.adjust).getD usualAdjust
      { e with
        selected? := some place
        xText := x
        yText := y
        adjustText := if adjustChoices.contains adjust then adjust else usualAdjust
        busy := { e.busy with xy := false } }
    match (← get).doc.anim? with
    | none => throw .noSuchOperation
    | some a =>
      let l ← layerAt a place
      let pose? ← ofExcept (poseAt (.real (← get).doc.frame) l.keys)
      modify fun e =>
        { e with
          alphaText := (pose?.map fun p => decimalInt (alpha p.color1)).getD "-"
          busy := { e.busy with alpha := false } }
      render

/-- A click on a row of the table of layers. In the column with the mark it hides the layer or shows
it again. -/
def clickRow (place? : Option Int) (onMark : Bool) : Edit Unit := do
  match (← get).doc.anim?, place?, onMark with
  | some _, some place, true =>
    modify fun e => { e with
      hidden := if e.hidden.contains place then e.hidden.erase place else e.hidden ++ [place] }
    fillLayers
    chooseRow place
    modify fun e => { e with selected? := some place.toNat }
    render
  | _, _, _ => pure ()

/-- A click on a row of the table of layers that opens its menu. -/
def openRowMenu (place? : Option Int) : Edit Unit := do
  match (← get).doc.anim?, place? with
  | some _, some place =>
    chooseRow place
    modify fun e => { e with selected? := some place.toNat }
  | _, _ => pure ()

/-! ### Changing layers -/

/-- The size of a new picture: that of its file if it can be read. -/
def probedSize (e : Editor) (name : Text) : Int × Int :=
  match fileSize e.files (Path.append e.baseDir (fileName name)) with
  | .ok size => size
  | .error _ => (64, 64)

/-- Lets the chosen layer show the picture that the user has named. -/
def renameChosen (answer? : Option Text) : Edit Unit := do
  let e ← get
  match e.selected?, e.doc.anim?, answer? with
  | some place, some a, some answer =>
    let name := trim answer
    if place < a.layers.length && !name.isEmpty then
      pushUndo
      modifyAnim (renameLayer place name (probedSize e name))
      loadAll
      fillLayers
      chooseRow place
      render
  | _, _, _ => pure ()

def planeDistance (d : Int) (scale : Float) : Except Fault Int := do
  Number.rounded ((← Number.fraction d) / scale)

/-- What the user has given for a new layer: the name of its picture, and its place on the canvas.
-/
structure NewLayer where
  name : Text
  /-- The horizontal place, if it can be read. -/
  x : Except Fault Int
  /-- The vertical place, if it can be read. -/
  y : Except Fault Int

def addLayer (answer? : Option NewLayer) : Edit Unit := do
  let e ← get
  match e.doc.anim?, answer? with
  | some _, some answer =>
    let name := trim answer.name
    if name.isEmpty then say .warning "提示" "图片名不能为空"
    else
      let x ← ofExcept answer.x
      let y ← ofExcept answer.y
      let toPlane (n off : Int) : Edit Int :=
        if e.view.scale > 0 then ofExcept (planeDistance (n - off) e.view.scale) else pure n
      let x ← toPlane x e.view.offX
      let y ← toPlane y e.view.offY
      pushUndo
      modifyAnim (addStatic name (probedSize e name) x y)
      loadAll
      fillLayers
      render
  | _, _ => pure ()

def withoutLayer (place : Nat) (e : Editor) : Editor :=
  match e.doc.anim? with
  | none => e
  | some a =>
    { e with
      doc := { e.doc with
        anim? := some (removeLayer place a)
        adjust := e.doc.adjust.filterMap fun (k, v) => (shiftPlace? place k).map (·.toNat, v)
        range := (e.doc.range.1, min a.totalFrames e.doc.range.2) }
      hidden := e.hidden.filterMap (shiftPlace? place)
      selected? := none }

def deleteChosen : Edit Unit := do
  let e ← get
  match e.doc.anim?, e.layerChoice with
  | some a, place :: _ =>
    if place < a.layers.length then
      pushUndo
      modify (withoutLayer place)
      fillLayers
      render
  | _, _ => pure ()

/-- Edits the key frames of a layer. Where the work stops early, the frame that it reached is shown.
-/
def editKeys (place : Nat) (edits : List KeyEdit) : Edit Unit := do
  match (← get).doc.anim? with
  | none => throw .noSuchOperation
  | some a =>
    let l ← layerAt a place
    let done := applyEdits edits { keys := l.keys }
    modifyAnim (modifyKeys place fun _ => done.keys)
    match done.fault? with
    | none => pure ()
    | some f =>
      done.reached?.forM setFrame
      throw f

def editShownKey (place : Nat) (f : Key → Key) : Edit Unit := do
  let frame := (← get).doc.frame
  let t ← ofExcept (Number.cut frame)
  tryCatch (editKeys place [.of t f]) fun fault => do
    setFrame frame
    throw fault

def onAlphaEntered : Edit Unit := do
  let e ← get
  match e.selected?, e.doc.anim?, e.busy.alpha with
  | some place, some a, false =>
    match typed? e.alphaText with
    | none => pure ()
    | some n =>
      let n := max 0 (min 255 n)
      discard (layerAt a place)
      pushUndo
      editShownKey place (Key.withAlpha n)
      modify fun e => { e with alphaText := decimalInt n, busy := { e.busy with alpha := false } }
      render
  | _, _, _ => pure ()

def nudgeAlpha (step : Int) : Edit Unit := do
  let e ← get
  if e.selected?.isSome then
    let next := max 0 (min 255 ((typed? e.alphaText).getD 255 + step))
    modify fun e => { e with alphaText := decimalInt next, busy := { e.busy with alpha := false } }
    onAlphaEntered

def moveChosen (place : Nat) (a : Animation) (x y : Int) : Edit Unit := do
  let e ← get
  let newX ← typed e.xText
  let newY ← typed e.yText
  let dx ← ofExcept (planeDistance (newX - x) e.view.scale)
  let dy ← ofExcept (planeDistance (newY - y) e.view.scale)
  if dx ≠ 0 || dy ≠ 0 then
    pushUndo
    discard (layerAt a place)
    editShownKey place (Key.moved dx dy)

/-- Applies the fields of the chosen layer: its position and how it is kept centred. Fields that
cannot be read move nothing. -/
def onFieldsEntered : Edit Unit := do
  let e ← get
  match e.selected?, e.busy.xy with
  | some place, false =>
    match Assoc.get? place e.screen, e.doc.anim? with
    | some (x, y), some a => if e.view.scale > 0 then tryCatch (moveChosen place a x y) fun _ => pure ()
    | _, _ => pure ()
    let adjust := if e.adjustText.isEmpty then usualAdjust else e.adjustText
    modify fun e => { e with doc := { e.doc with adjust := Assoc.insert place adjust e.doc.adjust } }
    render
  | _, _ => pure ()

/-- The text of a number that a field shows. Numbers with too many digits cannot be shown. -/
def shownNumber (n : Int) : Edit Text := ofExcept ((decimalInt? n).elim (.error .badNumeral) .ok)

def nudge (dx dy : Int) : Edit Unit := do
  let e ← get
  match e.selected? with
  | none => pure ()
  | some place =>
    let (x, y) :=
      match typed? e.xText, typed? e.yText with
      | some x, some y => (x, y)
      | _, _ => (Assoc.get? place e.screen).getD (0, 0)
    let xText ← shownNumber (x + dx)
    modify fun e => { e with xText }
    let yText ← shownNumber (y + dy)
    modify fun e => { e with yText }
    onFieldsEntered

/-- Lets the chosen layer look as at its latest key frame before the frame that is shown. -/
def inheritPrevious : Edit Unit := do
  let e ← get
  match e.selected?, e.doc.anim? with
  | some place, some a =>
    let l ← layerAt a place
    match previousKey? (← ofExcept (Number.cut e.doc.frame)) l.keys with
    | none => pure ()
    | some k =>
      pushUndo
      editShownKey place fun c => if k.fits then Key.like k c else c
      if !k.fits then throw .badField
      render
  | _, _ => pure ()

/-! ## Input

What the user does in the window: picking rows of its lists, filling in its fields, and changing its
size. Each has the effect that the window shows at once. -/

def pickFile (i? : Option Int) : Edit Unit := do
  modify fun e => { e with fileChoice := i?.toList }
  onFileChoice

def pickFrame (i? : Option Int) : Edit Unit := do
  modify fun e => { e with frameChoice := i?.toList }
  onFrameChoice

/-- Picks a row of the list of actions. A negative number clears the field. -/
def pickAction (i : Int) : Edit Unit := do
  let rows := (← get).actionTexts
  if i ≥ rows.length then throw .noSuchRow
  modify fun e => { e with actionText := if i < 0 then [] else (rows[i.toNat]?).getD [] }
  onActionChoice

def pickLayer (i? : Option Int) : Edit Unit := do
  match i? with
  | some i => chooseRow i
  | none => modify fun e => { e with layerChoice := [] }
  onLayerChoice

def enterAlpha (t : Text) : Edit Unit := do
  modify fun e => { e with alphaText := t }
  onAlphaEntered

def enterPosition (x y : Text) : Edit Unit := do
  modify fun e => { e with xText := x, yText := y }
  onFieldsEntered

def enterAdjust (t : Text) : Edit Unit := do
  modify fun e => { e with adjustText := t }
  onFieldsEntered

def resize (width height : Int) : Edit Unit :=
  modify fun e => { e with canvas := { e.canvas with width, height } }

/-- Gives a layer another picture. Places below zero count from the last layer. -/
def setPicture (place picture : Int) : Edit Unit := do
  match (← get).doc.anim? with
  | none => throw .noSuchOperation
  | some a =>
    match Word.place? 1 a.layers.length place with
    | none => throw .outOfRange
    | some i => modifyAnim fun a => { a with layers := a.layers.modify i fun l => { l with picture } }

end Localizer.Editor
