import Localizer.Editor.State

/-!
# What the editor shows

Drawing a frame, loading the pictures, and filling the lists of the window. All of it follows from
the document and the files.
-/

namespace Localizer.Editor

open Text Animation

def planeWidth : Int := 640

def planeHeight : Int := 480

/-- Goes on with the result of a calculation, or fails with its fault. -/
def ofExcept {α : Type} : Except Fault α → Edit α
  | .ok a => pure a
  | .error f => throw f

/-- The size of a unit of the plane on a canvas: as large as fits but not larger than life. -/
def planeScale (w h : Int) : Except Fault Float := do
  return min (min (← Number.quotient w planeWidth.toNat) (← Number.quotient h planeHeight.toNat)) 1

/-- The length of a side of the plane on the canvas. -/
def shownSide (scale : Float) (side : Int) : Except Fault Float := return (← Number.fraction side) * scale

/-- Where a side of the plane starts so that it is centred on a side of the canvas. -/
def planeOffset (scale : Float) (side room : Int) : Except Fault Int := do
  Number.cut (((← Number.fraction room) - (← shownSide scale side)) * 0.5)

/-- The frame of the plane: its left, top, right and bottom. -/
def View.rect (v : View) : Except Fault (List Int) := do
  return [v.offX, v.offY, v.offX + (← Number.cut (← shownSide v.scale planeWidth)),
    v.offY + (← Number.cut (← shownSide v.scale planeHeight))]

def usualAdjust : Text := "默认"

def adjustChoices : List Text := [usualAdjust, "关", "中心", "仅X", "仅Y"]

/-- Whether a layer of some scale is kept centred horizontally and vertically. By default an axis is
if it is scaled, unless it is scaled much more than the other. -/
def centres (centering : Bool) (adjust : Text) (sx sy : Float) : Bool × Bool :=
  if adjust = usualAdjust then
    if centering then
      let dx := (sx - 1).abs
      let dy := (sy - 1).abs
      let uneven := (sx - sy).abs > 0.5
      (dx > 1e-6 && !(uneven && dx > dy * 2), dy > 1e-6 && !(uneven && dy > dx * 2))
    else (false, false)
  else if adjust = "中心" then (true, true)
  else (adjust = "仅X", adjust = "仅Y")

/-- How far a side is moved so that a picture whose side grows from `old` to `new` stays centred. -/
def centreShift (v : View) (new old : Int) : Except Fault Int := do
  Number.cut ((← Number.fraction (new - old)) * v.scale * 0.5)

/-- Where on the plane a layer is, and how much its picture is scaled. -/
structure Footing where
  x : Float
  y : Float
  scaleX : Float
  scaleY : Float

/-- Where a layer in a pose is, if it can be seen: not transparent, and of some extent. -/
def footing? (p : Pose) : Except Fault (Option Footing) := do
  let x ← p.posX.toFloat
  let y ← p.posY.toFloat
  let sx := (← p.scaleX.toFloat) / 100
  let sy := (← p.scaleY.toFloat) / 100
  return if !isVisible p.color1 || sx == 0 || sy == 0 then none else some ⟨x, y, sx.abs, sy.abs⟩

/-- The corner of the picture of a layer on the canvas, if the picture has any extent there. -/
def corner? (v : View) (centering : Bool) (adjust : Text) (size : Int × Int) (f : Footing) :
    Except Fault (Option (Int × Int)) := do
  let w ← Number.cut ((← Number.fraction size.1) * f.scaleX)
  let h ← Number.cut ((← Number.fraction size.2) * f.scaleY)
  if w ≤ 0 || h ≤ 0 then return none
  let x ← Number.cut ((← Number.fraction v.offX) + f.x * v.scale)
  let y ← Number.cut ((← Number.fraction v.offY) + f.y * v.scale)
  let (cx, cy) := centres centering adjust f.scaleX f.scaleY
  let dx ← if cx then centreShift v w size.1 else pure 0
  let dy ← if cy then centreShift v h size.2 else pure 0
  return some (x - dx, y - dy)

/-- The picture of a layer, if it is in the list of pictures. -/
def picture? (a : Animation) (l : Layer) : Option Picture :=
  if 0 ≤ l.picture then a.pictures[l.picture.toNat]? else none

/-- The corner of a layer in a pose, if the layer is drawn. Its picture must have been loaded. -/
def poseCorner? (e : Editor) (place : Nat) (picture : Picture) (pose : Pose) :
    Except Fault (Option (Int × Int)) := do
  match ← footing? pose, picture.loaded? with
  | none, _ => return none
  | some _, none => throw .noSuchOperation
  | some footing, some size =>
    corner? e.view e.centering ((Assoc.get? place e.doc.adjust).getD usualAdjust) size footing

/-- The corner and the pose of a layer at the frame that is shown, if the layer is drawn. -/
def layerCorner? (e : Editor) (a : Animation) (place : Nat) (l : Layer) : Except Fault (Option (Int × Int × Pose)) := do
  if e.hidden.contains (place : Int) then return none
  match picture? a l with
  | none => return none
  | some picture =>
    match ← poseAt (.real e.doc.frame) l.keys with
    | none => return none
    | some pose => return (← poseCorner? e place picture pose).map fun (x, y) => (x, y, pose)

def noPosition : Text := "当前XY: - , -"

/-- Draws a layer. Returns whether it is the chosen one and was drawn. -/
def drawLayer (a : Animation) (place : Nat) (l : Layer) : Edit Bool := do
  match ← ofExcept (layerCorner? (← get) a place l) with
  | none => return false
  | some (x, y, pose) =>
    modify fun e => { e with screen := Assoc.insert place (x, y) e.screen }
    let chosen := (← get).selected? = some place
    if chosen then
      modify fun e => { e with
        positionText := "当前XY: " ++ decimalInt x ++ " , " ++ decimalInt y
        xText := decimalInt x
        yText := decimalInt y
        alphaText := decimalInt (alpha pose.color1)
        busy := { e.busy with xy := false, alpha := false } }
    modify fun e => { e with canvas := { e.canvas with draws := e.canvas.draws ++ [(x, y)] } }
    return chosen

/-- Draws layers, the first at a place. Returns whether the chosen one was drawn. -/
def drawLayers (a : Animation) : Nat → List Layer → Edit Bool
  | _, [] => return false
  | place, l :: ls => do
    let drawn ← drawLayer a place l
    let more ← drawLayers a (place + 1) ls
    return drawn || more

def statusLine (a : Animation) (frame : Float) : Except Fault Text := do
  return "帧: " ++ decimalInt (← Number.cut frame) ++ " / " ++ decimalInt a.totalFrames ++ "   Rate: " ++ decimalInt a.tickRate ++
    "  播放: 30fps   标记A/B: " ++ decimalInt a.markerA ++ "/" ++ decimalInt a.markerB

def layPlane : Edit Unit := do
  let c := (← get).canvas
  let scale ← ofExcept (planeScale c.width c.height)
  modify fun e => { e with view := { e.view with scale } }
  let offX ← ofExcept (planeOffset scale planeWidth c.width)
  let offY ← ofExcept (planeOffset scale planeHeight c.height)
  modify fun e => { e with view := { scale, offX, offY } }
  let rect ← ofExcept (View.rect { scale, offX, offY })
  modify fun e => { e with canvas := { e.canvas with rect? := some rect } }

def render : Edit Unit := do
  modify fun e => { e with canvas := { width := e.canvas.width, height := e.canvas.height } }
  match (← get).doc.anim? with
  | none =>
    modify fun e => { e with
      positionText := noPosition
      canvas := { e.canvas with texts := ["点击顶部 [打开] 选择 A2A 动画文件"] } }
  | some a =>
    layPlane
    let drawn ← drawLayers a 0 a.layers
    if (← get).selected?.isSome && !drawn then
      modify fun e => { e with positionText := noPosition, alphaText := "-", busy := { e.busy with alpha := false } }
    let line ← ofExcept (statusLine a (← get).doc.frame)
    modify fun e => { e with canvas := { e.canvas with texts := e.canvas.texts ++ [line] } }

/-! ### Pictures -/

def fileSize (ws : Workspace) (p : Text) : Except Fault (Int × Int) := do ws.pictures.size (← ws.read p).bytes

/-- Loads a picture. One without a file is drawn as a box of its size. -/
def loadPicture (ws : Workspace) (dir : Text) (p : Picture) : Except Fault Picture := do
  let path := Path.append dir (fileName p.name)
  let size ← if ws.exists_ path then fileSize ws path else ws.pictures.blank (max 10 p.width) (max 10 p.height)
  return { p with loaded? := some size }

def loadPictures (ws : Workspace) (dir : Text) : List Picture → List Picture × Option Fault
  | [] => ([], none)
  | p :: ps =>
    match loadPicture ws dir p with
    | .error f => (p :: ps, some f)
    | .ok p =>
      let (ps, f) := loadPictures ws dir ps
      (p :: ps, f)

def modifyAnim (f : Animation → Animation) : Edit Unit :=
  modify fun e => { e with doc := { e.doc with anim? := e.doc.anim?.map f } }

def check : Option Fault → Edit Unit
  | none => pure ()
  | some f => throw f

def loadAll : Edit Unit := do
  let e ← get
  match e.doc.anim? with
  | none => pure ()
  | some a =>
    let (ps, f) := loadPictures e.files e.baseDir a.pictures
    modifyAnim fun a => { a with pictures := ps }
    check f

/-! ### Lists -/

def places (n : Nat) (i : Int) : Text :=
  match i with
  | .ofNat k => padLeft n '0' (decimal k)
  | .negSucc k => '-' :: padLeft (n - 1) '0' (decimal (k + 1))

def layerRow (hidden : List Int) (place : Nat) (l : Layer) : Row :=
  ⟨place, places 2 place ++ "  " ++ l.name, if hidden.contains (place : Int) then "☐" else "☑"⟩

/-- The rows of layers, the first at a place, until one has a picture that was not loaded. Layers
whose pictures are not in the list have no row. -/
def layerRowsFrom (hidden : List Int) (a : Animation) : Nat → List Layer → List Row × Option Fault
  | _, [] => ([], none)
  | place, l :: ls =>
    match picture? a l with
    | none => layerRowsFrom hidden a (place + 1) ls
    | some p =>
      if p.loaded?.isNone then ([], some .noSuchOperation)
      else
        let (rs, f) := layerRowsFrom hidden a (place + 1) ls
        (layerRow hidden place l :: rs, f)

def fillLayers : Edit Unit := do
  modify fun e => { e with layerRows := [], layerChoice := [] }
  let e ← get
  match e.doc.anim? with
  | none => pure ()
  | some a =>
    let (rs, f) := layerRowsFrom e.hidden a 0 a.layers
    modify fun e => { e with layerRows := rs }
    check f

def chooseRow (place : Int) : Edit Unit := do
  if (← get).layerRows.any fun r => r.place = place then modify fun e => { e with layerChoice := [place.toNat] }
  else throw .noSuchRow

/-- Chooses a frame in the list of frames, or the nearest one in it. -/
def chooseFrame (i : Int) : Edit Unit :=
  modify fun e =>
    if e.frameCount = 0 then e
    else
      let last := e.firstFrame + (e.frameCount : Int) - 1
      { e with frameChoice := [max e.firstFrame (min i last) - e.firstFrame], busy := { e.busy with frames := false } }

def fillFrames : Edit Unit := do
  modify fun e => { e with frameCount := 0, frameChoice := [] }
  let e ← get
  match e.doc.anim? with
  | none => pure ()
  | some a =>
    let stop := min e.doc.range.2 a.totalFrames
    let start := max 0 (min e.doc.range.1 stop)
    modify fun e => { e with firstFrame := start, frameCount := (stop + 1 - start).toNat }
    chooseFrame (← ofExcept (Number.cut e.doc.frame))

def actionLabel (a : Action) : Text := a.name ++ " [" ++ decimalInt a.start ++ "-" ++ decimalInt a.stop ++ "]"

def fillActions : Edit Unit := do
  modify fun e => { e with actionTexts := [] }
  match (← get).doc.anim? with
  | none => pure ()
  | some a =>
    modify fun e => { e with actionTexts := a.actions.map actionLabel }
    match a.actions with
    | [] => pure ()
    | first :: _ =>
      modify fun e => { e with
        actionText := actionLabel first
        doc := { e.doc with range := (first.start, first.stop) } }
    fillFrames

def frameLabel (i : Int) : Text := "第 " ++ places 4 i ++ " 帧"

/-- Fills the list of files with the animations in a directory and chooses one, the first if it is
not there. -/
def fillFiles (dir path : Text) : Edit Unit := do
  modify fun e => { e with fileRows := [], fileChoice := [] }
  let ws := (← get).files
  if !dir.isEmpty && ws.isDir dir then
    let names := ((ws.names dir).mergeSort fun a b => Text.le (lower a) (lower b)).filter fun n =>
      endsWith (lower n) ".a2a"
    if !names.isEmpty then
      let i := (names.findIdx? fun n => Path.normal (Path.append dir n) = Path.normal path).getD 0
      modify fun e => { e with
        fileRows := names
        fileChoice := [((if path.isEmpty then 0 else i : Nat) : Int)]
        busy := { e.busy with files := false } }

end Localizer.Editor
