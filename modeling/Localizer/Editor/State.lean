import Localizer.Animation.Timeline
import Localizer.Workspace

/-!
# The state of the editor

The editor shows an animation, lets the user move through its frames, and changes its layers. What
can be undone is the *document*: the animation, the adjustments of its layers, the frame and the
range of frames that is shown. Everything else is what the windows show.
-/

namespace Localizer

open Text

namespace Editor

/-- What an undo step brings back. -/
structure Document where
  anim? : Option Animation := none
  /-- How layers by place are kept centred. -/
  adjust : List (Nat × Text) := []
  frame : Float := 0
  /-- The frames that can be chosen, from the first to the last. -/
  range : Int × Int := (0, 0)

/-- How the plane of the animation lies on the canvas. -/
structure View where
  /-- The size of a unit of the plane. -/
  scale : Float := 1
  offX : Int := 0
  offY : Int := 0

inductive Tone where
  | info
  | error
  | warning
  deriving DecidableEq

structure Message where
  tone : Tone
  title : Text
  text : Text

structure Row where
  place : Nat
  label : Text
  /-- Whether the layer is shown. -/
  mark : Text

structure Canvas where
  width : Int
  height : Int
  /-- The corners of the pictures drawn. -/
  draws : List (Int × Int) := []
  rect? : Option (List Int) := none
  texts : List Text := []

/-- Lists of the window that tell the user's choices from the program's. While one is being filled,
choices in it do not count. -/
structure Busy where
  frames : Bool := false
  files : Bool := false
  alpha : Bool := false
  xy : Bool := false

end Editor

structure Editor where
  files : Workspace
  canvas : Editor.Canvas
  doc : Editor.Document := {}
  /-- Earlier documents, the latest first. -/
  undos : List Editor.Document := []
  /-- Documents that were undone, the latest first. -/
  redos : List Editor.Document := []
  baseDir : Text := []
  path : Text := []
  playing : Bool := false
  playLabel : Text := "播放"
  speed : Number := .real 1
  /-- Scaled layers are kept centred. -/
  centering : Bool := true
  selected? : Option Nat := none
  screen : List (Nat × Int × Int) := []
  hidden : List Int := []
  view : Editor.View := {}
  firstFrame : Int := 0
  frameCount : Nat := 0
  frameChoice : List Int := []
  fileRows : List Text := []
  fileChoice : List Int := []
  layerRows : List Editor.Row := []
  layerChoice : List Nat := []
  actionText : Text := []
  actionTexts : List Text := []
  adjustText : Text := "默认"
  xText : Text := "0"
  yText : Text := "0"
  alphaText : Text := "255"
  positionText : Text := "当前XY: - , -"
  busy : Editor.Busy := {}
  messages : List Editor.Message := []

namespace Editor

/-- Work on the editor. A fault leaves what was done before it. -/
abbrev Edit (α : Type) := ExceptT Fault (StateM Editor) α

end Editor

end Localizer
