import Localizer.Animation.Key

/-!
# Animations

An animation is a stack of layers, each showing one image along a line of key frames. Two marks
divide its time into actions.
-/

namespace Localizer

open Text

namespace Animation

structure Picture where
  name : Text
  width : Int
  height : Int
  /-- The size of the picture that has been loaded for it. -/
  loaded? : Option (Int × Int) := none
  deriving DecidableEq

def fileName (name : Text) : Text :=
  (if endsWith (lower name) ".png" then name.take (name.length - 4) else name) ++ ".agi.png"

structure Layer where
  id : Int
  /-- The place of its picture in the list of pictures. -/
  picture : Int
  name : Text
  /-- The layer that it is attached to, negative if there is none. -/
  parent : Int := -1
  /-- The field at offset 36; five means that the layer is turned left to right. -/
  unk36 : Int := 0
  /-- The field at offset 40. -/
  unk40 : Int := 0
  /-- The field at offset 44. -/
  unk44 : Int := 0
  /-- The field at offset 56. -/
  unk56 : Int := 0
  flags : Int := 0
  keys : List Key := []
  deriving DecidableEq

structure Action where
  number : Nat
  start : Int
  stop : Int
  deriving DecidableEq

def Action.name (a : Action) : Text := "动作" ++ decimal a.number

/-- The parts between neighbouring points, numbered from `n`. -/
def actionsFrom (n : Nat) : List Int → List Action
  | a :: b :: ps => ⟨n, a, b⟩ :: actionsFrom (n + 1) (b :: ps)
  | _ => []

/-- The points that divide the time of an animation: its ends and the marks within, in order. -/
def points (totalFrames markerA markerB : Int) : List Int :=
  let ends := [0, max 0 totalFrames]
  let marks := [markerA, markerB].filter fun m => 0 ≤ m && m ≤ totalFrames
  (ends ++ marks).eraseDups.mergeSort fun a b => a ≤ b

/-- The actions of an animation. There is always one. -/
def inferActions (totalFrames markerA markerB : Int) : List Action :=
  match actionsFrom 1 (points totalFrames markerA markerB) with
  | [] => [⟨1, 0, max 0 totalFrames⟩]
  | as => as

end Animation

structure Animation where
  tickRate : Int
  totalFrames : Int
  markerA : Int
  markerB : Int
  headerFlags : Int := 0
  pictures : List Animation.Picture := []
  layers : List Animation.Layer := []
  actions : List Animation.Action := []
  layerCount : Nat := 0
  pictureCount : Nat := 0
  deriving DecidableEq

namespace Animation

def ownActions (a : Animation) : List Action := inferActions a.totalFrames a.markerA a.markerB

end Animation

end Localizer
