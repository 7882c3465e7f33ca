import Localizer.Number

/-!
# Key frames

A key frame fixes how a layer looks at one time. Between two key frames the layer is blended: its
colours channel by channel, its rotation, scale and position in proportion to the time passed.
-/

namespace Localizer.Animation

structure Key where
  time : Int
  /-- The colour, with the opacity in its high byte. -/
  color1 : Int
  rotX : Int
  rotY : Int
  /-- The rotation in the plane, in degrees. -/
  rotZ : Int
  scaleX : Int
  scaleY : Int
  color2 : Int
  posX : Int
  posY : Int
  posZ : Int
  deriving DecidableEq, Repr

/-- How a layer looks at a time: a key frame whose measures may be fractions. -/
structure Pose where
  /-- The frame, zero if blended. -/
  time : Int
  color1 : Int
  /-- The rotation about the first axis, zero if blended. -/
  rotX : Int
  rotY : Int
  rotZ : Number
  scaleX : Number
  scaleY : Number
  color2 : Int
  posX : Number
  posY : Number
  posZ : Int

def Key.pose (k : Key) : Pose :=
  ⟨k.time, k.color1, k.rotX, k.rotY, .whole k.rotZ, .whole k.scaleX, .whole k.scaleY, k.color2, .whole k.posX,
    .whole k.posY, k.posZ⟩

/-! ### Colours -/

/-- The byte of a colour `shift` bits above its lowest. -/
def channel (shift : Nat) (c : Int) : Int := c / (Nat.pow 2 shift : Nat) % 256

def alpha (c : Int) : Int := channel 24 c

def setAlpha (a c : Int) : Int := a % 256 * 0x1000000 + c % 0x1000000

def isVisible (c : Int) : Bool := alpha c ≠ 0

/-- The number a share of the way from one to another. -/
def between (a b : Int) (share : Number) : Except Fault Number := do
  (Number.whole a).add (← (Number.whole (b - a)).mul share)

def blendChannel (a b : Int) (share : Number) : Except Fault Int := return (← (← between a b share).round) % 256

def blend (c d : Int) (share : Number) : Except Fault Int := do
  let part (shift : Nat) : Except Fault Int := blendChannel (channel shift c) (channel shift d) share
  return (← part 24) * 0x1000000 + (← part 16) * 0x10000 + (← part 8) * 0x100 + (← part 0)

/-! ### Poses -/

def interpolate (k l : Key) (share : Number) : Except Fault Pose := do
  let color1 ← blend k.color1 l.color1 share
  let color2 ← blend k.color2 l.color2 share
  let rotZ ← between k.rotZ l.rotZ share
  let scaleX ← between k.scaleX l.scaleX share
  let scaleY ← between k.scaleY l.scaleY share
  let posX ← between k.posX l.posX share
  let posY ← between k.posY l.posY share
  return { time := 0, color1, rotX := 0, rotY := 0, rotZ, scaleX, scaleY, color2, posX, posY, posZ := 0 }

def Key.reached (k : Key) (t : Number) : Bool := (Number.whole k.time).le t

/-- The share of the time between two key frames that has passed. -/
def shareAt (k l : Key) (t : Number) : Except Fault Number :=
  return .real (← (← t.sub (.whole k.time)).div (.whole (l.time - k.time)))

/-- The first two neighbours that enclose a time. -/
def enclosing? (t : Number) : List Key → Option (Key × Key)
  | k :: l :: ks => if k.reached t && t.lt (.whole l.time) then some (k, l) else enclosing? t (l :: ks)
  | _ => none

/-- The pose at a time: that of the first key frame before it, that of the last after it, and a
blend of the two that enclose it between. -/
def poseAt (t : Number) (ks : List Key) : Except Fault (Option Pose) := do
  match ks.head?, ks.getLast? with
  | some first, some last =>
    if t.le (.whole first.time) then return some first.pose
    else if last.reached t then return some last.pose
    else
      match enclosing? t ks with
      | some (k, l) => return some (← interpolate k l (← shareAt k l t))
      | none => return some last.pose
  | _, _ => return none

end Localizer.Animation
