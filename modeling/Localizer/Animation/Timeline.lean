import Localizer.Animation.Codec

/-!
# Editing a timeline

Key frames are edited one time at a time. An edit first makes sure that there is a key frame at the
time: a new one looks like the latest one before it. No edit removes a key frame or changes its
time.
-/

namespace Localizer.Animation

def defaultKey (t : Int) : Key :=
  ⟨t, 0xFFFFFFFF, 0, 0, 0, 100, 100, 0xFFFFFFFF, 320, 240, 0⟩

/-- The key frame that a new one at a time looks like: the latest at or before it, else the first.
-/
def sourceKey? (t : Int) (ks : List Key) : Option Key :=
  (((inOrder ks).takeWhile fun k => k.time ≤ t).getLast?).or (inOrder ks).head?

def previousKey? (t : Int) (ks : List Key) : Option Key := ((inOrder ks).takeWhile fun k => k.time < t).getLast?

/-- A key frame with all its fields but the time in range. -/
def Key.fits (k : Key) : Bool := (payload k).isOk

/-- A copy of a key frame at another time. Its fields must be in range. -/
def copyKey (t : Int) (k : Key) : Except Fault Key := if k.fits then .ok { k with time := t } else .error .badField

def newKey (t : Int) (ks : List Key) : Except Fault Key :=
  match sourceKey? t ks with
  | some k => copyKey t k
  | none => .ok (defaultKey t)

/-- The key frames with one at a time, which is made if there is none. -/
def ensureKey (t : Int) (ks : List Key) : Except Fault (List Key) :=
  if ks.any fun k => k.time = t then .ok ks
  else (newKey t ks).map fun k => inOrder (ks ++ [k])

def modifyKey (t : Int) (f : Key → Key) : List Key → List Key
  | [] => []
  | k :: ks => if k.time = t then f k :: ks else k :: modifyKey t f ks

/-- Makes sure of a key frame at a time and changes it. -/
def editKey (t : Int) (f : Key → Key) (ks : List Key) : Except Fault (List Key) :=
  (ensureKey t ks).map (modifyKey t f)

/-- What is to be done to the key frame at a time: a change of it, or nothing at all. It may also
turn out that it cannot be said. -/
structure KeyEdit where
  time : Int
  change : Except Fault (Option (Key → Key))

def KeyEdit.of (t : Int) (f : Key → Key) : KeyEdit := ⟨t, .ok (some f)⟩

/-- What comes of editing key frames at several times: the key frames, the time that was reached,
and why the work stopped if it did. -/
structure Sweep where
  keys : List Key
  reached? : Option Float := none
  fault? : Option Fault := none

/-- Edits key frames one after another. The time at which a change is made is a fraction, so that a
time that no fraction can hold is out of reach. -/
def applyEdits : List KeyEdit → Sweep → Sweep
  | [], s => s
  | e :: es, s =>
    match e.change with
    | .error fault => { s with fault? := some fault }
    | .ok none => applyEdits es s
    | .ok (some f) =>
      match Number.fraction e.time with
      | .error fault => { s with fault? := some fault }
      | .ok x =>
        match Number.cut x >>= fun t => editKey t f s.keys with
        | .error fault => { s with reached? := some x, fault? := some fault }
        | .ok ks => applyEdits es { s with keys := ks, reached? := some x }

def span (first last : Int) : List Int := (List.range (last + 1 - first).toNat).map fun i : Nat => first + i

def Key.withAlpha (a : Int) (k : Key) : Key := { k with color1 := setAlpha a k.color1 }

def Key.moved (dx dy : Int) (k : Key) : Key := { k with posX := k.posX + dx, posY := k.posY + dy }

def Key.placed (x y : Int) (k : Key) : Key := { k with posX := x, posY := y }

def Key.like (l k : Key) : Key := { l with time := k.time }

/-- The times at which key frames are made so that nothing outside of a range changes: just before
it, at its start, and just after it. -/
def borders (first last total : Int) : List Int :=
  (if 0 < first then [first - 1] else []) ++ [first] ++ (if last + 1 ≤ total then [last + 1] else [])

def alphaEdits (first last a total : Int) : List KeyEdit :=
  ((borders first last total).map fun t => .of t id) ++ (span first last).map fun t => .of t (Key.withAlpha a)

/-- The edits that make key frames follow another layer, at every frame where that layer has a pose.
-/
def followEdits (change : Pose → Except Fault (Key → Key)) (source : List Key) (total : Int) : List KeyEdit :=
  (span 0 total).map fun t => ⟨t, do
    match ← poseAt (.whole t) source with
    | some p => return some (← change p)
    | none => return none⟩

/-- The edits that give key frames the opacity of another layer. -/
def followAlphaEdits : List Key → Int → List KeyEdit := followEdits fun p => .ok (Key.withAlpha (alpha p.color1))

/-- The edits that give key frames the position of another layer. -/
def followPositionEdits : List Key → Int → List KeyEdit :=
  followEdits fun p => return Key.placed (← p.posX.trunc) (← p.posY.trunc)

/-! ## Arranging layers

Removing, adding and renaming layers. Layers are referred to by their places, so that removing one
shifts the references to those above it. -/

open Text

/-- What becomes of the place of a layer when the layer at `i` is removed. -/
def shiftPlace? (i k : Int) : Option Int := if k = i then none else some (if i < k then k - 1 else k)

/-- What becomes of the parent of a layer when the layer at `i` is removed. -/
def shiftParent (i : Nat) (parent : Int) : Int :=
  if parent = i then -1 else if (i : Int) < parent then parent - 1 else parent

def removeLayer (i : Nat) (a : Animation) : Animation :=
  let layers := (a.layers.eraseIdx i).map fun l => { l with parent := shiftParent i l.parent }
  let a := { a with layers := layers, layerCount := layers.length }
  { a with actions := a.ownActions }

/-- The place of the picture of a name, and the pictures, to which one of the given size is added if
there is none of that name. -/
def requirePicture (name : Text) (size : Int × Int) (pictures : List Picture) : Nat × List Picture :=
  match pictureIndex? pictures name with
  | some i => (i, pictures)
  | none => (pictures.length, pictures ++ [⟨name, size.1, size.2, none⟩])

/-- Lets the layer at a place show another picture. -/
def renameLayer (i : Nat) (name : Text) (size : Int × Int) (a : Animation) : Animation :=
  let (p, pictures) := requirePicture name size a.pictures
  { a with
    pictures := pictures
    pictureCount := pictures.length
    layers := a.layers.modify i fun l => { l with name := name, picture := p } }

def nextId (a : Animation) : Int := (a.layers.map Layer.id).foldl max (-1) + 1

def staticLayer (id : Int) (picture : Nat) (name : Text) (x y : Int) : Layer where
  id := id
  picture := picture
  name := name
  unk36 := 0xFFFFFFFF
  unk40 := 0x3000
  unk44 := 0xFFFFFFFF
  keys := [⟨0, 0xFFFFFFFF, 0, 0, 0, 100, 100, 0xFFFFFFFF, x, y, 0⟩]

/-- Adds a layer that does not move on top of the others. -/
def addStatic (name : Text) (size : Int × Int) (x y : Int) (a : Animation) : Animation :=
  let (p, pictures) := requirePicture name size a.pictures
  let layers := a.layers ++ [staticLayer a.nextId p name x y]
  { a with
    pictures := pictures
    pictureCount := pictures.length
    layers := layers
    layerCount := layers.length }

def modifyKeys (i : Nat) (f : List Key → List Key) (a : Animation) : Animation :=
  { a with layers := a.layers.modify i fun l => { l with keys := f l.keys } }

/-! ### Places in the world -/

/-- Where a layer is: position, rotation in degrees, and scale. -/
structure Transform where
  x : Float := 0
  y : Float := 0
  rot : Float := 0
  scaleX : Float := 1
  scaleY : Float := 1

def Transform.ofPose : Option Pose → Except Fault Transform
  | some p => do
    let x ← p.posX.toFloat
    let y ← p.posY.toFloat
    let rot ← p.rotZ.toFloat
    return ⟨x, y, rot, (← p.scaleX.toFloat) / 100, (← p.scaleY.toFloat) / 100⟩
  | none => .ok {}

def pi : Float := 3.141592653589793

/-- Where something attached to a layer is, seen from where the layer is. -/
def Transform.attach (parent own : Transform) : Transform :=
  let lx := own.x * parent.scaleX
  let ly := own.y * parent.scaleY
  let rad := parent.rot * (pi / 180)
  { x := parent.x + (lx * rad.cos - ly * rad.sin)
    y := parent.y + (lx * rad.sin + ly * rad.cos)
    rot := parent.rot + own.rot
    scaleX := parent.scaleX * own.scaleX
    scaleY := parent.scaleY * own.scaleY }

/-- The layer at a place. Places below zero count from the last layer. -/
def layerAt? (a : Animation) (i : Int) : Option Layer := (Word.place? 1 a.layers.length i).bind (a.layers[·]?)

/-- Where the layer at a place is, and all the places found on the way. A layer that is attached to
itself through others, of which `visiting` are the ones being looked at, counts as unmoved there.
At most `fuel` layers are followed. -/
def transformAt (a : Animation) (t : Number) : Nat → List Int → List (Int × Transform) → Int →
    Except Fault (Transform × List (Int × Transform))
  | 0, _, known, _ => .ok ({}, known)
  | fuel + 1, visiting, known, i =>
    match known.lookup i, visiting.contains i with
    | some tf, _ => .ok (tf, known)
    | none, true => .ok ({}, known)
    | none, false =>
      match layerAt? a i with
      | none => .error .outOfRange
      | some layer => do
        let own ← Transform.ofPose (← poseAt t layer.keys)
        if 0 ≤ layer.parent && layer.parent < a.layers.length then
          let (tf, known) ← transformAt a t fuel (i :: visiting) known layer.parent
          let tf := tf.attach own
          return (tf, (i, tf) :: known)
        else return (own, (i, own) :: known)

end Localizer.Animation
