import Localizer.Animation.Basic
import Localizer.Assoc
import Localizer.Encoding.Utf8
import Localizer.Word

/-!
# Animation files

A file is a header of 24 bytes, a table with an entry of 64 bytes for each layer, and for each layer
a block with its number and its key frames of 44 bytes. All numbers are words, low byte first. A
file that ends early gives what is complete.
-/

namespace Localizer.Animation

open Text Encoding

def magic : Bytes := [0x41, 0x32, 0x41, 0x20]

/-! ### Writing -/

/-- An unsigned word, which must be in range. -/
def unsignedWord (n : Int) : Except Fault Bytes :=
  if 0 ≤ n && n < 0x100000000 then .ok (Word.u32 n) else .error .badField

def signedWord (n : Int) : Except Fault Bytes :=
  if -0x80000000 ≤ n && n < 0x80000000 then .ok (Word.u32 n) else .error .badField

/-- The fields of a key frame other than its time. -/
def payload (k : Key) : Except Fault Bytes := do
  let color1 ← unsignedWord k.color1
  let middle ← [k.rotX, k.rotY, k.rotZ, k.scaleX, k.scaleY].mapM signedWord
  let color2 ← unsignedWord k.color2
  let position ← [k.posX, k.posY, k.posZ].mapM signedWord
  return color1 ++ middle.flatten ++ color2 ++ position.flatten

def keyBytes (k : Key) : Except Fault Bytes := return (← unsignedWord k.time) ++ (← payload k)

/-- The key frames in the order of their times, those of the same time in the order they are in. -/
def inOrder (ks : List Key) : List Key := ks.mergeSort fun k l => k.time ≤ l.time

/-- A name in a field of 32 bytes, cut to 31. -/
def nameField (name : Text) : Bytes :=
  let bs := (Utf8.encodeLossy name).take 31
  bs ++ List.replicate (32 - bs.length) 0

/-- The size that a file gives to the picture of a layer, zero if there is no such picture. -/
def pictureSize (pictures : List Picture) (name : Text) : Int × Int :=
  match pictures.reverse.find? fun p => p.name = name with
  | some p => (p.width, p.height)
  | none => (0, 0)

def entryBytes (pictures : List Picture) (l : Layer) : Except Fault Bytes := do
  let (w, h) := pictureSize pictures l.name
  return nameField l.name ++ (← signedWord l.parent) ++ (← unsignedWord l.unk36) ++ (← unsignedWord l.unk40) ++
    (← unsignedWord l.unk44) ++ (← signedWord w) ++ (← signedWord h) ++ (← unsignedWord l.unk56) ++
    (← unsignedWord l.flags)

def blockBytes (l : Layer) : Except Fault Bytes := do
  return (← unsignedWord l.id) ++ (← unsignedWord l.keys.length) ++ (← (inOrder l.keys).mapM keyBytes).flatten

def headerBytes (a : Animation) : Except Fault Bytes := do
  return magic ++ (← unsignedWord (if a.tickRate > 0 then a.tickRate else 60)) ++ (← unsignedWord a.totalFrames) ++
    (← unsignedWord (a.markerB * 0x10000 + a.markerA % 0x10000)) ++ (← unsignedWord a.headerFlags) ++
    (← unsignedWord a.layers.length)

/-- The file of an animation. Every field must be in range. -/
def encode (a : Animation) : Except Fault Bytes := do
  return (← headerBytes a) ++ (← a.layers.mapM (entryBytes a.pictures)).flatten ++ (← a.layers.mapM blockBytes).flatten

/-! ### Reading -/

def wordAt (bs : Bytes) (offset : Nat) : Int := Word.u32At bs offset

def signedAt (bs : Bytes) (offset : Nat) : Int := Word.signed 32 (Word.u32At bs offset)

def readKey (bs : Bytes) : Key where
  time := wordAt bs 0
  color1 := wordAt bs 4
  rotX := signedAt bs 8
  rotY := signedAt bs 12
  rotZ := signedAt bs 16
  scaleX := signedAt bs 20
  scaleY := signedAt bs 24
  color2 := wordAt bs 28
  posX := signedAt bs 32
  posY := signedAt bs 36
  posZ := signedAt bs 40

/-- The first `n` records of `size` bytes. -/
def chunks (size : Nat) : Nat → Bytes → List Bytes
  | 0, _ => []
  | n + 1, bs => bs.take size :: chunks size n (bs.drop size)

/-- As many of `n` records of `size` bytes as are complete, and what follows them. If one is not
complete, nothing follows. -/
def records (size n : Nat) (bs : Bytes) : List Bytes × Bytes :=
  let k := min n (bs.length / size)
  (chunks size k bs, if k = n then bs.drop (size * n) else [])

def entryName (entry : Bytes) : Text := Utf8.decodeLossy (upTo 0 (entry.take 32))

def pictureIndex? (pictures : List Picture) (name : Text) : Option Nat := pictures.findIdx? fun p => p.name = name

/-- Adds the picture of a table entry, unless there is one of that name. -/
def addPicture (pictures : List Picture) (entry : Bytes) : List Picture :=
  if (pictureIndex? pictures (entryName entry)).isSome then pictures
  else pictures ++ [⟨entryName entry, wordAt entry 48, wordAt entry 52, none⟩]

/-- The layer of a table entry, a number and key frames. -/
def readLayer (pictures : List Picture) (entry : Bytes) (id : Int) (keys : List Key) : Layer where
  id := id
  picture := (pictureIndex? pictures (entryName entry)).getD 0
  name := entryName entry
  parent := signedAt entry 32
  unk36 := wordAt entry 36
  unk40 := wordAt entry 40
  unk44 := wordAt entry 44
  unk56 := wordAt entry 56
  flags := wordAt entry 60
  keys := keys

def readBlocks (pictures : List Picture) : List Bytes → Bytes → List Picture × List Layer
  | [], _ => (pictures, [])
  | entry :: entries, bs =>
    let pictures := addPicture pictures entry
    if bs.length < 8 then (pictures, [])
    else
      let (keys, rest) := records 44 (Word.u32At bs 4) (bs.drop 8)
      let (ps, ls) := readBlocks pictures entries rest
      (ps, readLayer pictures entry (wordAt bs 0) (keys.map readKey) :: ls)

def decode (bs : Bytes) : Except Fault Animation :=
  if bs.take 4 ≠ magic then .error .notAnimation
  else if bs.length < 24 then .error .badField
  else
    let (entries, rest) := records 64 (Word.u32At bs 20) (bs.drop 24)
    let (pictures, layers) := readBlocks [] entries rest
    let total := wordAt bs 8
    let markerA := wordAt bs 12 % 0x10000
    let markerB := wordAt bs 12 / 0x10000
    .ok {
      tickRate := wordAt bs 4
      totalFrames := total
      markerA := markerA
      markerB := markerB
      headerFlags := wordAt bs 16
      pictures := pictures
      layers := layers
      actions := inferActions total markerA markerB
      layerCount := layers.length
      pictureCount := pictures.length }

end Localizer.Animation
