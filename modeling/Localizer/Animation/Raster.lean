import Localizer.Fault
import Localizer.Word

/-!
# Pictures in files

Pictures are read by a library that is no part of this one (`PictureReader`): all that is asked of
it is that sizes are of a certain kind. What follows stands in for it where something is to be run.
It takes the size of a picture from its file. Two formats are known: one made of parts with a check
sum each, of which the first gives the size, and one made of blocks, in which a frame may reach
beyond the size that the file starts with. A picture without any extent is none.
-/

namespace Localizer

/-- A reader for pictures. -/
structure PictureReader where
  /-- The size of the picture that bytes hold. -/
  size : Bytes → Except Fault (Int × Int)
  /-- Makes a blank picture with some width and height. -/
  blank : Int → Int → Except Fault (Int × Int)
  /-- The sides of a picture fit in a signed word. -/
  size_bounds : ∀ {bs : Bytes} {s : Int × Int}, size bs = .ok s → ∀ m ∈ [s.1, s.2], 0 ≤ m ∧ m < 0x80000000

namespace Raster

/-! ### Check sums -/

def checkBit (c : UInt32) : UInt32 := if c &&& 1 = 1 then (c >>> 1) ^^^ 0xEDB88320 else c >>> 1

def checkByte (c : UInt32) (b : UInt8) : UInt32 := Nat.repeat checkBit 8 (c ^^^ b.toUInt32)

def checkSum (bs : Bytes) : UInt32 := bs.foldl checkByte 0xFFFFFFFF ^^^ 0xFFFFFFFF

/-! ### Files of parts -/

def bigEndian (bs : Bytes) : Nat := Word.value bs.reverse

def headKind : Bytes := [0x49, 0x48, 0x44, 0x52]

/-- The kinds of the parts that end what comes before the pixels. -/
def pixelKinds : List Bytes := [[0x49, 0x44, 0x41, 0x54], [0x49, 0x45, 0x4E, 0x44]]

/-- The parts before the pixels, at most `fuel` of them, each with its kind. Their check sums must
be right, and the pixels must follow. -/
def partsFrom : Nat → Bytes → Option (List (Bytes × Bytes))
  | 0, _ => none
  | fuel + 1, bs =>
    let size := bigEndian (bs.take 4)
    let kind := (bs.drop 4).take 4
    let body := (bs.drop 8).take size
    let sum := (bs.drop (8 + size)).take 4
    if pixelKinds.contains kind then some []
    else if sum.length = 4 && bigEndian sum = (checkSum (kind ++ body)).toNat then
      (partsFrom fuel (bs.drop (12 + size))).map ((kind, body) :: ·)
    else none

/-- The depths of a channel that go with a kind of color. -/
def depths : Nat → List Nat
  | 0 => [1, 2, 4, 8, 16]
  | 2 => [8, 16]
  | 3 => [1, 2, 4, 8]
  | 4 => [8, 16]
  | 6 => [8, 16]
  | _ => []

/-- The size that the part with the size gives, if the colors are of a known kind. -/
def headSize? (body : Bytes) : Option (Nat × Nat) :=
  match body.drop 8 with
  | depth :: color :: _ :: 0 :: _ :: _ =>
    if (depths color.toNat).contains depth.toNat then some (bigEndian (body.take 4), bigEndian ((body.drop 4).take 4))
    else none
  | _ => none

def partsMark : Bytes := [0x89, 0x50, 0x4E, 0x47, 0x0D, 0x0A, 0x1A, 0x0A]

def sizeOfParts? (bs : Bytes) : Option (Nat × Nat) := do
  headSize? (← (← partsFrom bs.length (bs.drop 8)).lookup headKind)

/-! ### Files of blocks -/

/-- What follows a chain of blocks: each starts with its length, and the last one is empty. -/
def skipBlocks : Nat → Bytes → Bytes
  | 0, bs => bs
  | _, [] => []
  | fuel + 1, n :: bs => if n = 0 then bs else skipBlocks fuel (bs.drop n.toNat)

/-- How far the first frame reaches to the right and down. -/
def firstFrame? : Nat → Bytes → Option (Nat × Nat)
  | 0, _ => none
  | _, [] => none
  | fuel + 1, b :: bs =>
    if b = 0x21 then firstFrame? fuel (skipBlocks bs.length (bs.drop 1))
    else if b = 0x2C then
      let field (i : Nat) : Nat := Word.value ((bs.drop i).take 2)
      if 9 < bs.length then some (field 0 + field 4, field 2 + field 6) else none
    else if b = 0x3B then none
    else firstFrame? fuel bs

def blocksMarks : List Bytes := [[0x47, 0x49, 0x46, 0x38, 0x37, 0x61], [0x47, 0x49, 0x46, 0x38, 0x39, 0x61]]

/-- The length of the table of colors that the flags of a file of blocks announce. -/
def colorTableLength (flags : Nat) : Nat := if flags < 128 then 0 else 3 * Nat.pow 2 (flags % 8 + 1)

def sizeOfBlocks? (bs : Bytes) : Option (Nat × Nat) := do
  let flags ← bs[10]?
  let (right, bottom) ← firstFrame? bs.length (bs.drop (13 + colorTableLength flags.toNat))
  return (max (Word.value ((bs.drop 6).take 2)) right, max (Word.value ((bs.drop 8).take 2)) bottom)

/-! ### Sizes -/

/-- How many pixels a picture may have that is read, as a guard against files that unpack to far
more. -/
def maxPixels : Nat := 178956970

def size (bs : Bytes) : Except Fault (Int × Int) :=
  let found :=
    if bs.take 8 = partsMark then sizeOfParts? bs
    else if blocksMarks.contains (bs.take 6) then sizeOfBlocks? bs
    else none
  match found with
  | some (w, h) =>
    if w = 0 || h = 0 then .error .notAnImage
    else if maxPixels < w * h then .error .tooManyPixels
    else .ok (w, h)
  | none => .error .notAnImage

theorem bounds_of_size {bs : Bytes} {s : Int × Int} (h : size bs = .ok s) :
    ∀ m ∈ [s.1, s.2], 0 ≤ m ∧ m < 0x80000000 := by
  unfold size at h
  dsimp only at h
  split at h
  · next w h' _ =>
    split at h
    · cases h
    · next hzero =>
      split at h
      · cases h
      · next hmany =>
        cases h
        simp only [Bool.or_eq_true, decide_eq_true_eq, not_or] at hzero
        have hpixels : w * h' ≤ 178956970 := Nat.not_lt.mp hmany
        have hw : w ≤ w * h' := Nat.le_mul_of_pos_right w (Nat.pos_of_ne_zero hzero.2)
        have hh : h' ≤ w * h' := Nat.le_mul_of_pos_left h' (Nat.pos_of_ne_zero hzero.1)
        simp only [List.forall_mem_cons, List.not_mem_nil, false_implies, implies_true, and_true]
        omega
  · cases h

/-- The longest side that can be asked for: a signed word. -/
def maxSide : Int := 0x7FFFFFFF

/-- The widest blank picture: a row of it takes four bytes for each pixel, and its length is a
signed word. -/
def maxWidth : Int := 0x1FFFFFFE

/-- How many pixels there is taken to be room for in memory. -/
def maxRoom : Int := 0x100000000

def blank (w h : Int) : Except Fault (Int × Int) :=
  if maxSide < w || maxSide < h then .error .unbounded
  else if maxWidth < w || maxRoom < w * h then .error .noRoom
  else .ok (w, h)

def reader : PictureReader := ⟨size, blank, bounds_of_size⟩

end Raster

end Localizer
