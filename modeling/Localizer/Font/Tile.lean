import Localizer.Fault
import Localizer.Word

/-!
# Tiles

A tile is the picture of a character in the font of the game: sixteen shades of gray, two pixels in
a byte. It is made from a glyph, which is placed on the tile by its left edge and by the baseline of
the face, cut off at the edges of the tile, and perhaps flipped.
-/

namespace Localizer.Font

open Text

/-- The glyph of a character: a picture in 256 shades of gray. -/
structure Bitmap where
  width : Int
  rows : Int
  /-- How far its left edge is from the origin. -/
  left : Int
  /-- How far its upper edge is above the baseline. -/
  top : Int
  /-- The distance between two rows in the buffer. If it is negative, the last row comes first. -/
  pitch : Int
  buffer : Bytes

/-- A face: its vertical measures, in 64ths of a pixel, and its glyphs. -/
structure Face where
  /-- How far it reaches above the baseline. -/
  ascender : Int := 0
  /-- How far it reaches below the baseline, usually a negative number. -/
  descender : Int := 0
  glyphs : List (Char × Bitmap) := []

structure Shape where
  width : Int
  height : Int
  leftHigh : Bool := false
  flipX : Bool := false
  flipY : Bool := false

/-- The memory that there is taken to be, in bytes: 64 GiB. What asks for more fails for lack of
room. -/
def maxRoom : Int := 0x1000000000

/-- A number of bytes that there must be room for. -/
def room (n : Int) : Except Fault Nat :=
  if n < 0 then .error .badNumeral
  else if 0x7FFFFFFFFFFFFFFF < n then .error .unbounded
  else if maxRoom < n then .error .noRoom
  else .ok n.toNat

def Shape.area (s : Shape) : Int := s.width * s.height

def Shape.size (s : Shape) : Int := s.area / 2

/-- The row of a tile on which the baseline is: the face stands in the middle. -/
def baseline (face : Face) (height : Int) : Int :=
  (height - (face.ascender / 64 - face.descender / 64)) / 2 + face.ascender / 64

/-- The column of a tile at which a glyph starts. It is moved onto the tile if it is not too wide.
-/
def startColumn (g : Bitmap) (width : Int) : Int :=
  if width ≤ g.width || g.left < 0 then 0
  else if g.left + g.width > width then width - g.width
  else g.left

/-- Where the row `y` of a glyph starts in its buffer. -/
def rowOffset (g : Bitmap) (y : Int) : Int := if g.pitch < 0 then (g.rows - 1 - y) * -g.pitch else y * g.pitch

/-- The shade of the pixel of a tile at column `x` and row `y`, with the glyph starting at column
`x0` and row `y0`. -/
def shadeAt (g : Bitmap) (x0 y0 x y : Int) : Except Fault UInt8 :=
  if 0 ≤ x - x0 && x - x0 < g.width && 0 ≤ y - y0 && y - y0 < g.rows then
    (g.buffer[(rowOffset g (y - y0) + (x - x0)).toNat]?).elim (.error .outOfRange) .ok
  else .ok 0

/-- The nearest of sixteen shades. -/
def quantise (v : UInt8) : Nat := (2 * v.toNat + 17) / 34

/-- Packs pixels, two in a byte. -/
def pack (leftHigh : Bool) : List Nat → Except Fault Bytes
  | [] => .ok []
  | [_] => .error .outOfRange
  | a :: b :: ps => do
    let rest ← pack leftHigh ps
    return UInt8.ofNat (if leftHigh then a * 16 + b else b * 16 + a) :: rest

/-- The pixels of a tile row by row, each as column and row of the glyph before it is flipped. -/
def Shape.places (s : Shape) : List (Int × Int) :=
  (List.range s.height.toNat).flatMap fun y : Nat => (List.range s.width.toNat).map fun x : Nat =>
    ((if s.flipX then s.width - 1 - x else x : Int), (if s.flipY then s.height - 1 - y else y : Int))

/-- The shades of the pixels of a tile with a glyph on it. A tile with a negative width and height
is blank. -/
def glyphShades (s : Shape) (base : Int) (g : Bitmap) : Except Fault Bytes :=
  if s.height < 0 then .ok (List.replicate s.area.toNat 0)
  else s.places.mapM fun p => shadeAt g (startColumn g s.width) (base - g.top) p.1 p.2

def glyphTile (s : Shape) (base : Int) (g : Bitmap) : Except Fault Bytes := do
  let shades ← glyphShades s base g
  pack s.leftHigh (shades.map quantise)

/-- The tile of the first character of a text, empty if the text is. There must be room for it. -/
def tile (face : Face) (s : Shape) : Text → Except Fault Bytes
  | [] => return List.replicate (← room s.size) 0
  | c :: _ => do
    discard (room s.area)
    match face.glyphs.lookup c with
    | none => throw .noGlyph
    | some g => glyphTile s (baseline face s.height) g

/-- The shade of a pixel in a picture of two shades, eight pixels in a byte. -/
def monoShade (buffer : Bytes) (rowStart x : Int) : Except Fault Nat :=
  match Word.read? 1 buffer (rowStart + x / 8) with
  | none => .error .outOfRange
  | some b => .ok (if b.testBit (7 - x % 8).toNat then 255 else 0)

end Localizer.Font
