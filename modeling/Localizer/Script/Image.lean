import Localizer.Encoding.Cp932
import Localizer.Script.Instruction

/-!
# Script images

An image is a header, the table of entry points, the code, and the two string regions. The header
gives the place and the size of each region.
-/

namespace Localizer.Script

/-! ## String regions

A script image has two regions of strings, each ended by a zero byte. Instructions refer to a
string by the offset of any of its bytes, the zero byte included. -/

/-- The maximal runs of non-zero bytes with their offsets, the first byte being at offset `i`. -/
def runs : Nat → Bytes → List (Nat × Bytes)
  | _, [] => []
  | i, b :: bs =>
    if b = 0 then runs (i + 1) bs
    else
      match runs (i + 1) bs with
      | [] => [(i, [b])]
      | (j, r) :: rs => if j = i + 1 then (i, b :: r) :: rs else (i, [b]) :: (j, r) :: rs

structure StringItem where
  start : Nat
  /-- The offset of the zero byte after it, or the end of the region. -/
  stop : Nat
  text : Text
  deriving DecidableEq, Repr

structure StringIndex where
  size : Nat
  items : List StringItem

def StringIndex.ofRegion (region : Bytes) : StringIndex where
  size := region.length
  items := (runs 0 region).map fun (i, r) => ⟨i, i + r.length, Encoding.Cp932.decodeLossy r⟩

def StringIndex.resolve? (index : StringIndex) (offset : Int) : Option StringItem :=
  if 0 ≤ offset && offset < index.size then
    index.items.find? fun it => it.start ≤ offset && offset ≤ it.stop
  else none

/-- The bytes of a region from an offset up to the next zero byte. -/
def readString (region : Bytes) (offset : Int) : Bytes :=
  if 0 ≤ offset && offset < region.length then (region.drop offset.toNat).takeWhile (· ≠ 0) else []

/-! ### Building a region -/

/-- A string region under construction: its bytes, and the offset of each text that can be shared.
-/
structure Pool where
  bytes : Bytes
  offsets : List (Text × Nat)
  deriving DecidableEq, Repr

def Pool.empty : Pool := ⟨[], []⟩

def Pool.offset? (pool : Pool) (t : Text) : Option Nat := pool.offsets.lookup t

/-- Writes a text at the end of the region. A text that is there already keeps its offset. -/
def Pool.add (pool : Pool) (t : Text) : Pool where
  bytes := pool.bytes ++ Encoding.Cp932.encodeLossy t ++ [0]
  offsets := if (pool.offset? t).isSome then pool.offsets else pool.offsets ++ [(t, pool.bytes.length)]

def Pool.ensure (pool : Pool) (t : Text) : Pool := if (pool.offset? t).isSome then pool else pool.add t

/-! ## Script images -/

structure Header where
  filename : Text
  entryOffset : Nat
  entryCount : Nat
  codeOffset : Nat
  codeSize : Nat
  strings1Offset : Nat
  strings1Size : Nat
  strings2Offset : Nat
  strings2Size : Nat
  deriving DecidableEq, Repr

def headerSize : Nat := 0x44

/-- The bytes of a header that hold the file name: their offset and number. -/
def nameOffset : Nat := 0x04

def nameSize : Nat := 0x10

/-- Characters of the basic alphabet as bytes, others being passed over. -/
def basicBytes (t : Text) : Bytes := (t.filter fun c => c.toNat < 0x80).map fun c => UInt8.ofNat c.toNat

/-- Bytes of the basic alphabet as characters, others being passed over. -/
def basicText (bs : Bytes) : Text := (bs.filter (· < 0x80)).map fun b => Char.ofNat b.toNat

def readHeader (image : Bytes) : Except Fault Header :=
  if image.length < headerSize then .error (.script .headerTooShort)
  else .ok {
    filename := basicText (Text.upTo 0 ((image.drop nameOffset).take nameSize))
    entryOffset := Word.u32At image 0x24
    entryCount := Word.u32At image 0x28
    codeOffset := Word.u32At image 0x2C
    codeSize := Word.u32At image 0x30
    strings1Offset := Word.u32At image 0x34
    strings1Size := Word.u32At image 0x38
    strings2Offset := Word.u32At image 0x3C
    strings2Size := Word.u32At image 0x40 }

/-- The part of an image from `start` on of at most `size` bytes. -/
def region (image : Bytes) (start size : Int) : Bytes :=
  if start < 0 || size ≤ 0 then [] else (image.drop start.toNat).take size.toNat

structure Entry where
  /-- The offset of its name in the first string region. -/
  nameOffset : Nat
  unk04 : Nat
  locals : Nat
  params : Nat
  flag0c : Nat
  unk10 : Nat
  name : Text
  deriving DecidableEq, Repr

def entrySize : Nat := 20

/-- The entry points of a table, of which there are at most `count`; one that is cut off ends it. -/
def readEntryTable (strings1 : Bytes) : Nat → Bytes → List Entry
  | 0, _ => []
  | count + 1, table =>
    if table.length < entrySize then []
    else
      let nameOffset := Word.u32At table 0x00
      { nameOffset
        unk04 := Word.u32At table 0x04
        locals := Word.u32At table 0x08 % 0x10000
        params := Word.u32At table 0x08 / 0x10000
        flag0c := Word.u32At table 0x0C
        unk10 := Word.u32At table 0x10
        name := Encoding.Cp932.decodeLossy (readString strings1 nameOffset) } ::
      readEntryTable strings1 count (table.drop entrySize)

namespace Header

def code (h : Header) (image : Bytes) : Bytes := region image h.codeOffset h.codeSize

def strings1 (h : Header) (image : Bytes) : Bytes := region image h.strings1Offset h.strings1Size

def strings2 (h : Header) (image : Bytes) : Bytes := region image h.strings2Offset h.strings2Size

def entries (h : Header) (image : Bytes) : List Entry :=
  let table := region image h.entryOffset (h.entryCount * entrySize : Nat)
  readEntryTable (h.strings1 image) (min h.entryCount (table.length / entrySize)) table

end Header

/-- Puts an image together. The code is filled up so that the string regions start at a multiple of
four. -/
def buildImage (filename : Text) (entryTable : Bytes) (entryCount : Int) (code strings1 strings2 : Bytes) : Bytes :=
  let codeOffset := headerSize + entryTable.length
  let strings1Offset := (codeOffset + code.length + 3) / 4 * 4
  let strings2Offset := strings1Offset + strings1.length
  let name := (basicBytes filename).take nameSize
  List.replicate nameOffset 0 ++ name ++ List.replicate (nameSize - name.length) 0 ++
    List.replicate (0x24 - nameOffset - nameSize) 0 ++
    Word.u32 headerSize ++ Word.u32 entryCount ++ Word.u32 codeOffset ++ Word.u32 code.length ++
    Word.u32 strings1Offset ++ Word.u32 strings1.length ++ Word.u32 strings2Offset ++ Word.u32 strings2.length ++
    entryTable ++ code ++ List.replicate (strings1Offset - codeOffset - code.length) 0 ++ strings1 ++ strings2

end Localizer.Script
