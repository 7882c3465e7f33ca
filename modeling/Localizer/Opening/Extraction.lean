import Localizer.Dialogue.Cast
import Localizer.Encoding.Cp932
import Localizer.Text.Line
import Localizer.Word

/-!
# Texts of an opening

The texts that the commands of an opening show, each with the name of the character who speaks. The
speaker is set by a command of its own and stays until the next one.
-/

namespace Localizer.Opening

/-! ## Commands of an opening

The opening of a stage is a list of commands followed by the texts that they show. A command begins
with its opcode, its size in bytes and a tag; an argument of four bytes follows if there is room. -/

structure Command where
  opcode : Nat
  size : Nat
  tag : Nat
  /-- Its argument, zero if it has none. -/
  argument : Nat
  deriving DecidableEq, Repr

def endCode : Nat := 0x00

def speakerCode : Nat := 0x10

def textCode : Nat := 0x5D

/-- The command that bytes begin with. Its size is a positive multiple of four. -/
def command? : Bytes → Option Command
  | op :: size :: lo :: hi :: rest =>
    if size.toNat < 4 || size.toNat % 4 ≠ 0 || rest.length + 4 < size.toNat then none
    else some ⟨op.toNat, size.toNat, Word.value [lo, hi], if size.toNat < 8 then 0 else Word.value (rest.take 4)⟩
  | _ => none

theorem command?_size {bs : Bytes} {c : Command} (h : command? bs = some c) :
    0 < c.size ∧ c.size ≤ bs.length := by
  unfold command? at h
  split at h
  · split at h
    · cases h
    · rename_i hs
      cases h
      simp at hs ⊢
      omega
  · cases h

/-- The commands that bytes begin with, each with its position, up to the one that ends the last of
`parts` parts. The bytes start at position `pos`. -/
def commandsFrom (parts pos : Nat) (bs : Bytes) : List (Nat × Command) :=
  match h : command? bs with
  | none => []
  | some c =>
    have := command?_size h
    let parts := if c.opcode = endCode then parts - 1 else parts
    (pos, c) :: if parts = 0 then [] else commandsFrom parts (pos + c.size) (bs.drop c.size)
termination_by bs.length
decreasing_by simp; omega

/-- The commands of an opening, which has two parts. -/
def commands (data : Bytes) : List (Nat × Command) := commandsFrom 2 0 data

/-! ## Voice tables

A voice table says who speaks: for each section and each row of it the number of the speaker. A row
is a line `#number=…` with columns separated by commas, the speaker being the third. -/

open Text

abbrev VoiceTable := List (Text × List (Int × Int))

/-- The name of the section that a line without white space around it begins. A comment may
follow. -/
def sectionName? (line : Text) : Option Text :=
  match line with
  | '[' :: t =>
    match splitOnce? ']' t with
    | some (name, rest) =>
      let rest := trimStart rest
      if !name.isEmpty && (rest.isEmpty || startsWith rest "//") then some (trim name) else none
    | none => none
  | _ => none

/-- The digits of the number of a row and its columns. -/
def row? (raw : Text) : Option (Text × List Text) :=
  match trimStart raw with
  | '#' :: t =>
    let (digits, rest) := t.span isDecimal
    match digits.isEmpty, trimStart rest with
    | false, '=' :: columns => if columns.isEmpty then none else some (digits, (splitOn ',' (trim columns)).map trim)
    | _, _ => none
  | _ => none

structure VoiceReader where
  table : VoiceTable := []
  current? : Option Text := none
  rows : List (Int × Int) := []

def VoiceReader.flush (r : VoiceReader) : VoiceTable := r.current?.elim r.table fun name => Assoc.insert name r.rows r.table

/-- Reads a row. Rows without a numeral in the third column are passed over. -/
def VoiceReader.row (r : VoiceReader) (digits : Text) (columns : List Text) : Except Fault VoiceReader :=
  match readDecimal? digits with
  | none => .error .badNumeral
  | some n =>
    match (columns[2]?).bind readDecimal? with
    | some speaker => .ok { r with rows := Assoc.insert n speaker r.rows }
    | none => .ok r

def VoiceReader.line (r : VoiceReader) (raw : Text) : Except Fault VoiceReader :=
  let line := trim raw
  if line.isEmpty || startsWith line ";" then .ok r
  else
    match sectionName? line, row? raw, r.current? with
    | some name, _, _ => .ok ⟨r.flush, some name, []⟩
    | none, some (digits, columns), some _ => r.row digits columns
    | _, _, _ => .ok r

def readVoices (t : Text) : Except Fault VoiceTable := return ((← (lines t).foldlM VoiceReader.line {}).flush)

/-! ## Texts of an opening -/

open Text Encoding

/-- A line end inside a text, as it is written in a document. -/
def writtenBreak : Text := "\\n"

def numberAt (width : Nat) (data : Bytes) (offset : Int) : Except Fault Nat :=
  if 0x8000000000000000 ≤ offset || offset < -0x8000000000000000 then .error .unbounded
  else (Word.read? width data offset).elim (.error .badField) .ok

/-- The text at an offset, up to the next zero byte. -/
def textAt (data : Bytes) (offset : Int) : Except Fault Text :=
  if offset < 0 || data.length ≤ offset then .ok []
  else
    match Cp932.decode? (upTo 0 (data.drop offset.toNat)) with
    | some t => .ok (replace ['\n'] writtenBreak t)
    | none => .error .undecodable

/-- The number of a speaker taken apart: personality and character. -/
def splitSpeaker? (packed : Int) : Option (Int × Int) :=
  if packed = -1 then none
  else if 100 ≤ packed && packed ≤ 999 then some (packed / 100, packed % 100)
  else some (0, packed)

/-- The name of a speaker: that of the personality, else that of the character, else the number. The
number was read from a table, so that it has no more digits than can be written. -/
def speakerName (names : Dialogue.Album) (packed : Int) : Text :=
  match splitSpeaker? packed with
  | none => []
  | some (personality, char) =>
    let table := (Assoc.get? char names).getD []
    let name? (i : Int) : Option Text := (Assoc.get? i table).filter fun n => !n.isEmpty
    ((name? personality).or (name? 0)).getD (decimalInt packed)

/-- The section of a voice table that a tag stands for. -/
def sectionOfTag (tag : Nat) : Text := "TBL00_" ++ padLeft 2 '0' (decimal tag)

/-- The name of the character who speaks, empty if that is not known. -/
def contextOf (voices : VoiceTable) (names : Dialogue.Album) : Option (Nat × Nat) → Text
  | none => []
  | some (tag, row) =>
    match ((Assoc.get? (sectionOfTag tag) voices).getD []).lookup (row : Int) with
    | some packed => speakerName names packed
    | none => []

structure Item where
  /-- Where the offset of the text stands. -/
  pointer : Nat
  offset : Nat
  text : Text
  context : Text
  deriving DecidableEq, Repr

def Item.key (i : Item) : Text := "0x" ++ upperHex 1 i.pointer ++ "_0x" ++ upperHex 1 i.offset

/-- The text that a command shows: none if its offset leads nowhere or it is a mere mark. -/
def shownText (data : Bytes) (offset : Nat) : Except Fault (Option Text) :=
  if offset = 0 || (data[offset]?).getD 0 = 0 then .ok none
  else return (some (← textAt data offset)).filter (· ≠ "■")

/-- The texts that commands show, with the speaker that is current before them. -/
def extractFrom (voices : VoiceTable) (names : Dialogue.Album) (data : Bytes) :
    Option (Nat × Nat) → List (Nat × Command) → Except Fault (List Item)
  | _, [] => .ok []
  | speaker?, (pos, c) :: cs =>
    if c.opcode = speakerCode then extractFrom voices names data (some (c.tag, c.argument)) cs
    else if c.opcode = textCode then do
      let shown ← shownText data c.argument
      let items ← extractFrom voices names data speaker? cs
      match shown with
      | some t => return ⟨pos + 4, c.argument, t, contextOf voices names speaker?⟩ :: items
      | none => return items
    else extractFrom voices names data speaker? cs

def extract (voices : VoiceTable) (names : Dialogue.Album) (data : Bytes) : Except Fault (List Item) :=
  extractFrom voices names data none (commands data)

end Localizer.Opening
