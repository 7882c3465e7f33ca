import Localizer.Animation.Codec
import Localizer.Scenario.Basic

/-!
# The material of scenarios

Made-up files in the formats of the game, each of a size that can be chosen.
-/

namespace Localizer.Scenario

open Text

/-- A listing of a script with `n` blocks of code that use most kinds of instructions. -/
def scriptListing (n : Nat) : Text :=
"[VARIABLE]
__main,00000000,2,1,00000001,00000010
helper,00000004,0,0,00000000,00000000

[CODE]" ++ series n fun i : Nat =>
"
PUSHI 00000001
PUSHI 00000002
PUSHI 00000003
CALLB 03, 00000013
こんにちは世界" ++ threeDigits i ++ "
CALLB 01, 00000000
せんたく肢その" ++ threeDigits i ++ "
せんたく肢ふたつ" ++ threeDigits i ++ "
CALLB 02, 00000001
PUSHL 01
PUSHG 00000010
PUSHF 00000020
ADD
NEG
POPL 01
STIL 00000001, 02
STIG 00000001, 00000002
BTBL 02, 00000010, 00000020
JMPG script.asb, entryName
CALLG script.asb, funcName, 02
CALLL 01, 00000005
EXCH
BZ 00000030
PUSHR
RET"

/-- A script with `n` scenes, each with a line of dialogue, a line of narration and choices. -/
def dialogueScript (n : Nat) : Text :=
"[VARIABLE]
__main,0,0,0,0,0

[CODE]" ++ series n (fun i : Nat =>
"
PUSHI 00000001
PUSHI 00000002
PUSHI 00000003
CALLB 03, 00000013
これは台詞その" ++ threeDigits i ++ "です
CALLB 01, 00000000
PUSHI 00000001
PUSHI 00000002
PUSHI 00000003
PUSHI 00000004
PUSHI 00000005
PUSHI 00000006
CALLB 06, 0000004B
ナレーション" ++ threeDigits i ++ "
CALLB 01, 00000000
せんたくし" ++ threeDigits i ++ "A
せんたくし" ++ threeDigits i ++ "B
CALLB 02, 00000001
ふたつめ" ++ threeDigits i ++ "
CALLB 01, 00000002
PUSHL 01
PUSHG 00000010
PUSHF 00000020
ADD
NEG
EXCH
POP
PUSHR
BZ 00000030
CALLL 01, 00000005
CALLB 03, 00000014") ++ "
[STRINGS_1]"

def castTable (id : Int) : Text :=
  let number := "ID=" ++ decimalInt id
  join "\n" ["[BASIC]", number, "NAME00=アリス", "NAME01=アリス2", "; comment", "[FACE_L]", number, "#0000=face_000",
    "#0001=face_001", "[FACE_S]", "#0000=ignored", []]

/-- The code after a code of two bytes: the second byte goes from 40 to FC and leaves 7F out. -/
def codeAfter (code : Nat) : Nat :=
  if code % 256 = 0x7E then code + 2
  else if code % 256 ≥ 0xFC then (code / 256 + 1) * 256 + 0x40
  else code + 1

/-- `n` lines of a glyph table that give consecutive characters consecutive codes. -/
def glyphLinesFrom : Nat → Nat → Nat → List Text
  | 0, _, _ => []
  | n + 1, code, c => (upperHex 4 code ++ ['=', Char.ofNat c]) :: glyphLinesFrom n (codeAfter code) (c + 1)

/-- The lines of a glyph table that give the first `n` ideographs the first codes. -/
def glyphLines (n : Nat) : List Text := glyphLinesFrom n Glyph.firstCode 0x4E00

/-- A glyph table for the first `n` ideographs, with lines that are no entries. -/
def glyphTable (n : Nat) : Text :=
  "; generated\n// comment\n" ++ (glyphLines n).flatMap (· ++ ['\n']) ++ "not a mapping line"

def saveGlyphTable (path : Text) (n : Nat) : Job Unit :=
  saveBytes path ([0xFF, 0xFE] ++ Encoding.Utf16.encode (glyphTable n))

def openingTexts (n : Nat) : List Bytes :=
  (List.range n).map fun i : Nat => Encoding.Cp932.encodeLossy ("メッセージ" ++ threeDigits i) ++ [0]

/-- An opening that shows `n` texts, spoken by characters in turn. -/
def openingData (n : Nat) : Bytes :=
  let texts := openingTexts n
  let start := 16 * n + 8
  let commands := (List.range n).flatMap fun i : Nat =>
    [0x10, 0x08, UInt8.ofNat (i % 3), 0x00] ++ Word.u32 (i % 4 : Nat) ++ [0x5D, 0x08, 0x00, 0x00] ++
      Word.u32 (start + (texts.take i).flatten.length : Nat)
  commands ++ [0x00, 0x04, 0x00, 0x00, 0x00, 0x04, 0x00, 0x00] ++ texts.flatten

def sampleKey (i : Nat) : Animation.Key :=
  ⟨2 * i, 0x80FFFFFF, 0, 0, 3 * i, 100 + i, 100, 0xFFFFFFFF, 4 * i, 2 * i, 0⟩

def pictureName (i : Nat) : Text := "img_" ++ threeDigits i ++ ".png"

/-- An animation whose layers hang below each other and move with `keys` key frames each. -/
def sampleAnimation (layers keys : Nat) : Animation where
  tickRate := 60
  totalFrames := 2 * keys
  markerA := 2
  markerB := 5
  pictures := (List.range layers).map fun i : Nat => ⟨pictureName i, 32, 32, none⟩
  layers := (List.range layers).map fun i : Nat =>
    { id := i, picture := i, name := pictureName i, parent := (i : Int) - 1, unk36 := 5, unk40 := 0x3000,
      unk44 := 0xFFFFFFFF, keys := (List.range keys).map sampleKey }

def animationData (layers keys : Nat) : Bytes := (sampleAnimation layers keys).encode.toOption.getD []

end Localizer.Scenario
