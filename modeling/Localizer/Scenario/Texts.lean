import Localizer.Credits.Tool
import Localizer.Font.Tool
import Localizer.Movie.Tool
import Localizer.Scenario.Material
import Localizer.Table.Tool

/-!
# Scenarios of pictures and texts

Animations are read and written, characters are drawn as tiles, and movies are made by stand-ins of
the programs.
-/

namespace Localizer.Scenario

open Text

/-! ## Animations -/

/-- What a layer counts for: the places of its keys and the size of one of them. -/
def layerCount (l : Animation.Layer) : Int :=
  totalInt (l.keys.map Animation.Key.posX) + ((l.keys.head?.map fun k => (Animation.payload k).toOption.elim 0 List.length).getD 0 : Nat)

/-- An animation of `n` layers with eight keys each is read and written. The outcome is the number
of its layers and a sum over colors, actions and layers. -/
def animationRoundTrip (n : Nat) (dir : Text) : Scenario := do
  saveBytes (dir ++ "/anim.a2a") (animationData n 8)
  return do
    let a ← Job.ofExcept (Animation.decode (← Job.readBytes (dir ++ "/anim.a2a")))
    Job.writeBytes (dir ++ "/out.a2a") (← Job.ofExcept a.encode)
    let color ← Job.ofExcept (Animation.blend 0x11111111 0xFFFFFFFF (.real 0.5))
    return numbers [a.layers.length, color + a.actions.length + totalInt (a.layers.map layerCount)]

/-! ## Tiles -/

/-- The glyph of a character: a pattern whose width depends on its code. -/
def sampleGlyph (c : Char) : Font.Bitmap :=
  let width := 4 + c.toNat % 18
  ⟨width, 18, 1, 17, width, (List.range (18 * width)).map fun i : Nat => UInt8.ofNat (7 * i)⟩

def ideographs (n : Nat) : Text := (List.range n).map fun i : Nat => Char.ofNat (0x4E00 + i)

def sampleFace (n : Nat) : Font.Face := ⟨20 * 64, -4 * 64, (ideographs n).map fun c => (c, sampleGlyph c)⟩

/-- A job that draws the characters of the table of a scenario. -/
def tileJob (dir output : Text) (mode : Font.Mode) (maxTiles? : Option Int) : Font.Config :=
  ⟨mode, dir ++ "/input.bin", dir ++ "/" ++ output, dir ++ "/code.tbl", dir ++ "/font.ttf", 0, 24, 24, 24,
    if mode = .patch then some 0 else none, maxTiles?, false, false, false⟩

def refusedConfig : Text := "[mode]\nkind=patch\n[paths]\noutput=x\ncodetable=c\nfont=f\n[font]\nsize_px=0\n"

def tileSize (face : Font.Face) (shape : Font.Shape) (t : Text) : Nat := (Font.tile face shape t).toOption.elim 0 List.length

/-- The first `n` ideographs are drawn, and those of a table, at most twenty, are written to files.
The outcome is the size of all tiles drawn, the length of the table, and two numbers read from
text. -/
def tileDrawing (n : Nat) (dir : Text) : Scenario := do
  let face := sampleFace (max n 20)
  saveBytes (dir ++ "/code.tbl") (Encoding.Utf16.encode (join "\n" (glyphLines (min n 20))))
  saveBytes (dir ++ "/font.ttf") [0]
  saveBytes (dir ++ "/input.bin") (List.replicate 16 0)
  return quietly (do
    Font.perform face (tileJob dir "out.bin" .patch (some 4))
    Font.perform face (tileJob dir "out2.bin" .tiles none)
    save (dir ++ "/font.ini") refusedConfig
    let plain : Font.Shape := ⟨24, 24, false, false, false⟩
    let flipped : Font.Shape := ⟨24, 24, true, true, true⟩
    let sizes := (ideographs n).map fun c => tileSize face plain [c] + tileSize face flipped [c]
    let table ← Font.loadTexts (dir ++ "/code.tbl")
    return numbers [(total sizes + tileSize face plain [] : Nat), (table.length : Nat), ← Job.ofExcept (Font.number "24"),
      ← Job.ofExcept (Font.number "0x10")])

/-! ### Movies -/

def movieStandIns : List (Text × Program) :=
  [("ffprobe", ⟨0, ["width=640", "height=480", "r_frame_rate=24/1", "bit_rate=6000000", "duration=10.0"], none⟩),
    ("ffmpeg", ⟨0, [], some ⟨List.replicate 16 0 ++ Movie.groupCode ++ List.replicate 32 0, 0⟩⟩),
    ("ps2str d", ⟨0, [], some ⟨List.replicate 40000 0, 0⟩⟩),
    ("ps2str m", ⟨0, [], some ⟨List.replicate 1024 0, 0⟩⟩)]

def movieName (i : Nat) : Text := "v" ++ threeDigits i

/-- Whether a movie has subtitles at the top: every other one. -/
def hasTop (i : Nat) : Bool := i % 2 = 0

def movieTask (dir : Text) (i : Nat) : Movie.Task :=
  let n := movieName i
  ⟨n ++ ".pss", dir ++ "/pss/" ++ n ++ ".pss", dir ++ "/sub/" ++ n ++ ".srt", dir ++ "/sub/" ++ n ++ ".srt1",
    dir ++ "/out/" ++ n ++ ".pss", hasTop i⟩

/-- Makes a movie in the next of the directories that are kept. -/
def makeMovie (dir : Text) (i : Nat) : Job Unit := do
  let ws ← get
  let kept := ((ws.names dir).filter fun n => startsWith n "tmp_pss_").length
  set { ws with programs := movieStandIns }
  let _ ← Movie.produceIn (dir ++ "/tmp_pss_" ++ movieName i ++ "_" ++ decimal kept) { keep := true } (movieTask dir i)
  modify fun ws' => { ws' with programs := ws.programs }

/-- The rate of movie number `i` in a tenth of a second; two files of subtitles leave less room. -/
def shortRate (i : Nat) : Except Fault Int :=
  Movie.targetRate 200000 (if hasTop i then 60000 else 40000) (.real 0.1) (.whole 1) 0 100000

/-- `n` movies are made and the first one once more for each repetition. The outcome is the sum of
the rates of all movies. -/
def movieMaking (n : Nat) (dir : Text) : Scenario := do
  (List.range n).forM fun i : Nat => do
    let t := movieTask dir i
    saveBytes t.movie (List.replicate 200000 0)
    save t.bottom "x"
    if t.hasTop then save t.top "x"
  saveBytes (dir ++ "/pss/noskip.pss") [0]
  quietly ((List.range n).forM (makeMovie dir))
  return quietly (do
    makeMovie dir 0
    Movie.terminateFile (movieTask dir 0).target
    let rates ← Job.ofExcept ((List.range n).mapM shortRate)
    return .int (totalInt rates))

/-! ## Scenarios of texts

Texts are converted for the game; tables, credits and the corpus of translations are read and
written. -/

/-! ### Conversion -/

/-- Plain characters, characters that the glyph table has, and some that it lacks. -/
def conversionPart : Text :=
  "ABC12" ++ (List.range 32).map (fun i : Nat => Char.ofNat (0x4E00 + i)) ++ "京都。"

/-- At most `n` characters: a part for each sixty of them and one more, cut off after `n`. -/
def conversionText (n : Nat) : Text := (List.replicate (n / 60 + 1) conversionPart).flatten.take n

/-- A text of at most `n` characters is converted in several ways, and what cannot be shown is
logged. The outcome is the sum of all lengths. -/
def conversion (n : Nat) (shared : Text) : Scenario := do
  let t := conversionText n
  return summed (do
    let encoded ← Glyph.encodeLogging "文字コード✓"
    let replaced := Glyph.applyRules Glyph.defaultRules "·—"
    Glyph.logItems ["✓", "✗"] (shared ++ "/bad2.txt")
    let plain ← Glyph.mapText [] t
    let converted ← (← Glyph.converter Glyph.defaultRules).run t
    return encoded.length + replaced.length + plain.length + converted.length + (Glyph.applyRules [] t).length)

/-! ## Tables -/

def keyName (stem : Text) (i : Nat) : Text := stem ++ threeDigits i

def tableText (n : Nat) : Text :=
  let names := (List.range n).map fun i : Nat => keyName "NAME" i ++ "=日本語テキスト" ++ decimal i ++ "\t; tail"
  let items := (List.range n).map fun i : Nat => keyName "ITEM" i ++ "=\"クォート 値" ++ decimal i ++ "\""
  join "\r\n" (("[SEC_A] // comment" : Text) :: names ++ ("[SEC_B]" : Text) :: items ++
    ([("[SEC_C]" : Text), "NOEQ line", "SKIP=me"]))

def translation (key t : Text) : Json := .obj [("key", .str key), ("translation", .str t)]

def keyParts (key : Text) : Json := ((Table.splitKey? key).map fun (f, s, k) => texts [f, s, k]).getD .null

def nameKey (i : Nat) : Text := "a.tbl[SEC_A]" ++ keyName "NAME" i

/-- The values of a table of `n` keys are collected, and translations of at most forty of them
written back. -/
def tableRoundTrip (n : Nat) (dir : Text) : Scenario := do
  let t := tableText n
  saveCp932 (dir ++ "/src/a.tbl") t
  let known := (List.range (min n 40)).map fun i : Nat => translation (nameKey i) ("やく" ++ decimal i)
  save (dir ++ "/wb.json") (Json.compact (.arr (known ++ [translation "x" []])))
  return inPairs (do
    let _ ← Table.run ["d", dir ++ "/src", dir ++ "/out.json"]
    let _ ← Table.run ["e", dir ++ "/src", dir ++ "/outdir", dir ++ "/wb.json"]
    let values ← Table.load (dir ++ "/src/a.tbl")
    let new := (List.range n).map fun i : Nat => (keyName "NAME" i, "新規テキスト" ++ decimal i)
    let cut (t : Text) : Json := texts [(splitComment t).1, (splitComment t).2]
    return [numbers [((values.lookup ("SEC_A" : Text)).elim 0 List.length : Nat), ((Table.update t [("SEC_A", new)]).length : Nat)],
      keyParts (nameKey 1), cut "foo // bar", cut "plain", .str (stripComment "x ; y"), .bool (Table.isJapanese "日本"),
      ((Table.sectionName? "plain").map Json.str).getD .null] ++
      (List.range (n / 2)).map fun i : Nat => keyParts (nameKey i))

/-! ### Credits -/

/-- The credits with `n` lines that give all numbers and one that leaves one out. -/
def creditsText (n : Nat) : Text :=
  let line (i : Nat) : Text :=
    (if i % 2 = 0 then "\"a b\"" else "n") ++ " 1 " ++ [("LRC" : Text).getD (i % 3) 'L'] ++ " 2 3\n"
  "[000]\n// header comment\n" ++ series n line ++ "x 1 C 2"

/-- A list of `n` duties in quotes, closed by a point. -/
def quotedDuties (n : Nat) : Text :=
  let duty (i : Nat) : Text := if i % 2 = 0 then "script lead" else "voice cast"
  "\"" ++ join ", " ((List.range n).map duty) ++ ".\""

/-- The credits with `n` lines are read and written. The outcome is the length of a list of `n`
duties. -/
def creditsRoundTrip (n : Nat) (dir : Text) : Scenario := do
  saveCp932 (dir ++ "/in/credits.txt") (creditsText n)
  return summed (quietly (do
    let _ ← Credits.run ["d", dir ++ "/in", dir ++ "/json"]
    let _ ← Credits.run ["e", dir ++ "/json", dir ++ "/out"]
    return (Credits.unquote (quotedDuties n)).length))

/-- The credits with `n` lines, every other one placed below the line before it. -/
def rollText (n : Nat) : Text :=
  let line (i : Nat) : Text :=
    let y : Text := if i % 2 = 0 then decimal (50 + i) else ['+'] ++ decimal (10 + i % 5)
    "\"スタッフ" ++ padLeft 4 '0' (decimal i) ++ "\" " ++ decimal (14 + i % 3) ++ " " ++
      [("LRC" : Text).getD (i % 3) 'L'] ++ " " ++ decimal (100 + i) ++ " " ++ y ++ "\n"
  "[000]\n// comment\n" ++ series n line ++ "[001]\nignored"

def rollLine (l : Credits.RollLine) : Json := .arr [.int l.y, .str l.text, .int l.size, .str [l.align], .int l.x]

def rollLayout (n : Nat) (dir : Text) : Scenario := do
  saveCp932 (dir ++ "/roll.txt") (rollText n)
  return do
    let ls ← Job.ofExcept (Credits.roll (← Credits.readCredits (dir ++ "/roll.txt")))
    return .arr [.int ls.length, .str (Credits.unquote "\"abc\""), (ls.head?.map rollLine).getD .null]

/-! ## The corpus -/

/-- A document with one translation is collected `n` times, beside one that cannot be read and one
without translations. The outcome is the size of the corpus and the number of lines printed. -/
def corpusCollection (n : Nat) (dir : Text) : Scenario := do
  let path (name : Text) : Text := dir ++ "/sub/" ++ name
  save (path "big.json") "[\x7b\"translation\":\"x\"\x7d]"
  save (path "bad.json") "\x7bnot json"
  save (path "obj.json") "\x7b\x7d"
  return do
    let before := (← get).out
    let printed ← quietly (do
      Font.collectFrom (List.replicate n (path "big.json") ++ [path "bad.json", path "obj.json"]) (dir ++ "/out.txt")
      return ((← get).out.drop before.length).count '\n')
    return numbers [(← Job.readBytes (dir ++ "/out.txt")).length, printed]

end Localizer.Scenario
