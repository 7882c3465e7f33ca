import Localizer.Dialogue.WriteBack
import Localizer.Opening.Injection
import Localizer.Resource.Tool
import Localizer.Scenario.Material
import Localizer.Script.Listing

/-!
# Scenarios of dialogue, openings, scripts and sources

Dialogue is extracted from a script, translated and written back, in two locales one after the other
with the same files; and lines of several kinds are wrapped.
-/

namespace Localizer.Scenario

open Text Dialogue

def dialogueTranslation : Text := "ひらがな translation text ひらがな translation text "

def translatedItem (i : Item) : Json :=
  .obj [("key", .str i.key), ("original", .str i.text), ("translation", .str dialogueTranslation), ("stage", .int 0),
    ("context", .str i.context)]

def optional (n? : Option Int) : Json := n?.elim .null .int

/-- The script of a scenario is extracted and its translation written back in one locale. -/
def dialogueParty (dir : Text) (loc : Locale) : Job (List Json) := do
  let scripts := dir ++ "/scripts"
  let tables := dir ++ "/extract/adv"
  let list := tables ++ "/scn/list.txt"
  let documents := dir ++ "/jwrite"
  extractAll loc scripts (dir ++ "/json") tables list
  writeBackAll loc scripts (dir ++ "/wb") documents
  let cast ← loadCast tables
  let items := extract loc cast (← readScript (scripts ++ "/scene01.txt"))
  let titles ← loadList list
  return [.int items.length, .str (pickName cast.names (some 1) (some 0)), .str (pickName cast.names (some 99) (some 0)),
    .str (pickFace cast.faces (some 1) (some 1)), .str (pickFace cast.faces (some 1) (some 0)),
    .str (pickFace cast.faces none none), .str (Path.name (itemsPath dir "scene01.txt" "t")),
    .str (Path.name (itemsPath dir "s.txt" [])), .int (← scriptsBelow documents).length,
    .obj (titles.map fun (k, t) => (k, .str t)), .str (plainTitle "abc (note) def"),
    optional ((lineOfKey? "1A").map fun n : Nat => (n : Int)), .str (keyOfLine 255), .str (voicePath loc 42),
    .arr [optional (lowHalf? (some 0x10002)), optional (highHalf? (some 0x10002))], optional (lowHalf? (some 0xFFFFFFFF))]

/-- A script of `n` scenes is extracted, translated and written back in both locales. -/
def dialogueRoundTrip (measure : Text → Int) (n : Nat) (dir : Text) : Scenario := do
  save (dir ++ "/scripts/scene01.txt") (dialogueScript n)
  saveCp932 (dir ++ "/extract/adv/char001.tbl") (castTable 1)
  saveCp932 (dir ++ "/extract/adv/char002.tbl") (castTable 2)
  saveCp932 (dir ++ "/extract/adv/scn/list.txt") "scene01.asb タイトル：第一話(コメント)\n"
  let cast ← loadCast (dir ++ "/extract/adv")
  let items := extract .chinese cast (dialogueScript n)
  save (dir ++ "/jwrite/scene01.json") (Json.compact (.arr (items.map translatedItem)))
  return do
    let first ← dialogueParty dir .chinese
    let second ← dialogueParty dir { Locale.english with measure? := some measure }
    return .arr (first ++ second)

/-- The three lines number `i` to wrap: a long one, one that grows from line to line and starts
again, and one that cannot be wrapped. -/
def linesToWrap (i : Nat) : List Text :=
  ["Hi, ok! This is a fairly long English line that must be wrapped across three display rows, right? #" ++ decimal i ++
    " \\c00112233 end.", (List.replicate (6 + i % 8) ("word " : Text)).flatten, List.replicate 160 'w']

/-- Wraps lines, the first one being number `i`: the sum of their lengths. -/
def wrapLines (log : Text) : Nat → List Text → Job Nat
  | _, [] => pure 0
  | i, t :: ts => do
    let place : Text := "ctx" ++ decimal i
    match remark? (fun t => t.length) t with
    | some r => Job.appendBytes (log ++ "/" ++ r.log) (Encoding.Utf8.encode (r.entry place t))
    | none => pure ()
    return (wrap (fun t => t.length) t).length + (← wrapLines log (i + 1) ts)

/-- `n` times three lines are wrapped, each character counting as one column. The outcome is the sum
of the lengths of the wrapped lines. -/
def wrapping (n : Nat) (dir : Text) : Scenario := do
  Job.makeDirs dir
  return return .int (← wrapLines dir 0 ((List.range n).flatMap linesToWrap) : Nat)

/-! ## The scenario of an opening

The texts of an opening are extracted, and translations are put in their places. -/

open Opening

/-- A voice table with two sections of ten rows. The speakers of the first have another
personality. -/
def voiceText : Text :=
  let row (base i : Nat) : Text := ['#'] ++ decimal i ++ " = a, b, " ++ decimal (base + i) ++ ", d"
  join "\n" (("[TBL00_00]" : Text) :: (List.range 10).map (row 100) ++ ("[TBL00_01]" : Text) :: (List.range 10).map (row 0))

/-- The names of ten characters, each with two personalities. -/
def speakers : Dialogue.Album :=
  (List.range 10).map fun i : Nat => ((i : Int), [(0, "キャラ" ++ decimal i), (1, "キャラ" ++ decimal i ++ "B")])

def translatedText (i : Opening.Item) : Json :=
  .obj [("key", .str i.key), ("original", .str i.text), ("translation", .str "やくご"), ("stage", .int 1),
    ("context", .str i.context)]

def plainConverter : Glyph.Converter := ⟨[], []⟩

def pair (p : Int × Int) : Json := numbers [p.1, p.2]

/-- An opening of `n` texts is extracted, once with translations and once without any put in. -/
def openingRoundTrip (n : Nat) (dir : Text) : Scenario := do
  let source := dir ++ "/slg/stage01/slg_opdemo.dat"
  let document := dir ++ "/json/stage01.json"
  let empty := dir ++ "/json/empty.json"
  let voicePath := dir ++ "/slgV.tbl"
  saveBytes source (openingData n)
  save voicePath voiceText
  let texts ← load source (← loadVoices voicePath) speakers
  save document (Json.compact (.arr (texts.map translatedText)))
  save empty "[]"
  return inPairs (do
    let items ← load source (← loadVoices voicePath) speakers
    inject plainConverter source document (dir ++ "/out.dat")
    inject plainConverter source empty (dir ++ "/out2.dat")
    let noVoices ← loadVoices (dir ++ "/none.tbl")
    return [.int items.length, .str (speakerName speakers 105), .str (speakerName speakers (-1)),
      .str (speakerName [] 7), .str (speakerName [(5, [(1, [])])] 5), .str (speakerName [(5, [(0, "n")])] 105),
      ((splitSpeaker? 305).map pair).getD .null, ((splitSpeaker? 7).map pair).getD .null,
      .str (← Job.ofExcept (textAt [0x61, 0x62, 0x63, 0x00] 0)), .str (← Job.ofExcept (textAt [0x61] 9)),
      bytesJson (← Job.ofExcept (terminated "x\\ny")), pair (← Job.ofExcept (readKey "0x10_0x20")),
      .obj (noVoices.map fun (k, _) => (k, .null)), .int (← openingsBelow (dir ++ "/slg")).length])

/-! ## Scenarios of scripts

Listings are assembled and disassembled again, and code is taken apart into instructions. -/

open Script

/-- A listing of `n` blocks is turned into an image and back; calls that the tool refuses are made
as well. The outcome is the size of the image and the length of the new listing. -/
def scriptRoundTrip (n : Nat) (dir : Text) : Scenario := do
  save (dir ++ "/in/sample.txt") (scriptListing n)
  return inPairs (quietly (do
    let _ ← Script.run ["e", dir ++ "/in", dir ++ "/asb"]
    let _ ← Script.run ["d", dir ++ "/asb", dir ++ "/out"]
    let _ ← Script.run ["x", dir ++ "/in", dir ++ "/asb"]
    let _ ← Script.run []
    let image ← Job.readBytes (dir ++ "/asb/sample.asb")
    let listing ← Job.readUtf8 (dir ++ "/out/sample.txt")
    return [.int image.length, .int listing.length]))

/-- A block of code with fourteen instructions: calls with their arguments, a jump and a call to
another script, and some that calculate. -/
def codeBlock : Bytes :=
  let pushed (n : Int) : Bytes := 0x01 :: Word.u32 n
  let call (f : Int) (count : UInt8) : Bytes := 0x29 :: Word.u32 f ++ [count]
  let far (n m : Int) : Bytes := Word.u32 n ++ Word.u32 m
  pushed 0 ++ call 0 1 ++ pushed 0 ++ pushed 3 ++ call 1 2 ++ 0x27 :: Word.u32 5 ++ [0x01] ++ 0x26 :: far 0 3 ++
    0x0B :: far 1 2 ++ 0x28 :: far 0 3 ++ [0x02] ++ [0x02, 0x01] ++ 0x03 :: Word.u32 0x10 ++ 0x04 :: Word.u32 0x20 ++
    [0x13, 0x12]

def sampleCode (n : Nat) : Bytes := (List.replicate (n / codeBlock.length + 1) codeBlock).flatten.take n

def sampleRegion : Bytes := [0x61, 0x62, 0x00, 0x63, 0x64, 0x00]

/-- `n` bytes of code are taken apart and their strings looked up. The outcome is the numbers of
instructions and of strings in use, the start of a string, and the argument count of a call. -/
def codeParsing (n : Nat) : Scenario := do
  let index := StringIndex.ofRegion sampleRegion
  return inPairs (do
    let code := disassemble opcodes (sampleCode n)
    let (_, found) := toItems argumentTable index index [0] code
    let call : Instruction := ⟨"CALLB", [0x13, 0x00, 0x00, 0x00, 0x05], []⟩
    return [numbers [code.length, (found.used1.eraseDups.length : Nat), (found.used2.eraseDups.length : Nat)],
      numbers ((index.resolve? 4).map fun s => (s.start : Int)).toList,
      .int ((argumentCount? call).getD 0 : Nat)])

/-! ## Scenarios of sources

Literals are found in sources and moved to resource files. -/

open Resource

/-- A line with five literals, of which three can be replaced. -/
def literalLine (i : Nat) : Text :=
  let n := decimal i
  "var s" ++ n ++ " = \"中文字符" ++ n ++ "\"; var t" ++ n ++ " = $\"插值\x7bobj.Name\x7d和\x7bx:F2\x7d结束了\"; var u" ++ n ++
    " = $\"共\x7ba\x7d个\x7bb.Count\x7d项\"; var v" ++ n ++ " = @\"逐字中文\"; var w" ++ n ++ " = @\"另一逐字\";\n"

def placeholderJson (p : Placeholder) : Json :=
  .obj [("name", .str p.name), ("expr", .str p.expr), ("format_spec", .str p.format)]

/-- What is made of a text with placeholders that are not simple, and of two names. -/
def samplePieces : List Json :=
  let p := parse "前\x7ba.b:F2\x7d后\x7bx=>y\x7d尾\x7b未闭合"
  [.arr [.str p.template, .arr (p.placeholders.map placeholderJson), texts p.warnings],
    .str (nameOf "list.Items.Count"), .str (keyBase "Foo Bar-Baz.cs")]

/-- The literals of `n` lines are found. The outcome is their number and the first three of what
replaces them, the keys being made from their places, and of some pieces beside. -/
def literalSearch (n : Nat) : Scenario := do
  let source := series n literalLine
  return do
    let found := literals source
    let new := (found.take 3).filterMap fun l => l.replacement? ("K" ++ decimal l.start)
    return .arr [.int found.length, .arr ((new.map Json.str ++ samplePieces).take 3)]

/-- A source with thirty lines that have two literals each, and two literals that stay. -/
def sampleSource : Text :=
  series 30 (fun i : Nat =>
    let n := decimal i
    "var a" ++ n ++ " = \"中文" ++ n ++ "\"; var b" ++ n ++ " = $\"名\x7bname\x7d值\x7bval:D4\x7d完\";\n") ++
    "var v = @\"逐字中文\";\nvar w = $\"复杂\x7b\x7b\\\"q\\\"\x7d\x7d中\";"

/-- The path of the source number `i`; every other one is in a directory of its own. -/
def sourcePath (i : Nat) : Text := (if i % 2 = 0 then "/src/" else "/src/sub/") ++ "File" ++ decimal i ++ ".cs"

/-- The literals of `n` sources are moved. The outcome is what is written at the top. -/
def literalMove (n : Nat) (dir : Text) : Scenario := do
  Job.makeDirs (dir ++ "/src/sub")
  (List.range n).forM fun i : Nat => save (dir ++ sourcePath i) sampleSource
  return quietly (do
    let _ ← Resource.run [dir ++ "/src", dir ++ "/out"]
    return texts ((← get).names (dir ++ "/out")))

end Localizer.Scenario
