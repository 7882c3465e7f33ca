import Localizer.Dialogue.Catalogue
import Localizer.Dialogue.Extraction
import Localizer.Dialogue.Wrap
import Localizer.Glyph
import Localizer.Json.Text

/-!
# Writing texts back

Putting translated texts into a script. A translation is made ready for the game, converted and
wrapped, and takes the place of the line that its key names. Lines that are no texts stay as they
are, whatever the keys say.
-/

namespace Localizer.Dialogue

open Text

structure Translation where
  key : Text
  line : Nat
  text : Text

/-- The translation that an item of a document gives. Items without a translation, and such whose
key does not name a line, give none. -/
def Translation.ofJson? (v : Json) : Option Translation :=
  match v.member? "translation", v.member? "key" with
  | some (.str text), some (.str key) =>
    match text.isEmpty || isBlankText key, lineOfKey? key with
    | false, some (n + 1) => some ⟨key, n + 1, text⟩
    | _, _ => none
  | _, _ => none

def translations : Json → List Translation
  | .arr items => items.filterMap Translation.ofJson?
  | _ => []

/-- A text on one line, with its line ends written as line breaks of the game. -/
def onOneLine (t : Text) : Text :=
  (unifyNewlines t).flatMap fun c => if c = '\n' then lineBreak else [c]

def finalText (loc : Locale) (conv : Glyph.Converter) (t : Text) : Text :=
  let converted := conv.text (onOneLine t)
  match loc.measure? with
  | some measure => wrap measure converted
  | none => converted

def wrapLogging (measure : Text → Int) (place t : Text) : Job Text := do
  match remark? measure t with
  | some r => Job.appendUtf8 r.log [r.entry place t]
  | none => pure ()
  return wrap measure t

/-- The number of the line of a translation. One with too many digits cannot be written, which is
the fault `f`. -/
def lineText (f : Fault) (tr : Translation) : Job Text := Job.require f (decimalInt? tr.line)

/-- Makes a translation ready for the script and logs what is worth a remark. -/
def finish (loc : Locale) (conv : Glyph.Converter) (script : Text) (tr : Translation) : Job Text := do
  let converted ← conv.run (onOneLine tr.text)
  match loc.measure? with
  | some measure =>
    let line ← lineText .badNumeral tr
    wrapLogging measure (script ++ ":" ++ line ++ ":" ++ tr.key) converted
  | none => return converted

/-- Collects the final texts by line. Two different texts for one line are a fault. -/
def collect (loc : Locale) (conv : Glyph.Converter) (script : Text) :
    List Translation → List (Nat × Text) → Job (List (Nat × Text))
  | [], found => pure found
  | tr :: trs, found => do
    let t ← finish loc conv script tr
    if (Assoc.get? tr.line found).all (· = t) then collect loc conv script trs (Assoc.insert tr.line t found)
    else
      let line ← lineText .tooManyDigits tr
      Job.abandon ("同一行号出现多个不同翻译：script=" ++ script ++ " line=" ++ line ++ " key=" ++ tr.key)

/-- A line of a script, without its line feed, and that line feed. Other line breaks count as part
of the line. -/
def cutLineFeed (l b : Text) : Text × Text := if b.all fun c => c = '\r' || c = '\n' then (l, b) else (l ++ b, [])

def replaceLine (found : List (Nat × Text)) (number? : Option Nat) (line : Text) : Text :=
  match number?.bind fun n => Assoc.get? n found with
  | some t => if isText line then line.takeWhile isBlank ++ t else line
  | none => line

def replaceLines (found : List (Nat × Text)) : Cursor → List (Text × Text) → Text
  | _, [] => []
  | c, (l, b) :: ls =>
    let (line, feed) := cutLineFeed l b
    replaceLine found (c.number? line) line ++ feed ++ replaceLines found (c.next line) ls

def writeBack (found : List (Nat × Text)) (script : Text) : Text := replaceLines found {} (linesWithBreaks script)

/-! ## The dialogue tool

Extracts the texts of a directory of scripts into documents, and writes translated documents back.
-/

def isCastTable (name : Text) : Bool :=
  startsWith name "char" && endsWith name ".tbl" && name.length = 11 && ((name.drop 4).take 3).all isDecimal

def loadCast (p : Text) : Job Cast := do
  let mut cast : Cast := {}
  for name in (← get).names p do
    if isCastTable name then
      cast ← Job.ofExcept (readTable cast (lines (← Job.readCp932Lossy (Path.child p name))))
  return cast

def readScript (p : Text) : Job Text := do
  Job.require .undecodable (Encoding.Utf8.decode? (← Job.readBytes p))

def Item.toJson (i : Item) : Json :=
  .obj [("key", .str i.key), ("original", .str i.text), ("translation", .str []), ("stage", .int 0),
    ("context", .str i.context)]

def extractAll (loc : Locale) (input output tables list : Text) : Job Unit := do
  let cast ← loadCast tables
  let titles ← loadList list
  for p in ← filesBelow input ".txt" do
    let items := extract loc cast (← readScript p)
    let title := (Assoc.get? (Path.stem p ++ ".asb") titles).getD []
    let target := itemsPath output (Path.below input p) title
    Job.makeDirs (Path.parent target)
    Job.writeUtf8 target (Json.render 2 (.arr (items.map Item.toJson)))

def writeBackOne (loc : Locale) (conv : Glyph.Converter) (input output script items : Text) : Job Unit := do
  let text ← readScript (Path.child input script)
  let document ← Job.ofExcept (Json.read (← Job.readUtf8Lossy items))
  let found ← collect loc conv script (translations document) []
  let target := Path.child output script
  Job.makeDirs (Path.parent target)
  Job.writeUtf8 target (writeBack found text)

/-- Writes the translations of all documents in a directory back. Documents without a script are
named at the end. -/
def writeBackAll (loc : Locale) (input output items : Text) : Job Unit := do
  let conv ← Glyph.converter Glyph.defaultRules
  let mut missing : List Text := []
  for (script, p) in ← scriptsBelow items do
    if ← Job.isThere (Path.child input script) then writeBackOne loc conv input output script p
    else missing := missing ++ [script]
  if !missing.isEmpty then
    let more : Text := if missing.length ≤ 50 then [] else "\n... 还有 " ++ decimal (missing.length - 50) ++ " 个"
    Job.abandon ("找不到对应的脚本 txt（按 json 名字去括号推导）：\n" ++ join "\n" (missing.take 50) ++ more)

def help : Text :=
"用法：
  解码/提取到 JSON：
    python textJson.py d <脚本txt目录> <json输出目录> <extract目录>

  编码/写回脚本（按 json 推导 txt：去掉括号，后缀改 txt）：
    python textJson.py e <脚本txt目录> <写回输出目录> <json目录> [映射码表]

可选参数：
  映射码表：UTF-16LE，格式：889F=亚
"

def usage : Text :=
"参数不完整。
用法：python textJson.py d <脚本txt目录> <json输出目录> <extract目录>
   或：python textJson.py e <脚本txt目录> <写回输出目录> <json目录>
"

/-- The command line: a direction, the scripts, the output, and a directory that depends on the
direction. Returns the exit code. -/
def run (loc : Locale) (args : List Text) : Job Nat := do
  if args.any fun a => a = "-h" || a = "--help" || a = "/?" then Job.abandon help
  match args with
  | mode :: input :: output :: third :: _ =>
    let mode := lower mode
    let (input, output, third) := (Path.tidy input, Path.tidy output, Path.tidy third)
    Job.makeDirs output
    if mode = "d" then
      extractAll loc input output (Path.child third "adv") (Path.child third "adv/scn/list.txt")
    else if mode = "e" then
      if loc.measure?.isSome then
        Job.writeUtf8 "wrap.log" []
        Job.writeUtf8 "overflow.log" []
      writeBackAll loc input output third
    else
      Job.abandon "mode 必须是 d 或 e。\n用法：python textJson.py d ... 或 python textJson.py e ...\n"
    return 0
  | _ => Job.abandon usage

end Localizer.Dialogue
