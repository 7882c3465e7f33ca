import Localizer.Document
import Localizer.Table.Basic

/-!
# The table tool

Collects the Japanese values of all tables in a directory in a document, and writes translated
values back into the tables.
-/

namespace Localizer.Table

open Text

def load (p : Text) : Job Table := return read (← Job.readCp932Lossy p)

def documentItems (file : Text) (t : Table) : List Json :=
  t.flatMap fun (sec, entries) => (entries.filter fun (_, v) => isJapanese v).map fun (k, v) =>
    Document.item [("key", .str (fullKey file sec k)), ("original", .str v), ("translation", .str []), ("stage", .int 0)]

def collectAll (input output : Text) : Job Unit := do
  let mut items : List Json := []
  for p in ((← get).find input ".tbl").mergeSort Path.le do
    items := items ++ documentItems (Path.below input p) (← load p)
  Job.makeDirs (Path.parent output)
  Job.writeUtf8 output (Json.render 4 (.arr items))

abbrev Updates := List (Text × Table)

def Updates.add (us : Updates) (file sec key value : Text) : Updates :=
  Assoc.modify file [] (Assoc.modify sec [] (Assoc.insert key value)) us

def itemKey (v : Json) : Except Fault (Text × Text × Text) :=
  match v.member? "key" with
  | none => .error .noSuchMember
  | some (.str full) => (splitKey? full).elim (.error (.abandoned full)) .ok
  | some _ => .error .noSuchOperation

/-- Collects the translated values of the items of a document. -/
def gather (convert : Json → Job Text) : List Json → Updates → Job Updates
  | [], us => pure us
  | v :: vs, us => do
    let t ← Job.ofExcept (Document.field "translation" .null v)
    if t.truthy then
      let value ← convert t
      let (file, sec, key) ← Job.ofExcept (itemKey v)
      gather convert vs (us.add file sec key value)
    else gather convert vs us

def writeOne (input output file : Text) (updates : Table) : Job Unit := do
  let target := Path.child output file
  Job.makeDirs (Path.parent target)
  let t ← Job.readCp932 (Path.child input file)
  Job.writeBytes target (← Glyph.encodeLogging (update t updates))

/-- A conversion that has no rules to go by: it fails on every value that has a text. -/
def withoutRules (v : Json) : Job Text := do
  match ← Job.ofExcept (Document.items v) with
  | [] => return []
  | _ => throw .noSuchOperation

def writeBackAll (input output document : Text) (hasRules : Bool) : Job Unit := do
  let doc ← Job.ofExcept (Json.read (← Job.readUtf8 document))
  let conv ← Glyph.converter Glyph.defaultRules
  let convert := if hasRules then Document.convert conv else withoutRules
  for (file, updates) in ← gather convert (← Job.ofExcept (Document.items doc)) [] do
    writeOne input output file updates

def collectUsage : Text := "python d <输入文件夹> <输出json>"

def writeBackUsage : Text := "python e <脚本txt目录> <写回输出目录> <json目录> [映射码表]"

/-- The command line: a direction and its paths. Returns the exit code. -/
def run (args : List Text) : Job Nat := do
  match args with
  | [] => Job.abandon (collectUsage ++ "\n" ++ writeBackUsage)
  | cmd :: paths =>
    if cmd = "d" then
      match paths with
      | [input, output] => collectAll (Path.tidy input) (Path.tidy output)
      | _ => Job.abandon collectUsage
    else if cmd = "e" then
      match paths with
      | [input, output, document] => writeBackAll (Path.tidy input) (Path.tidy output) (Path.tidy document) true
      | [input, output, document, _] => writeBackAll (Path.tidy input) (Path.tidy output) (Path.tidy document) false
      | _ => Job.abandon writeBackUsage
    else Job.abandon cmd
    return 0

end Localizer.Table
