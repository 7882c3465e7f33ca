import Localizer.Resource.Literal
import Localizer.Workspace

/-!
# The resource tool

Moves the Chinese literals of C# sources to resource files. Each text gets a key made from the name
of the file in which it is found first; the literal is replaced by an expression that looks the key
up. What the tool cannot do alone is listed at the end.
-/

namespace Localizer.Resource

open Text

/-! ## Resource files

A resource file is an XML document with a value for each key. It begins with four headers that say
what it is. -/

def escapeChar : Char → Text
  | '&' => "&amp;"
  | '<' => "&lt;"
  | '>' => "&gt;"
  | c => (half? c).elim [c] fun n => "&#" ++ decimal n ++ ";"

def escapeAttributeChar : Char → Text
  | '"' => "&quot;"
  | '\r' => "&#13;"
  | '\n' => "&#10;"
  | '\t' => "&#09;"
  | c => escapeChar c

def valueElement (v : Text) : Text := if v.isEmpty then "<value />" else "<value>" ++ v.flatMap escapeChar ++ "</value>"

def namedElement (tag name more value : Text) : Text :=
  "<" ++ tag ++ " name=\"" ++ name.flatMap escapeAttributeChar ++ "\"" ++ more ++ ">\n    " ++ valueElement value ++
    "\n  </" ++ tag ++ ">"

def headers : List (Text × Text) :=
  [("resmimetype", "text/microsoft-resx"), ("version", "2.0"),
   ("reader", "System.Resources.ResXResourceReader, System.Windows.Forms"),
   ("writer", "System.Resources.ResXResourceWriter, System.Windows.Forms")]

/-- The document with the given values, in the order of their keys. -/
def resx (values : List (Text × Text)) : Text :=
  "<?xml version='1.0' encoding='utf-8'?>\n<root>\n  " ++
    (headers.flatMap fun (k, v) => namedElement "resheader" k [] v) ++
    ((values.mergeSort fun a b => Text.le a.1 b.1).flatMap fun (k, v) =>
      namedElement "data" k " xml:space=\"preserve\"" v) ++
    "\n</root>"

/-! ## The resource tool -/

def identifierOf (name : Text) : Text := join "_" (wordRuns name)

def keyBase (path : Text) : Text :=
  let base := stripWhile (· = '_') (identifierOf (Path.splitExtension (Path.base path)).1)
  if base.isEmpty then "Key" else base

/-- A place that a reader should look at. -/
structure Remark where
  path : Text
  line : Nat
  reason : Text

structure Store where
  values : List (Text × Text) := []
  keys : List (Text × Text) := []
  /-- How many keys have been made from each base. -/
  counts : List (Text × Nat) := []
  remarks : List Remark := []
  files : Nat := 0
  replaced : Nat := 0

/-- The key of a text, a new one if it has none. -/
def Store.key (s : Store) (base template : Text) : Text × Store :=
  match Assoc.get? template s.keys with
  | some key => (key, s)
  | none =>
    let n := (Assoc.get? base s.counts).getD 0 + 1
    let key := base ++ "_" ++ decimal n
    (key, { s with
      values := s.values ++ [(key, template)], keys := s.keys ++ [(template, key)]
      counts := Assoc.insert base n s.counts })

def Store.remark (s : Store) (path text : Text) (l : Literal) : Store :=
  if l.warning.isEmpty then s
  else { s with remarks := s.remarks ++ [⟨path, (text.take l.start).count '\n' + 1, l.warning⟩] }

/-- A text whose literals are being replaced, from the last one to the first, and their number. -/
structure Progress where
  store : Store
  text : Text
  count : Nat := 0

def Progress.replace (p : Progress) (path base source : Text) (l : Literal) : Progress :=
  let store := p.store.remark path source l
  if l.kind = .verbatim then { p with store }
  else
    let (key, store) := store.key base l.template
    match l.replacement? key with
    | some new => ⟨store, splice p.text l new, p.count + 1⟩
    | none => { p with store }

def replaceLiterals (store : Store) (path source : Text) : Progress :=
  (literals source).reverse.foldl (fun p l => p.replace path (keyBase path) source l) ⟨store, source, 0⟩

/-- Moves the literals of a file. A file with none left is not written. -/
def moveFile (input output path : Text) (store : Store) : Job Store := do
  let p := replaceLiterals store path (← Job.readUtf8Lossy path)
  if p.count = 0 then return p.store
  let name := Path.relative path input
  let target := Path.child output name
  Job.makeDirs (Path.directory target)
  Job.writeUtf8 target p.text
  Job.printLine (name ++ ": " ++ decimal p.count)
  return { p.store with files := p.store.files + 1, replaced := p.store.replaced + p.count }

def moveFiles (input output dir : Text) : List Text → Store → Job Store
  | [], s => pure s
  | n :: ns, s => do
    if endsWith (lower n) ".cs" then moveFiles input output dir ns (← moveFile input output (Path.append dir n) s)
    else moveFiles input output dir ns s

def writeResx (path : Text) (values : List (Text × Text)) : Job Unit := do
  let dir := Path.directory path
  if dir.isEmpty then throw .noSuchFile
  Job.makeDirs dir
  Job.writeUtf8 path (resx values)

def report (input : Text) (remarks : List Remark) : Job Unit := do
  if !remarks.isEmpty then
    Job.printLine ("\n需手动处理 " ++ decimal remarks.length ++ " 处:")
    remarks.forM fun r =>
      Job.printLine ("  " ++ Path.relative r.path input ++ ":" ++ decimal r.line ++ " - " ++ r.reason)

def moveAll (input output : Text) (withResx : Bool) : Job Unit := do
  Job.makeDirs output
  let s ← Job.visitBelow (moveFiles input output) input {}
  Job.printLine []
  if s.values.isEmpty then Job.printLine "未找到中文字符串"
  else if !withResx then Job.printLine "检测到字符串，但已启用 --no-resx，跳过生成 resx"
  else
    let dir := Path.append output "res"
    writeResx (Path.append dir "Strings.resx") s.values
    writeResx (Path.append dir "Strings.zh-Hans.resx") s.values
    Job.printLine ("完成 " ++ decimal s.files ++ " 文件, " ++ decimal s.replaced ++ " 字符串")
    Job.printLine ("res 输出目录: " ++ dir)
  report input s.remarks

def noResxOption : Text := "--no-resx"

/-- The command line: the sources, and where to write. Returns the exit code. -/
def run (args : List Text) : Job Nat := do
  let cwd := (← get).cwd
  let paths := args.erase noResxOption
  match paths with
  | [] => Job.printLine "用法: python sr.py <源码根目录> [输出根目录] [--no-resx]"
  | source :: rest =>
    let input := Path.absolute cwd source
    let output := Path.absolute cwd (rest.head?.getD "out")
    if (← get).isDir input then moveAll input output (!args.contains noResxOption)
    else Job.printLine ("无效目录: " ++ input)
  return 0

end Localizer.Resource
