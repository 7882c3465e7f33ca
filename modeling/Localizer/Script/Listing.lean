import Localizer.Script.Argument
import Localizer.Workspace

/-!
# Script listings

The editable form of a script: a `[VARIABLE]` section with a row per entry point, a `[CODE]` section
with a line per instruction or text, and the strings that nothing refers to. `disassembleImage`
writes a listing, `assembleListing` makes an image of one.
-/

namespace Localizer.Script

open Text

/-! ### From image to listing -/

def Item.line : Item → Text
  | instruction i => if i.operands.isEmpty then i.name else i.name ++ " " ++ join ", " i.operands
  | text _ t => t

def Entry.row (e : Entry) : Text :=
  join "," [escapeLine e.name, hexWord e.unk04, decimal e.locals, decimal e.params, hexWord e.flag0c, hexWord e.unk10]

/-- The section of the strings that are not in use, if there are any. -/
def leftoverLines (title : Text) (used : List Nat) (index : StringIndex) : List Text :=
  let left := index.items.filter fun it => !used.contains it.start
  if left.isEmpty then []
  else [] :: title :: left.map fun it => hexWord it.start ++ ": " ++ escapeLine it.text

def disassembleImage (image : Bytes) : Except Fault (Text × List Text) := do
  let h ← readHeader image
  let entries := h.entries image
  let strings1 := StringIndex.ofRegion (h.strings1 image)
  let strings2 := StringIndex.ofRegion (h.strings2 image)
  let (items, found) := toItems argumentTable strings1 strings2 (entries.map fun e => (e.nameOffset : Int))
    (disassemble opcodes (h.code image))
  let lines := ("[VARIABLE]" : Text) :: entries.map Entry.row ++ [[], "[CODE]"] ++ items.map Item.line ++
    leftoverLines "[STRINGS_1]" found.used1 strings1 ++ leftoverLines "[STRINGS_2]" found.used2 strings2
  return (join "\n" lines, found.warnings.reverse)

/-! ### Reading a listing -/

def sectionName? (line : Text) : Option Text :=
  if startsWith line "[" && endsWith line "]" then some (upper (trim ((trim line).drop 1).dropLast)) else none

/-- Adds a line to the sections read so far; the section that is open comes with them. -/
def addLine (state : Option Text × List (Text × List Text)) (raw : Text) :
    Option Text × List (Text × List Text) :=
  let line := raw.dropWhile (· = Encoding.Utf8.byteOrderMark)
  match sectionName? line with
  | some name => (some name, Assoc.insertNew name [] state.2)
  | none =>
    match state.1 with
    | none => state
    | some name => (some name, Assoc.modify name [] (line :: ·) state.2)

/-- The sections of a listing, each with its lines. Sections of one name are joined, and lines
before the first section are passed over. -/
def sections (t : Text) : List (Text × List Text) :=
  ((lines t).foldl addLine (none, [])).2.map fun (name, ls) => (name, ls.reverse)

def sectionLines (ss : List (Text × List Text)) (name : Text) : List Text := (ss.lookup name).getD []

structure Row where
  name : Text
  unk04 : Nat
  locals : Int
  params : Int
  flag0c : Nat
  unk10 : Nat
  deriving DecidableEq, Repr

def readDecimalField (t : Text) : Except Fault Int := (readDecimal? t).elim (.error .badNumeral) .ok

/-- Reads one row; lines with fewer than six fields are none. -/
def readRow (raw : Text) : Except Fault (Option Row) :=
  match (splitAtMost ',' 5 (trim raw)).map trim with
  | [name, unk04, locals, params, flag0c, unk10] => do
    return some {
      name := unescapeLine name
      unk04 := ← readHexToken unk04
      locals := ← readDecimalField locals
      params := ← readDecimalField params
      flag0c := ← readHexToken flag0c
      unk10 := ← readHexToken unk10 }
  | _ => .ok none

def readRows (ls : List Text) : Except Fault (List Row) := do
  return (← ls.mapM readRow).filterMap id

inductive CodeLine where
  | instruction (name : Text) (operands : List Text) (raw : Text)
  | text (t : Text)
  deriving DecidableEq, Repr

/-- Whether there are at least as many operands as classes, each in its class. -/
def fits : List (Text → Bool) → List Text → Bool
  | [], _ => true
  | _ :: _, [] => false
  | p :: ps, t :: ts => p t && fits ps ts

def anyOperand (_ : Text) : Bool := true

def Opcode.accepts (op : Opcode) (operands : List Text) : Bool :=
  match op.payload with
  | .table => !operands.isEmpty && operands.all isHexToken
  | .bytes 0 => operands.isEmpty
  | .bytes 1 => fits [isHexToken] operands
  | .bytes 4 => fits [isHexToken] operands
  | .bytes 5 => fits [isHexToken, isHexToken] operands
  | .bytes 8 =>
    if op.name = "JMPG" then fits [anyOperand, anyOperand] operands
    else fits [isHexToken, isHexToken] operands
  | .bytes 9 =>
    if op.name = "CALLG" then fits [anyOperand, anyOperand, isHexToken] operands
    else fits [isHexToken, isHexToken, isHexToken] operands
  | .bytes _ => false

/-- Reads one line of code; a blank line is none. A line whose first word is an opcode with fitting
operands is an instruction, any other line a text. -/
def readCodeLine (table : OpcodeTable) (raw : Text) : Option CodeLine :=
  let line := trimEnd raw
  if line.isEmpty then none
  else
    let name := firstWord line
    match table.find? name with
    | none => some (.text (unescapeLine line))
    | some (_, op) =>
      let operands := (splitOperands (line.drop name.length)).map unescapeLine
      if op.accepts operands then some (.instruction name operands line)
      else some (.text (unescapeLine line))

def readCodeLines (table : OpcodeTable) (ls : List Text) : List CodeLine := ls.filterMap (readCodeLine table)

/-! ### From listing to image -/

def namesScript (name : Text) : Bool := name = "JMPG" || name = "CALLG"

def scriptName? : CodeLine → Option Text
  | .instruction name (a :: _) _ => if namesScript name && !isHexToken a then some a else none
  | _ => none

/-- The text or the name of an entry point of another script on a line. -/
def entryOrText? : CodeLine → Option Text
  | .text t => some t
  | .instruction name (_ :: b :: _) _ => if namesScript name && !isHexToken b then some b else none
  | _ => none

def buildStrings2 (code : List CodeLine) : Pool := (code.filterMap scriptName?).foldl Pool.ensure .empty

/-- Writes the names of entry points one after another, with the offset of each. -/
def addNames : List Text → Pool → List Nat × Pool
  | [], pool => ([], pool)
  | n :: ns, pool =>
    let (offsets, pool') := addNames ns (pool.add n)
    (pool.bytes.length :: offsets, pool')

/-- The first string region: the names of the entry points, the last one first, and the texts of
the code. With it come the offsets of the names in the order of the rows. -/
def buildStrings1 (rows : List Row) (code : List CodeLine) : Except Fault (List Nat × Pool) :=
  match rows.getLast? with
  | none => .error .outOfRange
  | some last =>
    let (offsets, pool) := addNames (rows.dropLast.map Row.name) (Pool.empty.add last.name)
    .ok (offsets ++ [0], (code.filterMap entryOrText?).foldl Pool.ensure pool)

/-- The offset that an operand gives: a number, or the place of a text in a pool. -/
def operandOffset (pool : List (Text × Nat)) (t : Text) : Except Fault Nat :=
  if isHexToken t then readHexToken t else (pool.lookup t).elim (.error .noSuchMember) .ok

def encodeOperands (name : Text) (operands : List Text) (op : Opcode) (pool1 pool2 : List (Text × Nat)) :
    Except Fault Bytes :=
  match op.payload with
  | .table =>
    match operands with
    | [] => .error (.script .noTableCount)
    | count :: entries => do
      let _ ← readHexToken count
      let ws ← entries.mapM readHexToken
      return Word.u8 ws.length ++ (ws.map fun w : Nat => Word.u32 w).flatten
  | .bytes 0 => .ok []
  | .bytes 1 =>
    match operands with
    | a :: _ => do return Word.u8 (← readHexToken a)
    | _ => .error (.script .noByte)
  | .bytes 4 =>
    match operands with
    | a :: _ => do return Word.u32 (← readHexToken a)
    | _ => .error (.script .noWord)
  | .bytes 5 =>
    match operands with
    | a :: b :: _ => do
      let count ← readHexToken a
      let function ← readHexToken b
      return Word.u32 function ++ Word.u8 count
    | _ => .error (.script (.noOperands 5))
  | .bytes 8 =>
    match operands with
    | a :: b :: _ => do
      let named := name = "JMPG"
      let first ← if named then operandOffset pool2 a else readHexToken a
      let second ← if named then operandOffset pool1 b else readHexToken b
      return Word.u32 first ++ Word.u32 second
    | _ => .error (.script (.noOperands 8))
  | .bytes 9 =>
    match operands with
    | a :: b :: c :: _ => do
      let named := name = "CALLG"
      let first ← if named then operandOffset pool2 a else readHexToken a
      let second ← if named then operandOffset pool1 b else readHexToken b
      let count ← readHexToken c
      return Word.u32 first ++ Word.u32 second ++ Word.u8 count
    | _ => .error (.script (.noOperands 9))
  | .bytes size => .error (.script (.unknownPayload size op.name))

def encodeLine (table : OpcodeTable) (pool1 pool2 : List (Text × Nat)) : CodeLine → Except Fault Bytes
  | .text t => do
    let (code, _) ← (table.find? "PUSHI").elim (.error .noSuchMember) .ok
    let offset ← (pool1.lookup t).elim (.error .noSuchMember) .ok
    return UInt8.ofNat code :: Word.u32 offset
  | .instruction name operands _ => do
    let (code, op) ← (table.find? name).elim (.error .noSuchMember) .ok
    return UInt8.ofNat code :: (← encodeOperands name operands op pool1 pool2)

def Row.entry (row : Row) (nameOffset : Nat) : Bytes :=
  Word.u32 nameOffset ++ Word.u32 row.unk04 ++
    Word.u32 (Word.wrap 16 row.locals + Word.wrap 16 row.params * 0x10000 : Nat) ++
    Word.u32 row.flag0c ++ Word.u32 row.unk10

structure Parts where
  entryTable : Bytes
  entryCount : Nat
  code : List Bytes
  strings1 : Bytes
  strings2 : Bytes
  deriving DecidableEq, Repr

def Parts.image (p : Parts) (filename : Text) : Bytes :=
  buildImage filename p.entryTable p.entryCount p.code.flatten p.strings1 p.strings2

def assembleParts (rows : List Row) (code : List CodeLine) : Except Fault Parts := do
  let pool2 := buildStrings2 code
  let (nameOffsets, pool1) ← buildStrings1 rows code
  let codeBytes ← code.mapM (encodeLine opcodes pool1.offsets pool2.offsets)
  return {
    entryTable := (List.zipWith Row.entry rows nameOffsets).flatten
    entryCount := rows.length
    code := codeBytes
    strings1 := pool1.bytes
    strings2 := pool2.bytes }

def listingParts (t : Text) : Except Fault Parts := do
  let ss := sections t
  let rows ← readRows (sectionLines ss "VARIABLE")
  assembleParts rows (readCodeLines opcodes (sectionLines ss "CODE"))

def assembleListing (filename t : Text) : Except Fault Bytes := do
  return (← listingParts t).image filename

/-! ## The script tool

Turns images into listings and back, for one file or for all files of a directory. -/

def disassembleFile (input output : Text) : Job Unit := do
  let (listing, warnings) ← Job.ofExcept (disassembleImage (← Job.readBytes input))
  warnings.forM Job.warn
  Job.writeUtf8 output listing

def assembleFile (input output : Text) : Job Unit := do
  let image ← Job.ofExcept (assembleListing (Path.name output) (← Job.readUtf8Lossy input))
  Job.writeBytes output image

/-- Does the work of one file for all files of a directory with one suffix; results have another. -/
def convertAll (work : Text → Text → Job Unit) (oldSuffix newSuffix input output : Text) : Job Unit := do
  for p in (← get).find input oldSuffix do
    let target := Path.child output (Path.withSuffix (Path.below input p) newSuffix)
    Job.makeDirs (Path.parent target)
    work p target

def convert (work : Text → Text → Job Unit) (oldSuffix newSuffix input output : Text) : Job Unit := do
  if (← get).isDir input then
    Job.makeDirs output
    convertAll work oldSuffix newSuffix input output
  else work input output

/-- The command line: a direction, an input and an output. Returns the exit code. -/
def run (args : List Text) : Job Nat := do
  match args with
  | [mode, input, output] =>
    let mode := lower (trim mode)
    let input := Path.tidy input
    let output := Path.tidy output
    if mode = "d" then
      convert disassembleFile ".asb" ".txt" input output
      return 0
    else if mode = "e" then
      convert assembleFile ".txt" ".asb" input output
      return 0
    else
      Job.warn "模式必须是 d 或 e"
      return 2
  | _ =>
    Job.warn "用法: python asb.py d/e <input> <output>"
    return 2

end Localizer.Script
