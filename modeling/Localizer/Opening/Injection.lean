import Localizer.Document
import Localizer.Opening.Extraction

/-!
# Putting texts into an opening

The texts of an opening stand behind its commands. New texts are laid one after another from the
first offset on, and the offset of each is put where its key says.
-/

namespace Localizer.Opening

open Text Encoding

/-- The two numbers of a key: where the offset of a text stands, and the offset. -/
def readKey (key : Text) : Except Fault (Int × Int) :=
  match splitOnce? '_' key with
  | none => .error .badNumeral
  | some (a, b) =>
    match readHex? a, readHex? b with
    | some pointer, some offset => .ok (pointer, offset)
    | _, _ => .error .badNumeral

/-- A text in an opening: encoded, with a zero byte at its end. -/
def terminated (t : Text) : Except Fault Bytes :=
  match Cp932.encode? (replace writtenBreak ['\n'] t) with
  | some bs => .ok (bs ++ [0])
  | none => .error .unencodable

structure Insert where
  pointer : Int
  offset : Int
  item : Json

/-- What an item of a document puts into an opening: nothing if it has no key. -/
def Insert.ofJson (v : Json) : Except Fault (Option Insert) :=
  match v.member? "key" with
  | some (.str key) =>
    if key.contains '_' then return some ⟨(← readKey key).1, (← readKey key).2, v⟩
    else .ok none
  | _ => .ok none

/-- The text of an insert, which its stage chooses. -/
def Insert.text (i : Insert) : Except Fault Json := do
  let stage ← Document.wholeNumber (← Document.field "stage" (.int 0) i.item)
  Document.field (if stage = 1 then "translation" else "original") (.str []) i.item

/-- The bytes before an offset, one below zero counting from the end. -/
def bytesBefore (bs : Bytes) (offset : Int) : Bytes :=
  bs.take (if offset < 0 then offset + bs.length else offset).toNat

/-- Lays a text at the end and puts its offset where it belongs. -/
def lay (bs : Bytes) (pointer : Int) (text : Bytes) : Except Fault Bytes :=
  if 0x8000000000000000 ≤ pointer || pointer < -0x8000000000000000 then .error .outOfRange
  else (Word.write? 4 (bs ++ text) pointer bs.length).elim (.error .badField) .ok

def layAll (conv : Glyph.Converter) : List Insert → Bytes → Job Bytes
  | [], bs => pure bs
  | i :: is, bs => do
    let t ← Document.convert conv (← Job.ofExcept i.text)
    let text ← Job.ofExcept (terminated t)
    layAll conv is (← Job.ofExcept (lay bs i.pointer text))

def insertsOf (v : Json) : Except Fault (List Insert) :=
  match v with
  | .arr items => return (← items.mapM Insert.ofJson).filterMap id
  | _ => .ok []

def firstOffset? : List Insert → Option Int
  | [] => none
  | i :: is => some (is.foldl (fun m j => min m j.offset) i.offset)

/-- Puts the texts of a document into an opening. Without texts the opening is copied. -/
def inject (conv : Glyph.Converter) (source document target : Text) : Job Unit := do
  let data ← Job.readBytes source
  let doc ← Job.ofExcept (Json.read (← Job.readUtf8Lossy document))
  let inserts ← Job.ofExcept (insertsOf doc)
  match firstOffset? inserts with
  | none => Job.writeBytes target data
  | some first =>
    let new ← layAll conv inserts (bytesBefore data first)
    Job.makeDirs (Path.parent target)
    Job.writeBytes target new

/-! ## The opening tool

Puts the translated texts of documents into the openings of a directory. -/

def fileName : Text := "slg_opdemo.dat"

/-- The openings among the files of a directory, each with the name of the directory. -/
def openingsIn (dir : Text) (names : List Text) : List (Text × Text) :=
  (names.filter fun n => lower n = fileName).map fun n => (Path.child dir n, Path.name dir)

/-- The openings below a directory, each with the name of the directory that holds it. -/
def openingsBelow (p : Text) : Job (List (Text × Text)) :=
  Job.visitBelow (fun dir names found => return found ++ openingsIn dir names) p []

/-- Reads the voice table in a file. A table that is not there is empty. -/
def loadVoices (p : Text) : Job VoiceTable := do
  if ← Job.isThere p then Job.ofExcept (readVoices (← Job.readUtf8Lossy p)) else return []

def load (p : Text) (voices : VoiceTable) (names : Dialogue.Album) : Job (List Item) := do
  Job.ofExcept (extract voices names (← Job.readBytes p))

/-- A text in a document, ready to be translated. -/
def Item.toJson (i : Item) : Json :=
  Document.item [("key", .str i.key), ("original", .str i.text), ("translation", .str []), ("stage", .int 0),
    ("context", .str i.context)]

def usage : Text :=
"Usage:
  demo.py d <extract_dir> <out_json_dir>
  demo.py e <extract_dir> <in_json_dir> <out_dat_dir>"

def injectUsage : Text := "Usage: demo.py e <extract_dir> <in_json_dir> <out_dat_dir>"

/-- Extraction needs the names of the cast, for which the tool has no reader: it ends once the
directories are found. -/
def extractAll (input output : Text) : Job Unit := do
  Job.makeDirs output
  let cast := Path.child input "adv"
  let voices := Path.child input "slg/voicetbl"
  if !(← Job.isThere cast) then Job.abandon ("[ERR] adv not found: " ++ cast)
  if !(← Job.isThere voices) then Job.abandon ("[ERR] voicetbl not found: " ++ voices)
  throw .noSuchPart

/-- Puts the texts of documents into openings, if there are any for them. Returns the number of
those for which there were, added to `count`. -/
def injectEach (conv : Glyph.Converter) (input documents output : Text) : List (Text × Text) → Nat → Job Nat
  | [], count => pure count
  | (p, stage) :: rest, count => do
    let document := Path.child documents (stage ++ ".json")
    if ← Job.isThere document then
      inject conv p document (Path.child output (Path.below input p))
      injectEach conv input documents output rest (count + 1)
    else injectEach conv input documents output rest count

def injectAll (conv : Glyph.Converter) (input documents output : Text) : Job Unit := do
  Job.makeDirs output
  let count ← Job.visitBelow (fun dir names => injectEach conv input documents output (openingsIn dir names)) input 0
  Job.warn ("[OK] injected " ++ decimal count ++ " files")

def resolve (p : Text) : Job Text := do
  if p.contains '\x00' then throw .badPath
  return Path.resolved (← get).cwd p

/-- The command line: a direction and its directories. Returns the exit code. -/
def run (args : List Text) : Job Nat := do
  match args with
  | mode :: input :: second :: rest =>
    let input ← resolve input
    if lower mode = "d" then
      extractAll input (← resolve second)
      return 0
    else if lower mode = "e" then
      match rest with
      | [output] =>
        let conv ← Glyph.converter Glyph.defaultRules
        injectAll conv input (← resolve second) (← resolve output)
        return 0
      | _ =>
        Job.printLine injectUsage
        return 2
    else Job.abandon "mode must be d or e"
  | _ =>
    Job.printLine usage
    return 2

end Localizer.Opening
