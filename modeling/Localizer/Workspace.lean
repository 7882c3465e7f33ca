import Localizer.Animation.Raster
import Localizer.Encoding.Cp932
import Localizer.Encoding.Utf16
import Localizer.Encoding.Utf8
import Localizer.Path
import Localizer.Text.Line

/-!
# The workspace

All work is done on a workspace: a tree of files and directories with a current directory, the
external programs that can be called and the reader for pictures, and what has been printed so far.
A workspace is a value and a job is a function on it, so that a run of a tool is a calculation.
-/

namespace Localizer

open Text

/-- The content of a file: its bytes, then as many zero bytes as `padding` says. Large blank files
are held without their zeros. -/
structure File where
  data : Bytes
  padding : Nat := 0
  deriving DecidableEq

namespace File

def size (f : File) : Nat := f.data.length + f.padding

def bytes (f : File) : Bytes := if f.padding = 0 then f.data else f.data ++ List.replicate f.padding 0

end File

/-- A place in the file system: the names on the way to it from the root. -/
abbrev Place := List Text

inductive Node where
  | file (content : File)
  | directory

/-- How an external program answers: what it does to the workspace is up to the caller. -/
structure Program where
  code : Int
  output : List Text
  /-- The content of the file that it makes, if it makes one. -/
  product : Option File

structure Workspace where
  cwd : Text
  files : List (Place × File) := []
  /-- The directories other than those above the current one. -/
  dirs : List Place := []
  glyphTable : Text := "font.tbl"
  programs : List (Text × Program) := []
  pictures : PictureReader := Raster.reader
  out : Text := []
  err : Text := []
  /-- The command lines that have been started, the last one first. -/
  commands : List (List Text) := []

namespace Workspace

/-- The place that a path names by its text, whatever is there. -/
def place (ws : Workspace) (p : Text) : Place := Path.parts (Path.absolute ws.cwd p)

/-- Whether there is a directory at a place: one that was made, or one above the current one. -/
def hasDir (ws : Workspace) (q : Place) : Bool := ws.dirs.contains q || q.isPrefixOf (Path.parts ws.cwd)

def node? (ws : Workspace) (q : Place) : Option Node :=
  if ws.hasDir q then some .directory else (ws.files.lookup q).map .file

def maxNameSize : Nat := 255

def pathSizeLimit : Nat := 4096

/-- Follows the names of a path from a place. Names are looked up in directories only; the last one
need not be there. -/
def follow (ws : Workspace) : Place → List Text → Except Fault Place
  | q, [] => .ok q
  | q, n :: ns =>
    match ws.node? q with
    | none => .error .noSuchFile
    | some (.file _) => .error .notDirectory
    | some .directory =>
      if n.isEmpty || n = "." then ws.follow q ns
      else if n = ".." then ws.follow q.dropLast ns
      else if maxNameSize < (Encoding.Utf8.encode n).length then .error .nameTooLong
      else ws.follow (q ++ [n]) ns

/-- The place that the names of a path lead to, which must be those of a path that can be. -/
def locate (ws : Workspace) (p : Text) (names : List Text) : Except Fault Place :=
  if p.contains '\x00' then .error .badPath
  else if p.isEmpty then .error .noSuchFile
  else if p.any isHalf then .error .unencodable
  else if pathSizeLimit ≤ (Encoding.Utf8.encode p).length then .error .nameTooLong
  else ws.follow (if Path.isAbsolute p then [] else Path.parts ws.cwd) names

def look (ws : Workspace) (p : Text) : Except Fault Node := do
  match ws.node? (← ws.locate p (splitOn '/' p)) with
  | some n => return n
  | none => throw .noSuchFile

/-- The place of something that is to be made at a path. -/
def site (ws : Workspace) (p : Text) : Except Fault Place :=
  ws.locate p (splitOn '/' (dropEndWhile (· = '/') p))

def read (ws : Workspace) (p : Text) : Except Fault File := do
  match ← ws.look p with
  | .file f => return f
  | .directory => throw .isDirectory

def file? (ws : Workspace) (p : Text) : Option File := (ws.read p).toOption

def isDir (ws : Workspace) (p : Text) : Bool :=
  match ws.look p with
  | .ok .directory => true
  | _ => false

def isFile (ws : Workspace) (p : Text) : Bool := (ws.file? p).isSome

def exists_ (ws : Workspace) (p : Text) : Bool := (ws.look p).isOk

/-- The name of the direct child of a directory on the way to a place, if the place lies below. -/
def childName? (dir q : Place) : Option Text :=
  if dir.isPrefixOf q then (q.drop dir.length).head? else none

/-- The names in the directory at a place, in ascending order. -/
def namesAt (ws : Workspace) (dir : Place) : List Text :=
  ((ws.files.map Prod.fst ++ ws.dirs).filterMap (childName? dir)).eraseDups.mergeSort Text.le

/-- The names in the directory at a path, none if there is no directory. -/
def names (ws : Workspace) (p : Text) : List Text :=
  match ws.locate p (splitOn '/' p) with
  | .ok q => if ws.hasDir q then ws.namesAt q else []
  | .error _ => []

def setFile (ws : Workspace) (q : Place) (f : File) : Workspace :=
  { ws with files := if (ws.files.lookup q).isSome then
      ws.files.map fun (r, g) => if r = q then (r, f) else (r, g)
    else ws.files ++ [(q, f)] }

/-- The places from the first level down to `q` itself. -/
def ancestors (q : Place) : List Place := (List.range q.length).map fun i => q.take (i + 1)

def addDir (ws : Workspace) (q : Place) : Workspace :=
  { ws with dirs := ws.dirs ++ (ancestors q).filter fun r => !ws.hasDir r }

def removeTree (ws : Workspace) (p : Text) : Workspace :=
  let q := ws.place p
  { ws with
    files := ws.files.filter fun (r, _) => !q.isPrefixOf r
    dirs := ws.dirs.filter fun r => !q.isPrefixOf r }

end Workspace

/-- A job: it works on a workspace and may fail, the workspace then being what it was left as. -/
abbrev Job (α : Type) := ExceptT Fault (StateM Workspace) α

namespace Job

def require {α : Type} (f : Fault) : Option α → Job α
  | some a => pure a
  | none => throw f

/-- Goes on with the result of a calculation, or fails with its fault. -/
def ofExcept {α : Type} : Except Fault α → Job α
  | .ok a => pure a
  | .error f => throw f

def abandon {α : Type} (message : Text) : Job α := throw (.abandoned message)

def print (t : Text) : Job Unit := modify fun ws => { ws with out := ws.out ++ t }

def printLine (t : Text) : Job Unit := print (t ++ ['\n'])

def warn (t : Text) : Job Unit := modify fun ws => { ws with err := ws.err ++ t ++ ['\n'] }

/-- Whether there is something at a path. A name that is too long is a fault. -/
def isThere (p : Text) : Job Bool := do
  match (← get).look p with
  | .ok _ => return true
  | .error .nameTooLong => throw .nameTooLong
  | .error _ => return false

def readBytes (p : Text) : Job Bytes := return (← ofExcept ((← get).read p)).bytes

/-- The text of a file that is strictly UTF-8, its line ends unified. -/
def readUtf8 (p : Text) : Job Text := do
  let t ← require .undecodable (Encoding.Utf8.decode? (← readBytes p))
  return unifyNewlines t

/-- The text of a file that is mostly UTF-8, its line ends unified. -/
def readUtf8Lossy (p : Text) : Job Text := return unifyNewlines (Encoding.Utf8.decodeLossy (← readBytes p))

/-- The text of a file that is mostly in code page 932, its line ends unified. -/
def readCp932Lossy (p : Text) : Job Text := return unifyNewlines (Encoding.Cp932.decodeLossy (← readBytes p))

/-- The text of a file that is strictly in code page 932, its line ends unified. -/
def readCp932 (p : Text) : Job Text := do
  let t ← require .undecodable (Encoding.Cp932.decode? (← readBytes p))
  return unifyNewlines t

/-- The text of a file that is strictly UTF-16 and starts with the mark of its byte order, its line
ends unified. A file may also be empty. -/
def readUtf16 (p : Text) : Job Text := do
  let t ← match ← readBytes p with
    | 0xFF :: 0xFE :: bs => require .undecodable (Encoding.Utf16.decode? bs)
    | 0xFE :: 0xFF :: bs => require .undecodable (Encoding.Utf16.decode? (Encoding.Utf16.swapBytes bs))
    | [] => pure []
    | bs => throw (if (Encoding.Utf16.decode? bs).isSome then .noByteOrderMark else .undecodable)
  return unifyNewlines t

/-- Writes a file. The directory that holds it must exist, and the path must not end in a slash. -/
def writeFile (p : Text) (f : File) : Job Unit := do
  let ws ← get
  let q ← ofExcept (ws.site p)
  if ws.hasDir q || p.getLast? = some '/' then throw .isDirectory
  set (ws.setFile q f)

def writeBytes (p : Text) (bs : Bytes) : Job Unit := writeFile p { data := bs }

/-- Writes a text to a file as UTF-8. One that has no encoding leaves the file empty. -/
def writeUtf8 (p t : Text) : Job Unit := do
  writeBytes p ((Encoding.Utf8.encode? t).getD [])
  if t.any isHalf then throw .unencodable

def appendBytes (p : Text) (bs : Bytes) : Job Unit := do
  let old := ((← get).file? p).map File.bytes
  writeBytes p (old.getD [] ++ bs)

/-- Adds texts at the end of a file as UTF-8, up to one that has no encoding. -/
def appendUtf8 (p : Text) (ts : List Text) : Job Unit := do
  appendBytes p (Encoding.Utf8.encode (ts.takeWhile fun t => !t.any isHalf).flatten)
  if ts.any fun t => t.any isHalf then throw .unencodable

def makeDir (p : Text) : Job Unit := do
  let ws ← get
  let q ← ofExcept (ws.site p)
  if (ws.node? q).isSome then throw .fileExists
  set (ws.addDir q)

def ensureDir (p : Text) : Job Unit :=
  tryCatch (makeDir p) fun f => do if !(← get).isDir p then throw f

/-- Makes a directory and those above it, at most `fuel` of them, if they are not there. -/
def makeDirsUp : Nat → Text → Job Unit
  | 0, p => ensureDir p
  | fuel + 1, p => tryCatch (ensureDir p) fun f => do
    if f ≠ .noSuchFile || Path.parent p = p then throw f
    makeDirsUp fuel (Path.parent p)
    ensureDir p

def makeDirs (p : Text) : Job Unit := makeDirsUp (Path.parts p).length p

end Job

namespace Workspace

/-- The files below a directory in the order of a walk that takes the files of a directory before
its subdirectories, both by name: each with the directory that holds it and its name. The walk goes
at most `depth` levels down. -/
def walk (ws : Workspace) : Nat → Text → List (Text × List Text)
  | 0, _ => []
  | depth + 1, dir =>
    let ns := ws.names dir
    let (subs, fs) := ns.partition fun n => ws.isDir (Path.append dir n)
    (dir, fs) :: subs.flatMap fun n => ws.walk depth (Path.append dir n)

def depth (ws : Workspace) : Nat :=
  (ws.files.map (·.1.length) ++ ws.dirs.map List.length).foldl max 0 + 1

/-- The directories below a path, with the names of the files in each. -/
def walkFiles (ws : Workspace) (p : Text) : List (Text × List Text) :=
  if ws.isDir p then ws.walk ws.depth p else []

/-- The paths below a directory whose names end in `ext`: those of each directory before those of
its subdirectories. Directories count as well. -/
def findBelow (ws : Workspace) (ext : Text) : Nat → Text → List Text
  | 0, _ => []
  | depth + 1, dir =>
    let ns := ws.names dir
    (ns.filter fun n => endsWith n ext).map (Path.child dir) ++
      (ns.filter fun n => ws.isDir (Path.append dir n)).flatMap fun n => ws.findBelow ext depth (Path.child dir n)

def find (ws : Workspace) (p ext : Text) : List Text :=
  if ws.isDir (Path.tidy p) then ws.findBelow ext ws.depth (Path.tidy p) else []

/-- A bound on the number of directories that a walk reaches while files are written. -/
def walkBound (ws : Workspace) : Nat := (ws.dirs.length + 2) * (ws.dirs.length + 2)

end Workspace

namespace Job

/-- Visits directories, each with the names of its files, and then those below it, at most `fuel` in
all. Each directory is looked at when it is reached, so that what was written in the meantime is
seen. -/
def visitAll {σ : Type} (visit : Text → List Text → σ → Job σ) : Nat → List Text → σ → Job σ
  | 0, _, s => pure s
  | _, [], s => pure s
  | fuel + 1, dir :: dirs, s => do
    let ws ← get
    let (subs, files) := (ws.names dir).partition fun n => ws.isDir (Path.append dir n)
    let s ← visit dir files s
    visitAll visit fuel (subs.map (Path.append dir) ++ dirs) s

def visitBelow {σ : Type} (visit : Text → List Text → σ → Job σ) (p : Text) (s : σ) : Job σ := do
  let ws ← get
  if ws.isDir p then visitAll visit ws.walkBound [p] s else return s

end Job

end Localizer
