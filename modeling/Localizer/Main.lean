import Localizer.Command

/-!
# The command line

`main` takes the name of a command and its arguments. It reads what the arguments name, and the
files in the current directory, into a workspace, runs the command on it and writes back what has
changed. No external programs and no faces can be reached from here: a command that needs one says
so.
-/

namespace Localizer.CommandLine

/-- How deep directories are read. -/
def depthLimit : Nat := 64

/-- Reads a file, or a directory with all that is in it, into a workspace. What is not there, or
cannot be read, is left out. -/
def readTree (ws : Workspace) (path : String) : Nat → IO Workspace
  | 0 => return ws
  | depth + 1 => do
    let q := ws.place path.toList
    try
      let here ← IO.FS.realPath path
      if ← here.isDir then
        let mut ws := ws.addDir q
        for entry in ← here.readDir do
          ws ← readTree ws (path ++ "/" ++ entry.fileName) depth
        return ws
      else
        let data ← IO.FS.readBinFile path
        return (ws.addDir q.dropLast).setFile q { data := data.toList }
    catch _ => return ws

/-- Reads the files of the current directory into a workspace, but not the directories in it. -/
def readHere (ws : Workspace) : IO Workspace := do
  let here ← IO.currentDir
  let mut ws := ws
  for entry in ← here.readDir do
    unless ← entry.path.isDir do
      ws ← readTree ws entry.fileName 1
  return ws

def pathOf (q : Place) : String := String.ofList (Path.ofParts "/" q)

def writeChanges (before after : Workspace) : IO Unit := do
  for q in after.dirs do
    unless before.hasDir q do
      IO.FS.createDirAll (pathOf q)
  for (q, f) in after.files do
    unless before.files.lookup q = some f do
      IO.FS.writeBinFile (pathOf q) (ByteArray.mk f.bytes.toArray)
  for (q, _) in before.files do
    if (after.files.lookup q).isNone then
      IO.FS.removeFile (pathOf q)

def usage : String :=
  "usage: localizer COMMAND ARGUMENTS\ncommands: " ++
    String.intercalate ", " (Command.named.map fun (n, _) => String.ofList n)

/-- Runs a command on the files of the current directory and those that its arguments name, and
gives its exit code. -/
def run (command : Command) (args : List String) : IO UInt32 := do
  let here ← IO.currentDir
  let mut before ← readHere { cwd := here.toString.toList }
  for arg in args do
    before ← readTree before arg depthLimit
  let (result, after) := (command.run none (args.map String.toList)).run.run before
  writeChanges before after
  IO.print (String.ofList after.out)
  IO.eprint (String.ofList after.err)
  match result with
  | .ok code => return code.toUInt32
  | .error fault =>
    IO.eprintln (String.ofList (fault.message?.getD ("failed" : Text)))
    return 1

end Localizer.CommandLine

/-- Runs the command that the first argument names with the arguments after it. -/
def main (args : List String) : IO UInt32 := do
  match args.head?.bind fun name => Localizer.Command.ofName? name.toList with
  | some command => Localizer.CommandLine.run command (args.drop 1)
  | none =>
    IO.eprintln Localizer.CommandLine.usage
    return 2
