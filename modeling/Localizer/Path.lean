import Localizer.Text.Order

/-!
# Paths

Paths are texts with `/` between their parts. The operations are lexical: they look at the text
only, never at the files. A *tidy* path has no empty and no `.` part, as `a/b` in place of
`./a//b/`; the empty tidy path is written `.`. A path that starts with exactly two slashes keeps
both, more of them count as one.
-/

namespace Localizer.Path

open Text

/-- `p` starts at the root of the file system. -/
def isAbsolute (p : Text) : Bool := p.head? = some '/'

/-- What an absolute path starts with; nothing if the path is relative. -/
def root : Text → Text
  | '/' :: '/' :: '/' :: _ => "/"
  | '/' :: '/' :: _ => "//"
  | '/' :: _ => "/"
  | _ => []

/-- The parts of a path that are neither empty nor `.`. -/
def parts (p : Text) : List Text := (splitOn '/' p).filter fun s => !s.isEmpty && s ≠ "."

def ofParts (start : Text) (ps : List Text) : Text :=
  if start.isEmpty && ps.isEmpty then "." else start ++ join "/" ps

def tidy (p : Text) : Text := ofParts (root p) (parts p)

/-- `b` seen from the directory `a`; an absolute `b` stands for itself. -/
def append (a b : Text) : Text :=
  if isAbsolute b then b
  else if a.isEmpty || a.getLast? = some '/' then a ++ b
  else a ++ '/' :: b

/-- The tidy path of `b` seen from the directory `a`. -/
def child (a b : Text) : Text := tidy (append a b)

/-- What stands before the last `/`, without the slashes at its end unless there is nothing else. -/
def directory (p : Text) : Text :=
  match splitLast? '/' p with
  | none => []
  | some (a, _) =>
    let a := a ++ ['/']
    if a.all (· = '/') then a else dropEndWhile (· = '/') a

def base (p : Text) : Text :=
  match splitLast? '/' p with
  | none => p
  | some (_, b) => b

/-- A path cut before the last dot of its last part; dots at the start of that part do not count. -/
def splitExtension (p : Text) : Text × Text :=
  let name := base p
  let dots := name.takeWhile (· = '.')
  match splitLast? '.' (name.drop dots.length) with
  | none => (p, [])
  | some (_, b) => (p.take (p.length - b.length - 1), '.' :: b)

/-! ### Parts of a tidy path -/

def name (p : Text) : Text := ((parts p).getLast?).getD []

/-- A file name cut before its last dot, which counts only between two other characters. -/
def cutSuffix (n : Text) : Text × Text :=
  match splitLast? '.' n with
  | none => (n, [])
  | some (a, b) => if a.isEmpty || b.isEmpty then (n, []) else (a, '.' :: b)

def stem (p : Text) : Text := (cutSuffix (name p)).1

def suffix (p : Text) : Text := (cutSuffix (name p)).2

def parent (p : Text) : Text := ofParts (root p) (parts p).dropLast

def withName (p newName : Text) : Text := ofParts (root p) ((parts p).dropLast ++ [newName])

def withSuffix (p newSuffix : Text) : Text := withName p (stem p ++ newSuffix)

/-- The part of `p` below the directory `dir`, of which it is known to be a descendant. -/
def below (dir p : Text) : Text := ofParts [] ((parts p).drop (parts dir).length)

/-! ### Normal form -/

/-- Resolves `..` parts against the parts before them, which `above` holds in reverse. -/
def resolveParts (absolute : Bool) : List Text → List Text → List Text
  | above, [] => above.reverse
  | above, p :: ps =>
    if p = ".." then
      match above with
      | [] => resolveParts absolute (if absolute then [] else [".."]) ps
      | a :: as => if a = ".." then resolveParts absolute (".." :: a :: as) ps else resolveParts absolute as ps
    else resolveParts absolute (p :: above) ps

/-- The normal form of a path: tidy, and with `..` parts resolved. -/
def normal (p : Text) : Text := ofParts (root p) (resolveParts (isAbsolute p) [] (parts p))

/-- The absolute normal form of a path seen from the directory `cwd`. -/
def absolute (cwd p : Text) : Text := normal (append cwd p)

/-- The path to where a path leads from the directory `cwd`. -/
def resolved (cwd p : Text) : Text := ofParts "/" (resolveParts true [] (parts (append cwd p)))

/-- The way to one place from another, given the parts of both. -/
def relativeParts : List Text → List Text → List Text
  | a :: as, b :: bs =>
    if a = b then relativeParts as bs else List.replicate (bs.length + 1) (".." : Text) ++ a :: as
  | as, bs => List.replicate bs.length (".." : Text) ++ as

/-- The way from the directory `start` to `p`, both absolute and in normal form. -/
def relative (p start : Text) : Text := ofParts [] (relativeParts (parts p) (parts start))

/-- Whether `p` is ordered before or at `q`: by their parts, one after another. -/
def le (p q : Text) : Bool := dictionaryLe Text.le (parts p) (parts q)

end Localizer.Path
