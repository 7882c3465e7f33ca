/-!
# Texts and byte strings

A text is the list of its characters and a byte string the list of its bytes, so that every
operation on them is a recursion on data. This module holds the operations that know nothing
about the meaning of a character: cutting at a separator, replacing, searching, joining.
-/

namespace Localizer

/-- A text: its characters in order. -/
abbrev Text := List Char

/-- A byte string: its bytes in order. -/
abbrev Bytes := List UInt8

/-- A string literal stands for the text it spells. -/
instance : Coe String Text := ⟨String.toList⟩

namespace Text

def startsWith (t p : Text) : Bool := p.isPrefixOf t

def endsWith (t s : Text) : Bool := s.isSuffixOf t

def hasInfix (p : Text) : Text → Bool
  | [] => p.isEmpty
  | c :: t => p.isPrefixOf (c :: t) || hasInfix p t

/-- `t` without the longest run of characters in the class at its end. -/
def dropEndWhile {α : Type} (p : α → Bool) (t : List α) : List α := (t.reverse.dropWhile p).reverse

/-- `t` without the longest runs of characters in the class at both ends. -/
def stripWhile {α : Type} (p : α → Bool) (t : List α) : List α := dropEndWhile p (t.dropWhile p)

/-- The pieces of `t` between occurrences of `sep`, at least one. -/
def splitOn {α : Type} [DecidableEq α] (sep : α) (t : List α) : List (List α) :=
  t.foldr (fun c ps => if c = sep then [] :: ps else
    match ps with
    | [] => [[c]]
    | p :: ps => (c :: p) :: ps) [[]]

/-- `t` cut at the first occurrence of `sep`, if there is one. -/
def splitOnce? {α : Type} [DecidableEq α] (sep : α) (t : List α) : Option (List α × List α) :=
  match t.span (· ≠ sep) with
  | (_, []) => none
  | (a, _ :: b) => some (a, b)

def upTo {α : Type} [DecidableEq α] (sep : α) (t : List α) : List α := t.takeWhile (· ≠ sep)

/-- The pieces of `t` after at most `n` cuts at `sep`, from the left. -/
def splitAtMost (sep : Char) : Nat → Text → List Text
  | 0, t => [t]
  | n + 1, t =>
    match splitOnce? sep t with
    | none => [t]
    | some (a, b) => a :: splitAtMost sep n b

/-- `t` cut at its last occurrence of `sep`, if there is one. -/
def splitLast? (sep : Char) (t : Text) : Option (Text × Text) :=
  (splitOnce? sep t.reverse).map fun (b, a) => (a.reverse, b.reverse)

/-- Replaces occurrences of `old`, the first `skip` characters being the rest of one that is
already replaced. -/
def replaceFrom (old new : Text) : Nat → Text → Text
  | _, [] => []
  | skip + 1, _ :: t => replaceFrom old new skip t
  | 0, c :: t =>
    if old.isPrefixOf (c :: t) then new ++ replaceFrom old new (old.length - 1) t
    else c :: replaceFrom old new 0 t

/-- `t` with every occurrence of the non-empty text `old`, found from the left without overlap,
replaced by `new`. -/
def replace (old new t : Text) : Text := replaceFrom old new 0 t

def replaceChar (old new : Char) (t : Text) : Text := t.map fun c => if c = old then new else c

/-- The position of the first occurrence of `p` in `t`. -/
def find? {α : Type} [BEq α] (p : List α) : List α → Option Nat
  | [] => if p.isEmpty then some 0 else none
  | c :: t => if p.isPrefixOf (c :: t) then some 0 else (find? p t).map (· + 1)

def join {α : Type} (sep : List α) (ts : List (List α)) : List α := sep.intercalate ts

/-- The characters of `t` from position `start` up to but excluding position `stop`. -/
def slice {α : Type} (t : List α) (start stop : Nat) : List α := (t.take stop).drop start

/-- `t` padded on the left with `c` to at least `n` characters. -/
def padLeft (n : Nat) (c : Char) (t : Text) : Text := List.replicate (n - t.length) c ++ t

end Text

end Localizer
