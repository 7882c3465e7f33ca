import Localizer.Assoc
import Localizer.Text.Casing
import Localizer.Text.Numeral

/-!
# String literals

Finding the string literals of C# source text that hold Chinese. There are interpolated literals
(`$"…"`), of which several joined by `+` count as one, normal ones (`"…"`), and verbatim ones
(`@"…"`, `$@"…"`), in which a quote is written twice.
-/

namespace Localizer.Resource

open Text

/-! ## Placeholders of interpolated strings

An interpolated string holds expressions in braces, and a brace that is written twice stands for
itself. Its template has a named placeholder for each expression. The name is taken from the
expression, and numbered if it has been taken before. -/

structure Placeholder where
  name : Text
  expr : Text
  /-- How the value is formatted, empty if nothing is said. -/
  format : Text
  deriving DecidableEq, Repr

structure Parsed where
  template : Text := []
  placeholders : List Placeholder := []
  /-- What a reader should look at. -/
  warnings : List Text := []
  deriving DecidableEq, Repr

/-! ### Names -/

def wordRuns (t : Text) : List Text :=
  (t.foldr (fun c ps => if !isWordChar c then [] :: ps else
    match ps with
    | [] => [[c]]
    | p :: ps => (c :: p) :: ps) [[]]).filter fun p => !p.isEmpty

/-- The identifiers in an expression: the words that begin with a basic letter or an underscore. -/
def identifiers (expr : Text) : List Text :=
  (wordRuns expr).filter fun w => w.head?.any fun c => isBasicLetter c || c = '_'

/-- Members whose names say little without that of their owner. -/
def plainMembers : List Text := ["Count", "Length", "Value", "Text", "Name", "ToString"]

/-- The name for an expression: its last identifier, with the one before if it says little. -/
def nameOf (expr : Text) : Text :=
  match (identifiers expr).reverse with
  | [] => "arg"
  | [last] => last
  | last :: owner :: _ => if plainMembers.contains last then owner ++ last else last

/-- The next name made from `base`, given how often each base has been taken. -/
def freshName (used : List (Text × Nat)) (base : Text) : Text × List (Text × Nat) :=
  match Assoc.get? base used with
  | some n => (base ++ decimal (n + 1), Assoc.insert base (n + 1) used)
  | none => (base, Assoc.insert base 1 used)

/-! ### Expressions -/

/-- What stands for a brace that is written twice while expressions are looked for. -/
def openMark : Text := ['\x00', 'L', 'B', '\x00']

/-- What stands for a closing brace that is written twice. -/
def closeMark : Text := ['\x00', 'R', 'B', '\x00']

def setAside (t : Text) : Text :=
  replace ['\x7d', '\x7d'] closeMark (replace ['\x7b', '\x7b'] openMark t)

def putBack (t : Text) : Text :=
  replace closeMark ['\x7d', '\x7d'] (replace openMark ['\x7b', '\x7b'] t)

/-- What stands before the brace that closes `depth` open ones. -/
def untilClosed? : Nat → Text → Option Text
  | _, [] => none
  | depth, c :: t =>
    if c = '\x7b' then (untilClosed? (depth + 1) t).map (c :: ·)
    else if c = '\x7d' then
      match depth with
      | 0 | 1 => some []
      | depth + 1 => (untilClosed? depth t).map (c :: ·)
    else (untilClosed? depth t).map (c :: ·)

def isFormatChar (c : Char) : Bool := isBasicLetter c || isBasicDigit c || c = '.' || c = '#' || c = ','

/-- A format, which a line feed may follow. -/
def isFormat (t : Text) : Bool :=
  let t := if t.getLast? = some '\n' then t.dropLast else t
  !t.isEmpty && t.all isFormatChar

/-- The format that follows the last colon after which one stands, and what is before that colon. -/
def cutFormat? : Text → Option (Text × Text)
  | [] => none
  | c :: t =>
    match cutFormat? t with
    | some (a, b) => some (c :: a, b)
    | none => if c = ':' && isFormat t then some ([], t) else none

def exprParts (inner : Text) : Text × Text :=
  let (expr, format) := (cutFormat? inner).getD (inner, [])
  (trim expr, trim format)

/-- An expression that holds a string, a character or a function. -/
def isInvolved (expr : Text) : Bool := expr.contains '"' || expr.contains '\'' || hasInfix "=>" expr

def inBraces (t : Text) : Text := '\x7b' :: t ++ ['\x7d']

/-- Takes a string with doubled braces set aside apart, after the first `skip` characters. -/
def parseFrom : Nat → List (Text × Nat) → Text → Parsed
  | _, _, [] => {}
  | skip + 1, used, _ :: t => parseFrom skip used t
  | 0, used, c :: t =>
    if c = '\x7b' then
      match untilClosed? 1 t with
      | none =>
        let p := parseFrom 0 used t
        { p with template := c :: p.template, warnings := "大括号不匹配" :: p.warnings }
      | some inner =>
        let (expr, format) := exprParts inner
        let (name, used) := freshName used (nameOf expr)
        let p := parseFrom (inner.length + 1) used t
        { template := inBraces name ++ p.template
          placeholders := ⟨name, expr, format⟩ :: p.placeholders
          warnings := if isInvolved expr then (inBraces expr ++ " 包含复杂表达式") :: p.warnings else p.warnings }
    else
      let p := parseFrom 0 used t
      { p with template := c :: p.template }

def parse (content : Text) : Parsed :=
  let p := parseFrom 0 [] (setAside content)
  { p with template := putBack p.template }

/-! ## String literals -/

def isChineseChar (c : Char) : Bool := 0x4E00 ≤ c.toNat && c.toNat ≤ 0x9FFF

def isChinese (t : Text) : Bool := t.any isChineseChar

/-! ### Patterns -/

/-- The content of a normal literal, from after its opening quote. A backslash takes the character
after it along, but not over the end of a line. -/
def normalBody? : Text → Option Text
  | [] => none
  | '"' :: _ => some []
  | '\\' :: c :: t => if c = '\n' then none else (normalBody? t).map fun b => '\\' :: c :: b
  | c :: t => if c = '\\' then none else (normalBody? t).map (c :: ·)

/-- The content of an interpolated literal, from after its opening quote. What is in braces runs to
the next closing brace. -/
def interpolatedBody? : Bool → Text → Option Text
  | _, [] => none
  | true, c :: t => (interpolatedBody? (c ≠ '\x7d') t).map (c :: ·)
  | false, '"' :: _ => some []
  | false, '\\' :: c :: t => if c = '\n' then none else (interpolatedBody? false t).map fun b => '\\' :: c :: b
  | false, c :: t =>
    if c = '\\' || c = '\x7d' then none else (interpolatedBody? (c = '\x7b') t).map (c :: ·)

/-- The content of a verbatim literal, from after its opening quote. If the text ends before the
literal does, the literal ends at its last doubled quote. -/
def verbatimBody? : Text → Option Text
  | [] => none
  | '"' :: '"' :: t => some ((verbatimBody? t).elim [] fun b => '"' :: '"' :: b)
  | c :: t => if c = '"' then some [] else (verbatimBody? t).map (c :: ·)

/-- A stretch of the text that a pattern has found. -/
structure Span where
  start : Nat
  stop : Nat
  /-- What stands before the opening quote. -/
  mark : Text
  content : Text
  deriving DecidableEq, Repr

/-- A pattern: given the character before, what it finds at the start of a text, mark and content.
-/
abbrev Pattern := Option Char → Text → Option (Text × Text)

def interpolatedPattern : Pattern
  | before, '$' :: '"' :: t => if before = some '@' then none else (interpolatedBody? false t).map fun b => ("$", b)
  | _, _ => none

def normalPattern : Pattern
  | _, '"' :: t => (normalBody? t).map fun b => ([], b)
  | _, _ => none

def verbatimPattern : Pattern
  | _, '$' :: '@' :: '"' :: t => (verbatimBody? t).map fun b => ("$@", b)
  | _, '@' :: '$' :: '"' :: t => (verbatimBody? t).map fun b => ("@$", b)
  | _, '@' :: '"' :: t => (verbatimBody? t).map fun b => ("@", b)
  | _, _ => none

/-- What a pattern finds from left to right without overlap, after `skip` characters, from position
`pos` on. -/
def findFrom (pattern : Pattern) : Nat → Option Char → Nat → Text → List Span
  | _, _, _, [] => []
  | skip + 1, _, pos, c :: t => findFrom pattern skip (some c) (pos + 1) t
  | 0, before, pos, c :: t =>
    match pattern before (c :: t) with
    | some (mark, content) =>
      let size := mark.length + content.length + 2
      ⟨pos, pos + size, mark, content⟩ :: findFrom pattern (size - 1) (some c) (pos + 1) t
    | none => findFrom pattern 0 (some c) (pos + 1) t

def findAll (pattern : Pattern) (t : Text) : List Span := findFrom pattern 0 none 0 t

/-- Joins neighbouring spans with only a plus sign between them. -/
def joinSpans (t : Text) : List Span → List Span
  | [] => []
  | s :: ss =>
    match joinSpans t ss with
    | [] => [s]
    | r :: rs =>
      if trim (slice t s.stop r.start) = "+" then ⟨s.start, r.stop, s.mark, s.content ++ r.content⟩ :: rs
      else s :: r :: rs

/-! ### Literals -/

inductive Kind where
  | interpolated
  | normal
  | verbatim
  deriving DecidableEq, Repr

structure Literal where
  start : Nat
  stop : Nat
  source : Text
  template : Text
  kind : Kind
  placeholders : List Placeholder := []
  /-- What a reader should look at. -/
  warning : Text := []
  deriving DecidableEq, Repr

def Literal.interpolated (t : Text) (s : Span) : Literal :=
  let p := parse s.content
  { start := s.start, stop := s.stop, source := slice t s.start s.stop, template := p.template
    kind := .interpolated, placeholders := p.placeholders, warning := join "; " p.warnings }

def Literal.normal (t : Text) (s : Span) : Literal :=
  { start := s.start, stop := s.stop, source := slice t s.start s.stop, template := s.content, kind := .normal }

def Literal.verbatim (t : Text) (s : Span) : Literal :=
  { start := s.start, stop := s.stop, source := slice t s.start s.stop
    template := replace ['"', '"'] ['"'] s.content, kind := .verbatim
    warning := "逐字面字符串 (" ++ s.mark ++ ") 需手动处理" }

/-- A span that has no character in common with some literals. -/
def isApart (found : List Literal) (s : Span) : Bool := found.all fun l => s.stop ≤ l.start || l.stop ≤ s.start

/-- A normal literal that is not the rest of another kind. -/
def isPlain (t : Text) (s : Span) : Bool :=
  s.start = 0 || ((t[s.start - 1]?).all fun c => c ≠ '$' && c ≠ '@')

def literals (t : Text) : List Literal :=
  let first := ((joinSpans t (findAll interpolatedPattern t)).filter fun s => isChinese s.content).map (Literal.interpolated t)
  let second := ((findAll normalPattern t).filter fun s => isApart first s && isPlain t s && isChinese s.content).map
    (Literal.normal t)
  let third := ((findAll verbatimPattern t).filter fun s => isApart (first ++ second) s && isChinese s.content).map
    (Literal.verbatim t)
  (first ++ second ++ third).mergeSort fun a b => a.start ≤ b.start

/-! ### Replacements -/

def inQuotes (t : Text) : Text := '"' :: t ++ ['"']

def Placeholder.argument (p : Placeholder) : Text :=
  let value := if p.format.isEmpty then p.expr else '$' :: inQuotes (inBraces (p.expr ++ ":" ++ p.format))
  "(" ++ inQuotes p.name ++ ", " ++ value ++ ")"

/-- The expression that takes the place of a literal, looking its text up by a key. Verbatim
literals are not replaced. -/
def Literal.replacement? (l : Literal) (key : Text) : Option Text :=
  match l.kind, l.placeholders with
  | .verbatim, _ => none
  | _, [] => some ("SR.Get(" ++ inQuotes key ++ ")")
  | _, ps => some ("SR.F(" ++ inQuotes key ++ ", " ++ join ", " (ps.map Placeholder.argument) ++ ")")

def splice (t : Text) (l : Literal) (new : Text) : Text := t.take l.start ++ new ++ t.drop l.stop

end Localizer.Resource
