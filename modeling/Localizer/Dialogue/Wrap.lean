import Localizer.Text.Casing
import Localizer.Text.Numeral

/-!
# Wrapping

A text box of the game shows three lines of `lineLimit` columns. A text is wrapped by cutting it
into tokens, filling a line with as many as fit, and moving back to a good place to break. Two ways
of breaking are tried: after a sentence or clause, and at the last space. The first is taken if the
text then fits the box, else the second. A text that fits neither way is left as it is.

Everything here is a function of the measure `measure`, which gives the columns of a text, or a
negative number if it cannot tell.
-/

namespace Localizer.Dialogue

open Text

def lineLimit : Int := 44

def boxLines : Nat := 3

/-- A line cut after a sentence is not shorter than this. -/
def shortLine : Int := 6

/-! ### Control codes -/

/-- The length of the control code at the start of a text, zero if there is none: a colour
`\cXXXXXXXX`, a size `\sNN` or a wait `\vN…`. -/
def codeLength : Text → Nat
  | '\\' :: 'c' :: t =>
    let h := (t.take 8).takeWhile fun c => (hexValue? c).isSome
    if h.length = 8 then 10 else 0
  | '\\' :: 's' :: a :: b :: _ => if isDecimal a && isDecimal b then 4 else 0
  | '\\' :: 'v' :: t =>
    let n := (t.takeWhile isDecimal).length
    if n = 0 then 0 else n + 2
  | _ => 0

/-- What a text shows, after `skip` characters of a control code that is already passed over. -/
def visibleFrom : Nat → Text → Text
  | _, [] => []
  | skip + 1, _ :: t => visibleFrom skip t
  | 0, c :: t =>
    match codeLength (c :: t) with
    | 0 => c :: visibleFrom 0 t
    | n + 1 => visibleFrom n t

def visible (t : Text) : Text := visibleFrom 0 t

/-- The columns that a text takes. Where the measure cannot tell, each character counts as one. -/
def width (measure : Text → Int) (t : Text) : Int :=
  if measure (visible t) ≥ 0 then measure (visible t) else (visible t).length

/-! ### Tokens -/

def isAlnum (c : Char) : Bool := isBasicLetter c || isBasicDigit c

def isWordPart (c : Char) : Bool := isAlnum c || c = '\'' || c = '_' || c = '-'

/-- How many of the characters after `c` belong to the same token: a run of white space, a word
that begins and ends with a letter or digit, or a single character. -/
def tokenTail (c : Char) (t : Text) : Nat :=
  if isBlank c then (t.takeWhile isBlank).length
  else if isAlnum c then (dropEndWhile (fun c => !isAlnum c) (t.takeWhile isWordPart)).length
  else 0

/-- The tokens of a text, after `skip` characters of a token that is already taken. -/
def tokensFrom : Nat → Text → List Text
  | _, [] => []
  | skip + 1, _ :: t => tokensFrom skip t
  | 0, c :: t => (c :: t.take (tokenTail c t)) :: tokensFrom (tokenTail c t) t

def tokens (t : Text) : List Text := tokensFrom 0 t

/-! ### Places to break -/

/-- The last place where a text can be cut into two parts that satisfy a condition, zero if there
is none. -/
def lastCut (good : Text → Text → Bool) (s : Text) : Nat :=
  ((List.range (s.length + 1)).reverse.find? fun e => good (s.take e) (s.drop e)).getD 0

/-- White space or nothing follows. -/
def atGap (rest : Text) : Bool := rest.head?.all isBlank

def endsSentence (part : Text) : Bool :=
  endsWith part "..." || part.getLast?.any fun c => ("…。！？!?" : Text).contains c

def endsClause (part : Text) : Bool := part.getLast?.any fun c => (",;:" : Text).contains c

/-- The cut stands after a space and before something else. -/
def afterSpace (part rest : Text) : Bool := part.getLast?.any isBlank && rest.head?.all fun c => !isBlank c

inductive Manner where
  /-- After a sentence or a clause if there is one, else at a space. -/
  | phrases
  | spaces
  deriving DecidableEq

def orElse (a b : Nat) : Nat := if a = 0 then b else a

def breakAt : Manner → Text → Nat
  | .spaces, s => orElse (lastCut afterSpace s) s.length
  | .phrases, s =>
    orElse (lastCut (fun a b => endsSentence a && atGap b) s)
      (orElse (lastCut (fun a b => endsClause a && atGap b) s) (lastCut afterSpace s))

/-- How many tokens are needed to reach a place. -/
def tokensUpTo : Nat → List Text → Nat
  | 0, _ => 0
  | _, [] => 0
  | n + 1, t :: ts => if n + 1 ≤ t.length then 1 else 1 + tokensUpTo (n + 1 - t.length) ts

/-- The tokens as a text, without white space at its end. -/
def joinEnd (ts : List Text) : Text := trimEnd ts.flatten

/-- How many tokens of a line stand before its break, zero if it has none. -/
def breakIndex (m : Manner) (line : List Text) : Nat := tokensUpTo (breakAt m (joinEnd line)) line

/-! ## Lines -/

/-- The tokens that still fit after a line, and those that are left. -/
def fit (measure : Text → Int) (line : Text) : List Text → List Text × List Text
  | [] => ([], [])
  | t :: ts =>
    if width measure (line ++ t) ≤ lineLimit then
      (t :: (fit measure (line ++ t) ts).1, (fit measure (line ++ t) ts).2)
    else ([], t :: ts)

def noStart : Text := ".,!?;:)]\x7d、。，．！？；：）」』】〉》〔〕〗】』」…〜~"

/-- Moves characters that may not begin a line to the end of the line before, as far as they fit.
White space on the way is dropped. -/
def hang (measure : Text → Int) (line : Text) : Text → Text × Text
  | [] => (line, [])
  | c :: t =>
    if isBlank c then hang measure line t
    else if noStart.contains c && width measure (line ++ [c]) ≤ lineLimit then hang measure (line ++ [c]) t
    else (line, c :: t)

/-- The number of tokens that stay on a full line. -/
def cut (measure : Text → Int) (m : Manner) (line : List Text) : Nat :=
  let atSpace := orElse (breakIndex .spaces line) line.length
  let k := orElse (breakIndex m line) atSpace
  if m = .phrases && width measure (joinEnd (line.take k)) < shortLine then atSpace else k

/-- The first line of a text given by its tokens, and the tokens that are left. -/
def nextLine (measure : Text → Int) (m : Manner) : List Text → Text × List Text
  | [] => ([], [])
  | t :: ts =>
    let (more, rest) := fit measure (trimStart t) ts
    let line := trimStart t :: more
    if rest.isEmpty then (joinEnd line, [])
    else
      let k := cut measure m line
      let (l, r) := hang measure (joinEnd (line.take k)) (line.drop k ++ rest).flatten
      (l, tokens r)

/-- The first `n` lines of a text given by its tokens, and the tokens that are left. -/
def fillLines (measure : Text → Int) (m : Manner) : Nat → List Text → List Text × List Text
  | 0, ts => ([], ts)
  | _, [] => ([], [])
  | n + 1, t :: ts =>
    let (l, rest) := nextLine measure m (t :: ts)
    let (ls, left) := fillLines measure m n rest
    (l :: ls, left)

/-! ## Wrapping -/

/-- The line break of a text: a backslash and the letter `n`. -/
def lineBreak : Text := ['\\', 'n']

def pieces : Text → List Text
  | [] => [[]]
  | '\\' :: 'n' :: t => [] :: pieces t
  | c :: t =>
    match pieces t with
    | [] => [[c]]
    | p :: ps => (c :: p) :: ps

/-- A text as one line: each line break, with the white space around it, becomes a space. -/
def unwrapped (t : Text) : Text := trim (join " " ((pieces t).map trim))

inductive Wrapping where
  | fits (lines : List Text)
  /-- The text does not fit; these are the lines that would be shown. -/
  | overflows (lines : List Text)
  deriving DecidableEq

def wrapping (measure : Text → Int) (t : Text) : Wrapping :=
  let ts := tokens (unwrapped t)
  let byPhrases := fillLines measure .phrases boxLines ts
  let bySpaces := fillLines measure .spaces boxLines ts
  if byPhrases.2.isEmpty then .fits byPhrases.1
  else if bySpaces.2.isEmpty then .fits bySpaces.1
  else .overflows bySpaces.1

def joinLines (ls : List Text) : Text := join lineBreak ls

/-- The wrapped text: one that does not fit is left as it is. -/
def wrap (measure : Text → Int) (t : Text) : Text :=
  match wrapping measure t with
  | .fits ls => joinLines ls
  | .overflows _ => t

structure Remark where
  log : Text
  tag : Text
  lines : Text

/-- The remark that is due when a text is wrapped: it does not fit, or the wrapping has changed
more than the line breaks. -/
def remark? (measure : Text → Int) (t : Text) : Option Remark :=
  match wrapping measure t with
  | .overflows ls => some ⟨"overflow.log", "OVERFLOW", joinLines ls⟩
  | .fits ls =>
    if replace lineBreak [] (joinLines ls) = replace lineBreak [] (unwrapped t) then none
    else some ⟨"wrap.log", "WRAP", joinLines ls⟩

/-- A remark as it stands in its log: with the place of the text and the text itself. -/
def Remark.entry (r : Remark) (place t : Text) : Text :=
  "[" ++ r.tag ++ "] " ++ place ++ "\n" ++ t ++ "\n-> " ++ r.lines ++ "\n---\n"

end Localizer.Dialogue
