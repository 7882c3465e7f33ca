import Localizer.Assoc
import Localizer.Fault
import Localizer.Text.Casing

/-!
# The cast

The characters of the game have names and faces, both numbered. They are found in tables with one
file for each character: its number, its names in the section `BASIC`, and the pictures of its face
in the section `FACE_L`.
-/

namespace Localizer.Dialogue

open Text

/-! ## Statements of a listing

What a line of the code section of a script listing means for dialogue: it pushes a value, calls a
function, computes, or is a text that is pushed. The code section begins after the line `[CODE]`;
its lines are numbered from one, and a number together with the script identifies a text. -/

inductive Statement where
  | number (n : Nat)
  /-- Pushes a value that is known only when the script runs. -/
  | symbol
  /-- Calls a function with a number of arguments. -/
  | call (count function : Nat)
  /-- Calls a part of a script with a number of arguments. -/
  | leave (count : Nat)
  /-- Another instruction, given by its first word. -/
  | operation (op : Text)
  | text
  /-- A line without meaning here: an empty line, a mark or a comment. -/
  | other
  deriving DecidableEq

/-- The number that a word of exactly `width` hexadecimal digits spells. -/
def hexWord? (width : Nat) (t : Text) : Option Nat :=
  if t.length = width && t.all (fun c => (hexValue? c).isSome) then some (hexNumber t) else none

/-- The operand of an instruction that has one of exactly `width` digits. -/
def operand? (name : Text) (width : Nat) (line : Text) : Option Nat :=
  match words line with
  | [op, n] => if op = name then hexWord? width n else none
  | _ => none

/-- The operands of a call: a count of two digits, a comma, and a word of eight digits. -/
def callOperands? (name : Text) (line : Text) : Option (Nat × Nat) :=
  let parts := match words line with
    | [op, a, f] => if op = name && a.getLast? = some ',' then some (a.dropLast, f) else none
    | [op, af] => if op = name then splitOnce? ',' af else none
    | _ => none
  match parts with
  | some (a, f) =>
    match hexWord? 2 a, hexWord? 8 f with
    | some a, some f => some (a, f)
    | _, _ => none
  | none => none

def operations : List Text := words
  "NOP PUSHR POP POPL POPG POPF STIL STIG STIF INCL DECL INCG DECG EXCH NEG ADD SUB MUL DIV MOD AND OR NOT EQ NEQ
   LT GT LEQ GEQ B BZ BNZ BTBL JMPL JMPG CALLL CALLG RET RETN YIELD"

/-- A word that begins with the name of an instruction, the name ending where letters end. -/
def isOperation (t : Text) : Bool := operations.contains (t.takeWhile isWordChar)

/-- A line that is not code: it opens a section, or is a mark or a name of the listing. -/
def isMark (t : Text) : Bool := startsWith t "[" || startsWith t "@" || startsWith t "__"

def Statement.ofLine (line : Text) : Statement :=
  match operand? "PUSHI" 8 line with
  | some n => .number n
  | none =>
    if (operand? "PUSHL" 2 line).isSome || (operand? "PUSHG" 8 line).isSome || (operand? "PUSHF" 8 line).isSome then
      .symbol
    else
      match (callOperands? "CALLB" line).or (callOperands? "CALLI" line) with
      | some (a, f) => .call a f
      | none =>
        match (callOperands? "CALLL" line).or (callOperands? "CALLG" line) with
        | some (a, _) => .leave a
        | none =>
          if isOperation (firstWord line) then .operation (firstWord line)
          else if isBlankText line || isMark (trim line) then .other
          else .text

def isText (line : Text) : Bool := Statement.ofLine line = .text

/-! ### Numbers of lines -/

def codeMark : Text := "[CODE]"

def isSectionMark (line : Text) : Bool := startsWith (trim line) "[" && endsWith (trim line) "]"

structure Cursor where
  inCode : Bool := false
  /-- The number of lines of the code section so far. -/
  line : Nat := 0
  deriving DecidableEq

def Cursor.next (c : Cursor) (line : Text) : Cursor :=
  if trim line = codeMark then ⟨true, 0⟩
  else if !c.inCode || isSectionMark line then { c with inCode := false }
  else ⟨true, c.line + 1⟩

/-- The number of a line of the code section, given the cursor before it. -/
def Cursor.number? (c : Cursor) (line : Text) : Option Nat :=
  if trim line = codeMark || !c.inCode || isSectionMark line then none else some (c.line + 1)

/-! ## The cast -/

/-- Texts by number, for each character by number. -/
abbrev Album := List (Int × List (Int × Text))

structure Cast where
  names : Album := []
  faces : Album := []

/-- A number with at least four places, the sign counting as one. -/
def fourPlaces : Int → Text
  | .ofNat n => padLeft 4 '0' (decimal n)
  | .negSucc n => '-' :: padLeft 3 '0' (decimal (n + 1))

def least? (d : List (Int × Text)) : Option (Int × Text) :=
  d.foldl (fun m e =>
    match m with
    | none => some e
    | some f => if e.1 < f.1 then some e else some f) none

/-- The name of a character: the one that is asked for, else its first. A character without names
is called by its number. -/
def pickName (names : Album) (char? name? : Option Int) : Text :=
  match char? with
  | none => []
  | some char =>
    match (Assoc.get? char names).getD [] with
    | [] => "ID" ++ fourPlaces char
    | table =>
      match Assoc.get? (name?.getD 0) table, Assoc.get? 0 table with
      | some n, _ => n
      | none, some n => n
      | none, none => ((least? table).map Prod.snd).getD []

/-- The picture of a character: the one that is asked for if there is one, else the first. -/
def pickFace (faces : Album) (char? face? : Option Int) : Text :=
  match char? with
  | none => []
  | some char =>
    let table := (Assoc.get? char faces).getD []
    match face?.bind fun f => (Assoc.get? f table).filter fun n => !n.isEmpty with
    | some n => n
    | none => ((least? table).map Prod.snd).getD []

/-! ## Tables -/

structure CastReader where
  cast : Cast := {}
  char? : Option Int := none
  names : List (Int × Text) := []
  faces : List (Int × Text) := []
  part : Text := []

def CastReader.flush (r : CastReader) : Cast :=
  match r.char? with
  | none => r.cast
  | some c =>
    { names := if r.names.isEmpty then r.cast.names else Assoc.insert c r.names r.cast.names
      faces := if r.faces.isEmpty then r.cast.faces else Assoc.insert c r.faces r.cast.faces }

def upperBasic (c : Char) : Char := if 'a' ≤ c && c ≤ 'z' then Char.ofNat (c.toNat - 32) else c

/-- The name of the section that a line opens, in upper case. -/
def sectionName? (line : Text) : Option Text :=
  match trim line with
  | '[' :: t =>
    let name := t.dropLast
    if t.getLast? = some ']' && !name.isEmpty && name.all (fun c => isBasicLetter c || isBasicDigit c || c = '_') then
      some (name.map upperBasic)
    else none
  | _ => none

def sides? (line : Text) : Option (Text × Text) := (splitOnce? '=' line).map fun (l, r) => (trim l, trim r)

def idDigits? (line : Text) : Option Text :=
  match sides? line with
  | some (l, r) => if l.map upperBasic = "ID" && !r.isEmpty && r.all isDecimal then some r else none
  | none => none

def nameParts? (line : Text) : Option (Text × Text) :=
  match sides? line with
  | some (l, r) =>
    let digits := l.drop 4
    if (l.take 4).map upperBasic = "NAME" && digits.length = 2 && digits.all isDecimal then some (digits, r) else none
  | none => none

def faceParts? (line : Text) : Option (Text × Text) :=
  match trimStart line with
  | '#' :: t =>
    match sides? t with
    | some (l, r) =>
      let picture := r.takeWhile fun c => !isBlank c && c ≠ ';' && c ≠ '/'
      if !l.isEmpty && l.all (fun c => (hexValue? c).isSome) && !picture.isEmpty then some (l, picture) else none
    | none => none
  | _ => none

def numeral (t : Text) : Except Fault Int := (readDecimal? t).elim (.error .badNumeral) .ok

def isTableComment (line : Text) : Bool :=
  let s := trim line
  s.isEmpty || startsWith s ";" || startsWith s "//"

def CastReader.line (r : CastReader) (line : Text) : Except Fault CastReader := do
  if isTableComment line then return r
  match sectionName? line with
  | some s => return { r with part := s }
  | none =>
    match idDigits? line with
    | some ds =>
      let n ← numeral ds
      if r.char?.all (· = n) then return { r with char? := some n }
      else return { r with cast := r.flush, char? := some n, names := [], faces := [] }
    | none =>
      if r.part = "BASIC" then
        match r.char?, nameParts? line with
        | some _, some (ds, name) =>
          let i ← numeral ds
          return if name.isEmpty then r else { r with names := Assoc.insert i name r.names }
        | _, _ => return r
      else if r.part = "FACE_L" then
        match r.char?, faceParts? line with
        | some _, some (ds, picture) =>
          let i ← numeral ds
          return { r with faces := Assoc.insert i picture r.faces }
        | _, _ => return r
      else return r

def readTable (cast : Cast) (table : List Text) : Except Fault Cast :=
  (table.foldlM CastReader.line { cast := cast }).map CastReader.flush

end Localizer.Dialogue
