import Localizer.Decimal
import Localizer.Fault
import Localizer.Json.Basic

/-!
# JSON texts

A value is written in one of several styles: as a document over several lines with a fixed
indentation, on one line, or as it is shown inside a message. Characters outside the basic alphabet
are written as themselves.
-/

namespace Localizer.Json

open Text

def escapedChar (c : Char) : Text :=
  if c = '"' then "\\\""
  else if c = '\\' then "\\\\"
  else if c = '\n' then "\\n"
  else if c = '\r' then "\\r"
  else if c = '\t' then "\\t"
  else if c = '\x08' then "\\b"
  else if c = '\x0c' then "\\f"
  else if c.toNat < 0x20 then "\\u" ++ lowerHex 4 c.toNat
  else [c]

def stringText (t : Text) : Text := '"' :: t.flatMap escapedChar ++ ['"']

/-- A string with its quotes, with halves of surrogate pairs written by their numbers. -/
def halvesText (t : Text) : Text :=
  '"' :: (t.flatMap fun c => (half? c).elim (escapedChar c) fun n => "\\u" ++ lowerHex 4 n) ++ ['"']

def realText (x : Float) : Text :=
  if x.isNaN then "NaN" else if x.isInf then (if x < 0 then "-Infinity" else "Infinity")
  else Decimal.shortestText x

structure Style where
  null : Text
  bool : Bool → Text
  real : Float → Text
  string : Text → Text
  opening : Nat → Text
  between : Nat → Text
  closing : Nat → Text
  colon : Text

def bracketed (s : Style) (left right : Char) (depth : Nat) (parts : List Text) : Text :=
  if parts.isEmpty then [left, right]
  else left :: s.opening depth ++ join (s.between depth) parts ++ s.closing depth ++ [right]

mutual

def write (s : Style) (depth : Nat) : Json → Text
  | null => s.null
  | bool b => s.bool b
  | int n => decimalInt n
  | real x => s.real x
  | str t => s.string t
  | arr items => bracketed s '[' ']' depth (writeItems s (depth + 1) items)
  | obj ms => bracketed s '\x7b' '\x7d' depth (writeMembers s (depth + 1) ms)

def writeItems (s : Style) (depth : Nat) : List Json → List Text
  | [] => []
  | v :: vs => write s depth v :: writeItems s depth vs

def writeMembers (s : Style) (depth : Nat) : List (Text × Json) → List Text
  | [] => []
  | (k, v) :: ms => (s.string k ++ s.colon ++ write s depth v) :: writeMembers s depth ms

end

def Style.oneLine : Style where
  null := "null"
  bool b := if b then "true" else "false"
  real := realText
  string := halvesText
  opening _ := []
  between _ := ", "
  closing _ := []
  colon := ": "

/-- Over several lines, with `n` spaces per depth. -/
def Style.indented (n : Nat) : Style :=
  { Style.oneLine with
    string := stringText
    opening := fun d => '\n' :: List.replicate (n * (d + 1)) ' '
    between := fun d => ',' :: '\n' :: List.replicate (n * (d + 1)) ' '
    closing := fun d => '\n' :: List.replicate (n * d) ' ' }

def Style.message : Style where
  null := "None"
  bool b := if b then "True" else "False"
  real := Decimal.shortestText
  string := quoted
  opening _ := []
  between _ := ", "
  closing _ := []
  colon := ": "

def render (n : Nat) (v : Json) : Text := write (.indented n) 0 v

def compact (v : Json) : Text := write .oneLine 0 v

def display (v : Json) : Text := write .message 0 v

/-! ## Reading JSON

A reader of JSON documents. Control characters may not stand in strings; the names `NaN`, `Infinity`
and `-Infinity` are read as numbers. A whole number of excessive length and a value that is nested
too deeply are refused with faults of their own; whatever else is wrong is not JSON. Each part of
the reader returns what it read with the rest of the text. -/

def isSpace (c : Char) : Bool := c = ' ' || c = '\t' || c = '\n' || c = '\r'

def skipSpace (t : Text) : Text := t.dropWhile isSpace

/-- The code unit that four hexadecimal digits spell, with the rest. -/
def hexUnit? : Text → Option (Nat × Text)
  | a :: b :: c :: d :: t => do
    let n := (← hexValue? a) * 0x1000 + (← hexValue? b) * 0x100 + (← hexValue? c) * 0x10 + (← hexValue? d)
    return (n, t)
  | _ => none

/-- The character of a code unit, which may be a half of a surrogate pair. -/
def unitChar (n : Nat) : Char := if n.isValidChar then Char.ofNat n else ofHalf n

def escape? : Char → Option Char
  | '"' => some '"'
  | '\\' => some '\\'
  | '/' => some '/'
  | 'b' => some '\x08'
  | 'f' => some '\x0c'
  | 'n' => some '\n'
  | 'r' => some '\r'
  | 't' => some '\t'
  | _ => none

def stringRest? : Text → Option (Text × Text)
  | [] => none
  | '"' :: t => some ([], t)
  | '\\' :: 'u' :: a :: b :: c :: d :: '\\' :: 'u' :: e :: f :: g :: h :: t => do
    let (m, _) ← hexUnit? [a, b, c, d]
    let paired := (hexUnit? [e, f, g, h]).filter fun (n, _) =>
      0xD800 ≤ m && m < 0xDC00 && 0xDC00 ≤ n && n < 0xE000
    match paired with
    | some (n, _) =>
      let (s, rest) ← stringRest? t
      return (Char.ofNat (0x10000 + (m - 0xD800) * 0x400 + (n - 0xDC00)) :: s, rest)
    | none =>
      let (s, rest) ← stringRest? ('\\' :: 'u' :: e :: f :: g :: h :: t)
      return (unitChar m :: s, rest)
  | '\\' :: 'u' :: a :: b :: c :: d :: t => do
    let (n, _) ← hexUnit? [a, b, c, d]
    let (s, rest) ← stringRest? t
    return (unitChar n :: s, rest)
  | '\\' :: e :: t => do
    let c ← escape? e
    let (s, rest) ← stringRest? t
    return (c :: s, rest)
  | c :: t =>
    if c.toNat < 0x20 || c = '\\' then none
    else do
      let (s, rest) ← stringRest? t
      return (c :: s, rest)

def digitsOf (t : Text) : Text × Text := t.span isBasicDigit

def number (t : Text) : Except Fault (Json × Text) := do
  let (negative, body) :=
    match t with
    | '-' :: t => (true, t)
    | t => (false, t)
  let (whole, rest) ←
    match body with
    | '0' :: t => .ok (['0'], t)
    | t => match digitsOf t with
      | ([], _) => .error .badJson
      | r => .ok r
  let (places, rest) :=
    match rest with
    | '.' :: t => match digitsOf t with
      | ([], _) => ([], rest)
      | (ds, t) => (ds, t)
    | _ => ([], rest)
  let (exponent, rest) : Option Int × Text :=
    match rest with
    | e :: t =>
      if e = 'e' || e = 'E' then
        let (minus, u) :=
          match t with
          | '-' :: u => (true, u)
          | '+' :: u => (false, u)
          | u => (false, u)
        match digitsOf u with
        | ([], _) => (none, rest)
        | (ds, v) =>
          let n := Decimal.spell (ds.map fun c => c.toNat - 48)
          (some (if minus then -(n : Int) else n), v)
      else (none, rest)
    | [] => (none, rest)
  let value := Decimal.spell ((whole ++ places).map fun c => c.toNat - 48)
  if places.isEmpty && exponent.isNone then
    if maxDecimalDigits < whole.length then throw .badNumeral
    return (.int (if negative then -(value : Int) else value), rest)
  else
    let x := Decimal.nearest value (exponent.getD 0 - places.length)
    return (.real (if negative then -x else x), rest)

def words : List (Text × Json) :=
  [("null", .null), ("true", .bool true), ("false", .bool false),
   ("NaN", .real (0.0 / 0.0)), ("Infinity", .real (1.0 / 0.0)), ("-Infinity", .real (-1.0 / 0.0))]

/-- A value at the start of a text, with the rest; `items` and `members` read what nests. -/
def valueWith (items members : Text → Except Fault (Json × Text)) (t : Text) : Except Fault (Json × Text) :=
  match t with
  | '"' :: t => (stringRest? t).elim (.error .badJson) fun (s, rest) => .ok (.str s, rest)
  | '[' :: t => items (skipSpace t)
  | '{' :: t => members (skipSpace t)
  | t =>
    match words.find? fun (w, _) => w.isPrefixOf t with
    | some (w, v) => .ok (v, t.drop w.length)
    | none => number t

/-- The items of an array that follow, `value` reading one; at most `fuel` of them. -/
def itemsWith (value : Text → Except Fault (Json × Text)) : Nat → Text → Except Fault (List Json × Text)
  | 0, _ => .error .badJson
  | fuel + 1, t => do
    let (v, t) ← value t
    match skipSpace t with
    | ']' :: t => return ([v], t)
    | ',' :: t =>
      let (vs, t) ← itemsWith value fuel (skipSpace t)
      return (v :: vs, t)
    | _ => throw .badJson

/-- The members of an object that follow, `value` reading one value; at most `fuel` of them. -/
def membersWith (value : Text → Except Fault (Json × Text)) :
    Nat → List (Text × Json) → Text → Except Fault (List (Text × Json) × Text)
  | 0, _, _ => .error .badJson
  | fuel + 1, ms, t => do
    let '"' :: t := t | throw .badJson
    let some (name, t) := stringRest? t | throw .badJson
    let ':' :: t := skipSpace t | throw .badJson
    let (v, t) ← value (skipSpace t)
    let ms := setMember name v ms
    match skipSpace t with
    | '}' :: t => return (ms, t)
    | ',' :: t => membersWith value fuel ms (skipSpace t)
    | _ => throw .badJson

/-- A value nested at most `depth` deep, with the rest of the text. -/
def value : Nat → Text → Except Fault (Json × Text)
  | 0, t => valueWith (fun _ => .error .tooDeep) (fun _ => .error .tooDeep) t
  | depth + 1, t =>
    valueWith
      (fun t =>
        match t with
        | ']' :: t => .ok (.arr [], t)
        | t => (itemsWith (value depth) t.length t).map fun (vs, rest) => (.arr vs, rest))
      (fun t =>
        match t with
        | '}' :: t => .ok (.obj [], t)
        | t => (membersWith (value depth) t.length [] t).map fun (ms, rest) => (.obj ms, rest))
      t

def maxDepth : Nat := 984

def read (t : Text) : Except Fault Json := do
  let (v, rest) ← value maxDepth (skipSpace t)
  if (skipSpace rest).isEmpty then return v else throw .badJson

end Localizer.Json
