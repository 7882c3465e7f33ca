import Localizer.Dialogue.Cast
import Localizer.Locale
import Localizer.Text.Line

/-!
# Extraction

Finding the texts of a script. The code of the script is followed line by line with a stack of the
values that are known. Calls that set the scene say who speaks; calls that show texts take them from
the stack, and each text becomes an item with a key, from which its line can be found again, and a
context, which tells the translator who says it.
-/

namespace Localizer.Dialogue

open Text

/-! ### Packed numbers -/

def signedWord (n : Int) : Int := if n / 0x80000000 % 2 = 1 then n - 0x100000000 else n

/-- The word that stands for no number. -/
def isNone (n : Int) : Bool := signedWord n = -1

/-- The low half of a word that stands for a number. -/
def lowHalf? (n? : Option Int) : Option Int := (n?.filter fun n => !isNone n).map (· % 0x10000)

/-- The high half of a word that stands for a number. -/
def highHalf? (n? : Option Int) : Option Int := (n?.filter fun n => !isNone n).map (· / 0x10000 % 0x10000)

/-! ### Contexts -/

structure Scene where
  char? : Option Int := none
  name? : Option Int := none
  face? : Option Int := none
  voice? : Option Int := none
  thought : Bool := false
  narration : Bool := false
  deriving DecidableEq

def voicePath (loc : Locale) (voice : Int) : Text := loc.voiceBase ++ "/" ++ decimalInt voice ++ ".wav"

def Scene.context (loc : Locale) (cast : Cast) (s : Scene) : Text :=
  let face := pickFace cast.faces s.char? s.face?
  let name := pickName cast.names s.char? s.name?
  let parts : List Text :=
    (if s.narration then [loc.narration] else []) ++
    (if face.isEmpty then [] else ["<img src=\"" ++ loc.faceBase ++ "/" ++ face ++ ".png\">"]) ++
    (if name.isEmpty then [] else [name ++ if s.thought then loc.thought else []]) ++
    (s.voice?.elim [] fun v => ["<audio controls src=\"" ++ voicePath loc v ++ "\"></audio>"])
  trim (join "\n" parts)

/-! ### The stack -/

inductive Value where
  | number (n : Nat)
  /-- A value that is not known. -/
  | symbol
  | text (line : Text) (number : Nat)
  deriving DecidableEq

def numberAt? (args : List Value) (i : Nat) : Option Int :=
  match args[i]? with
  | some (.number n) => some n
  | _ => none

/-- The texts among the arguments of a call, with the numbers of their lines. -/
def textsOf (args : List Value) : List (Text × Nat) :=
  args.filterMap fun
    | .text t n => some (t, n)
    | _ => none

/-- Instructions that put one value in the place of two. -/
def binaryOperations : List Text := words "ADD SUB MUL DIV MOD AND OR EQ NEQ LT GT LEQ GEQ"

/-- Instructions that put one value in the place of another. -/
def unaryOperations : List Text := ["NEG", "NOT"]

def takingOperations : List Text := words "POP POPL POPG POPF STIL STIG STIF BZ BNZ BTBL"

/-- The stack, its top first, after an instruction. -/
def operate (op : Text) (stack : List Value) : List Value :=
  if binaryOperations.contains op then
    match stack with
    | _ :: _ :: s => .symbol :: s
    | s => .symbol :: s
  else if unaryOperations.contains op then .symbol :: stack.tail
  else if op = "EXCH" then
    match stack with
    | a :: b :: s => b :: a :: s
    | s => s
  else if takingOperations.contains op then stack.tail
  else if op = "PUSHR" then .symbol :: stack
  else stack

/-- The arguments that a call takes from the stack, the first argument first. A call that takes
nothing is given everything. -/
def arguments (count : Nat) (stack : List Value) : List Value :=
  if count = 0 then stack.reverse else (stack.take count).reverse

def afterCall (count : Nat) (stack : List Value) : List Value :=
  if count = 0 then [] else stack.drop count

/-! ### Items -/

structure Item where
  key : Text
  text : Text
  context : Text
  deriving DecidableEq

/-- The key of a line: its number in hexadecimal. -/
def keyOfLine (n : Int) : Text := upperHex 1 n.toNat

/-- The number of the line that a key names: the hexadecimal digits it begins with. -/
def lineOfKey? (key : Text) : Option Nat :=
  match (trimStart key).takeWhile fun c => (hexValue? c).isSome with
  | [] => none
  | digits => some (hexNumber digits)

/-- The `i`-th form of a key, for lines of the same number. -/
def keyForm (base : Text) (i : Nat) : Text := if i = 0 then base else base ++ "_" ++ decimal (i + 1)

/-- The first form of a key that is not in use, from the `i`-th on; at most `fuel` are passed over.
-/
def freshForm (used : List Text) (base : Text) (i : Nat) : Nat → Text
  | 0 => keyForm base i
  | fuel + 1 => if used.contains (keyForm base i) then freshForm used base (i + 1) fuel else keyForm base i

def freshKey (used : List Text) (base : Text) : Text := freshForm used base 0 used.length

def addItem (items : List Item) (text : Text) (number : Nat) (context : Text) : List Item :=
  items ++ [⟨freshKey (items.map Item.key) (keyOfLine number), text, context⟩]

/-! ### Following the code -/

/-- The state while the code of a script is followed. -/
structure Extraction where
  cursor : Cursor := {}
  /-- The values that are known, the top of the stack first. -/
  stack : List Value := []
  scene : Scene := {}
  items : List Item := []

def Scene.afterCall (s : Scene) (function : Nat) (args : List Value) : Scene :=
  if function = 0x13 || function = 0x14 then
    { char? := lowHalf? (numberAt? args 0)
      name? := highHalf? (numberAt? args 0)
      face? := lowHalf? (numberAt? args 1)
      voice? := lowHalf? (numberAt? args 2)
      thought := function = 0x14
      narration := false }
  else if function = 0x4B then { voice? := lowHalf? (numberAt? args 5), narration := true }
  else s

def shownTexts (loc : Locale) (cast : Cast) (s : Scene) (function : Nat) (args : List Value) :
    List (Text × Nat × Text) :=
  if function = 0 then (textsOf args).map fun (t, n) => (t, n, s.context loc cast)
  else if function = 1 || function = 2 then
    (textsOf args).zipIdx.map fun ((t, n), i) => (t, n, loc.choice ++ decimal (i + 1))
  else []

/-- What a statement does, `n` being the number of its line. -/
def Extraction.execute (loc : Locale) (cast : Cast) (e : Extraction) (line : Text) (n : Nat) :
    Statement → Extraction
  | .number k => { e with stack := .number k :: e.stack }
  | .symbol => { e with stack := .symbol :: e.stack }
  | .call count function =>
    let count := min count e.stack.length
    let args := arguments count e.stack
    let scene := e.scene.afterCall function args
    { e with
      stack := afterCall count e.stack
      scene := scene
      items := (shownTexts loc cast scene function args).foldl (fun is (t, k, c) => addItem is t k c) e.items }
  | .leave count => { e with stack := afterCall (min count e.stack.length) e.stack }
  | .operation op => { e with stack := operate op e.stack }
  | .text => { e with stack := .text line n :: e.stack }
  | .other => e

def Extraction.step (loc : Locale) (cast : Cast) (e : Extraction) (line : Text) : Extraction :=
  let e' := { e with cursor := e.cursor.next line }
  match e.cursor.number? line with
  | some n => e'.execute loc cast line n (.ofLine line)
  | none => e'

def extract (loc : Locale) (cast : Cast) (script : Text) : List Item :=
  ((lines script).foldl (Extraction.step loc cast) {}).items

end Localizer.Dialogue
