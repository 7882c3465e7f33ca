import Localizer.Assoc
import Localizer.Json.Text
import Localizer.Script.Image

/-!
# String arguments

Some calls take texts: what they push is the offset of a string. A table says, for each function,
which of its arguments are texts. In a listing such a push is a line with the text itself, and the
operands of jumps and calls between scripts are names in place of offsets.
-/

namespace Localizer.Script

open Text

/-- A whole number as it may be given in the table: a truth value counts as one or zero. -/
inductive Ordinal where
  | number (n : Int)
  | flag (b : Bool)
  deriving DecidableEq, Repr

def Ordinal.toInt : Ordinal → Int
  | number n => n
  | flag b => if b then 1 else 0

def Ordinal.text : Ordinal → Text
  | number n => decimalInt n
  | flag b => if b then "True" else "False"

/-- The whole number that a JSON value gives. -/
def Ordinal.ofJson? : Json → Option Ordinal
  | .int n => some (.number n)
  | .bool b => some (.flag b)
  | _ => none

/-- For each kind of call, for each function, the positions of its text arguments from 1 on; the
single position -1 stands for all of them. -/
abbrev ArgumentTable := List (Text × List (Int × List Ordinal))

def readPositions (context : Text) (v : Json) : Except Fault (List Ordinal) :=
  let bad : Except Fault (List Ordinal) := .error (.script (.badPositions context v.display))
  match v with
  | .arr items => (items.mapM Ordinal.ofJson?).elim bad .ok
  | v => (Ordinal.ofJson? v).elim bad fun n => .ok [n]

def readFunction (context : Text) (v : Json) : Except Fault Ordinal :=
  match v with
  | .str t => (readMarked? t).elim (.error .badNumeral) fun n => .ok (.number n)
  | v => (Ordinal.ofJson? v).elim (.error (.script (.badFunction context v.display))) .ok

def readCallEntries (context : Text) :
    List (Text × Json) → List (Int × List Ordinal) → Except Fault (List (Int × List Ordinal))
  | [], entries => .ok entries
  | (k, v) :: ms, entries => do
    let f ← readFunction context (.str k)
    let ps ← readPositions (context ++ ":" ++ k) v
    readCallEntries context ms (Assoc.insert f.toInt ps entries)

def textCalls : List Text := ["CALLB", "CALLL"]

/-- Reads the entries of one kind of call from the members of the table. -/
def readCall (members : List (Text × Json)) (call : Text) : Except Fault (Text × List (Int × List Ordinal)) :=
  match members.find? fun (k, _) => upper k = call with
  | none | some (_, .null) => .ok (call, [])
  | some (_, .obj ms) => do return (call, ← readCallEntries ("embedded str.json:" ++ call) ms [])
  | some _ => .error (.script (.argumentEntryNotObject call))

def readArgumentTable : Json → Except Fault ArgumentTable
  | .obj members =>
    if members.any fun (k, _) => textCalls.contains (upper k) then textCalls.mapM (readCall members)
    else .error (.script .argumentTableEmpty)
  | _ => .error (.script .argumentTableNotObject)

def argumentTable : ArgumentTable :=
  [("CALLB", [(0, [.number 1]), (1, [.number (-1)]), (2, [.number (-1)])]), ("CALLL", [])]

/-! ### Replacing offsets by texts -/

inductive Item where
  | instruction (i : Instruction)
  /-- A push of a text, with the payload of the instruction. -/
  | text (payload : Bytes) (t : Text)
  deriving DecidableEq, Repr

def argumentCount? (i : Instruction) : Option Nat :=
  let fromOperands := i.operands.head?.bind fun t => (readHexToken t).toOption
  if textCalls.contains i.name then
    match i.payload with
    | [_, _, _, _, n] => some n.toNat
    | _ => fromOperands
  else fromOperands

def Item.isPush : Item → Bool
  | instruction i => (["PUSHI", "PUSHL", "PUSHG", "PUSHF", "PUSHR"] : List Text).contains i.name
  | text _ _ => false

structure Found where
  /-- The offsets of the strings of the first region that are in use. -/
  used1 : List Nat := []
  /-- The offsets of the strings of the second region that are in use. -/
  used2 : List Nat := []
  warnings : List Text := []

def Found.use1 (f : Found) : Option StringItem → Found
  | some it => { f with used1 := it.start :: f.used1 }
  | none => f

def Found.use2 (f : Found) : Option StringItem → Found
  | some it => { f with used2 := it.start :: f.used2 }
  | none => f

def Found.warn (f : Found) (w : Text) : Found := { f with warnings := w :: f.warnings }

/-- The name that an offset refers to, or the offset itself. -/
def nameOrOffset (offset : Nat) : Option StringItem → Text
  | some it => escapeLine it.text
  | none => hexWord offset

/-- The warning that an offset of a call between scripts refers to nothing. -/
def danglingName (what : Text) (offset : Nat) (region : Text) : Text :=
  "[WARN] CALLG " ++ what ++ " " ++ hexWord offset ++ " 不在 " ++ region ++ " 内"

def danglingArgument (call : Instruction) (function offset : Nat) (position : Ordinal) : Text :=
  "[WARN] 字符串指针 " ++ hexWord offset ++ " 不在 STRINGS_1 内：CALL=" ++ call.name ++ " " ++
    join ", " call.operands ++ " func_id=" ++ hexWord function ++ " argcount=" ++
    ((argumentCount? call).elim ("None" : Text) decimal) ++ " arg#" ++ position.text

/-- The positions that are texts among `count` arguments. -/
def targetPositions (positions : List Ordinal) (count : Nat) : List Ordinal :=
  match positions with
  | [.number (-1)] => (List.range count).map fun i : Nat => .number (i + 1)
  | ps => ps

/-- Turns the push at one position of the arguments, the first one having position 1, into a text.
-/
def replaceArgument (strings1 : StringIndex) (call : Instruction) (function : Nat)
    (state : List Item × Found) (position : Ordinal) : List Item × Found :=
  let (args, found) := state
  if position.toInt ≤ 0 then state
  else
    match args[position.toInt.toNat - 1]? with
    | some (.instruction ⟨name, payload, _⟩) =>
      if name = "PUSHI" && payload.length = 4 then
        let offset := Word.value payload
        match strings1.resolve? offset with
        | none => (args, found.warn (danglingArgument call function offset position))
        | some it =>
          (args.set (position.toInt.toNat - 1) (.text payload (escapeLine it.text)), found.use1 (some it))
      else state
    | _ => state

/-- Replaces offsets by texts in one instruction and in the pushes before it. The items before it
are given, and returned with it, the last one first. -/
def replaceOffsets (table : ArgumentTable) (strings1 strings2 : StringIndex)
    (state : List Item × Found) (i : Instruction) : List Item × Found :=
  let (before, found) := state
  let plain := (.instruction i :: before, found)
  if i.name = "JMPG" && i.payload.length = 8 then
    let offset2 := Word.value (i.payload.take 4)
    let offset1 := Word.value (i.payload.drop 4)
    let s2 := strings2.resolve? offset2
    let s1 := strings1.resolve? offset1
    (.instruction { i with operands := [nameOrOffset offset2 s2, nameOrOffset offset1 s1] } :: before,
      (found.use2 s2).use1 s1)
  else if i.name = "CALLG" && i.payload.length = 9 then
    let offset2 := Word.value (i.payload.take 4)
    let offset1 := Word.value ((i.payload.drop 4).take 4)
    let count := Word.value (i.payload.drop 8)
    let s2 := strings2.resolve? offset2
    let s1 := strings1.resolve? offset1
    let found := if s2.isSome then found.use2 s2 else found.warn (danglingName "脚本名指针" offset2 "STRINGS_2")
    let found := if s1.isSome then found.use1 s1 else found.warn (danglingName "变量名指针" offset1 "STRINGS_1")
    (.instruction { i with operands := [nameOrOffset offset2 s2, nameOrOffset offset1 s1, hexByte count] } :: before,
      found)
  else if textCalls.contains i.name && 4 ≤ i.payload.length then
    let function := Word.value (i.payload.take 4)
    match (table.lookup i.name).bind fun fs => Assoc.get? (function : Int) fs with
    | none => plain
    | some positions =>
      let args := (before.takeWhile Item.isPush).reverse
      let (args', found) := (targetPositions positions args.length).foldl
        (replaceArgument strings1 i function) (args, found)
      (.instruction i :: args'.reverse ++ before.drop args.length, found)
  else plain

def toItems (table : ArgumentTable) (strings1 strings2 : StringIndex) (entryNames : List Int)
    (code : List Instruction) : List Item × Found :=
  let found := entryNames.foldl (fun f o => f.use1 (strings1.resolve? o)) {}
  let (items, found) := code.foldl (replaceOffsets table strings1 strings2) ([], found)
  (items.reverse, found)

end Localizer.Script
