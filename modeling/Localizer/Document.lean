import Localizer.Glyph
import Localizer.Json.Text

/-!
# Documents of texts to translate

Texts are handed to translators as JSON documents: an array with an object for each text. What comes
back may hold anything, so the fields are read here with care for values of other kinds.
-/

namespace Localizer.Document

open Text

/-- The items of a document. An object has its names as items, and a string its characters. -/
def items : Json → Except Fault (List Json)
  | .arr vs => .ok vs
  | .obj ms => .ok (ms.map fun (k, _) => .str k)
  | .str t => .ok (t.map fun c => .str [c])
  | _ => .error .wrongKind

/-- A field of an item, `default` if it is not there. Only objects have fields. -/
def field (name : Text) (default : Json) : Json → Except Fault Json
  | .obj ms => .ok ((ms.lookup name).getD default)
  | _ => .error .noSuchOperation

def orElse (v w : Json) : Json := if v.truthy then v else w

/-- The text of a value, that of an absent value being empty. -/
def text (v : Json) : Except Fault Text :=
  match v, v.truthy with
  | .str t, _ => .ok t
  | _, false => .ok []
  | _, true => .error .noSuchOperation

/-- The whole number that a value stands for: a numeral is read, and a fraction cut off. -/
def wholeNumber : Json → Except Fault Int
  | .bool b => .ok (if b then 1 else 0)
  | .int n => .ok n
  | .real x => (Decimal.trunc? x).elim (.error (if x.isInf then .unbounded else .badNumeral)) .ok
  | .str t => (readDecimal? t).elim (.error .badNumeral) .ok
  | _ => .error .wrongKind

def pieces (v : Json) : Except Fault (List Text) := do
  (← items v).mapM fun
    | .str t => .ok t
    | _ => .error .wrongKind

def convert (conv : Glyph.Converter) : Json → Job Text
  | .str t => conv.run t
  | v => do
    let ps ← Job.ofExcept (pieces v)
    Glyph.mapText conv.table (ps.flatMap fun p => (conv.rules.lookup p).getD p)

def item (fields : List (String × Json)) : Json := .obj (fields.map fun (k, v) => (k.toList, v))

end Localizer.Document
