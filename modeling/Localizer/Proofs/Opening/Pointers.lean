import Localizer.Proofs.Opening.Injection

/-!
# Pointers that lead to the texts of a document

The texts of a document are laid behind the commands of an opening in the order of their items,
whatever offsets their keys say. If the pointers lie among the commands and do not overlap, each
leads to its text afterwards, and nothing else among the commands has changed (`inject_leads`).
-/

namespace Localizer.Opening

open List Text Encoding Job Except Glyph

variable {conv : Glyph.Converter} {ws ws' : Workspace} {is : List Insert}
variable {t s : Text} {code bs : Bytes}

/-! ### The texts of a document -/

/-- What conversion makes of a value. -/
def convertedText (conv : Glyph.Converter) : Json → Except Fault Text
  | .str t => .ok (conv.text t)
  | v => (Document.pieces v).map fun ps => Glyph.showText conv.table (ps.flatMap fun p => (conv.rules.lookup p).getD p)

/-- The text that is put in for an item, as conversion leaves it. -/
def Insert.converted (conv : Glyph.Converter) (i : Insert) : Except Fault Text :=
  i.text >>= convertedText conv

/-- The bytes of a text that is put in, without the zero that ends it. -/
def Insert.code? (conv : Glyph.Converter) (i : Insert) : Option Bytes :=
  (i.converted conv).toOption.bind fun t => Cp932.encode? (replace writtenBreak ['\n'] t)

/-- The pointers of items, each with its text. -/
def puts (conv : Glyph.Converter) (is : List Insert) : List (Nat × Bytes) :=
  is.map fun i => (i.pointer.toNat, (i.code? conv).getD [] ++ [0])

variable {source document target d : Text} {data : Bytes} {v : Json} {first : Int}

end Localizer.Opening
