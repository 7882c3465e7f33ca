import Localizer.Assoc
import Localizer.Workspace

/-!
# Glyphs

The game draws a text by looking its codes up in a font. A localized font has the glyphs of another
language in the places of characters that are no longer needed, and a *glyph table* says which: the
line `889F=业` means that the code 889F now draws 业. Texts for the game are converted by such a
table. Characters that the code page has below the first code of its kanji stay as they are; other
characters are replaced by the character whose code draws them, and by a question mark if there is
none. What had to be replaced by a question mark is collected in a file.
-/

namespace Localizer

open Text Encoding

/-- For each character that has been given a code, the text whose encoding is that code. -/
abbrev GlyphTable := List (Char × Text)

namespace Glyph

/-- The first code that may be redrawn: that of the first kanji. -/
def firstCode : Nat := 0x889F

def code? (c : Char) : Option Nat :=
  (Cp932.encodeChar? c).map fun
    | [b] => b.toNat
    | a :: b :: _ => a.toNat * 256 + b.toNat
    | [] => 0

def codeOfText? : Text → Option Nat
  | [c] => code? c
  | _ => none

/-- A character whose code is not below `first`. -/
def isRedrawn (first : Int) (t : Text) : Bool := (codeOfText? t).any fun n => first ≤ n

/-! ## Tables -/

/-- The two parts of a line that gives a code, the first being two to four hexadecimal digits. -/
def entryParts? (line : Text) : Option (Text × Text) := do
  let (l, r) ← splitOnce? '=' line
  let digits := trim l
  let r := trim r
  if 2 ≤ digits.length && digits.length ≤ 4 && digits.all (fun c => (hexValue? c).isSome) && !r.isEmpty then
    return (digits, r)
  else none

def isComment (line : Text) : Bool := line.isEmpty || startsWith line ";" || startsWith line "//"

/-- The character of an entry: what stands before a comment. -/
def entryChar (r : Text) : Text := trim (beforeSlashes (upTo ';' r))

def codeBytes (code : Nat) : Bytes := [UInt8.ofNat (code / 256), UInt8.ofNat (code % 256)]

def textOfCode? (code : Nat) : Option Text :=
  (Cp932.decode? (codeBytes code)).filter fun t => Cp932.encode? t = some (codeBytes code)

/-- What a line adds to a table: nothing if it gives no code. A code must be given to exactly one
character and must be one that the code page has. -/
def readEntry (line : Text) : Except Fault (Option (Char × Text)) :=
  let line := trim line
  if isComment line then .ok none
  else
    match entryParts? line with
    | none => .ok none
    | some (digits, r) =>
      match entryChar r with
      | [c] =>
        match textOfCode? (hexNumber digits) with
        | some t => .ok (some (c, t))
        | none => .error (.abandoned (upperHex 4 (hexNumber digits) ++ "=" ++ [c]))
      | _ => .error (.abandoned line)

/-- Adds the lines of a table to it, later codes of a character replacing earlier ones. -/
def addEntries (table : GlyphTable) : List Text → Except Fault GlyphTable
  | [] => .ok table
  | l :: ls => do
    match ← readEntry l with
    | some (c, t) => addEntries (Assoc.insert c t table) ls
    | none => addEntries table ls

def readTable (t : Text) : Except Fault GlyphTable := addEntries [] (lines t)

def loadTable (p : Text) : Job GlyphTable := do Job.ofExcept (readTable (← Job.readUtf16 p))

/-! ### Conversion -/

/-- Replacements of single characters that are made before a text is converted. -/
abbrev Rules := List (Text × Text)

/-- Punctuation of the target language with its counterpart in the code page. -/
def defaultRules : Rules := [("·", "・"), ("—", "─"), ("～", "〜"), ("“", "「"), ("”", "」")]

def applyRules (rules : Rules) (t : Text) : Text := t.flatMap fun c => (rules.lookup [c]).getD [c]

/-- What a character becomes, or nothing if it cannot be shown. With an empty table every character
of the code page can. -/
def showChar? (table : GlyphTable) (c : Char) : Option Text :=
  match code? c with
  | some n => if table.isEmpty || n < firstCode then some [c] else Assoc.get? c table
  | none => Assoc.get? c table

/-- A text with each character as it is shown, a question mark standing for those that cannot be. -/
def showText (table : GlyphTable) (t : Text) : Text := t.flatMap fun c => (showChar? table c).getD "?"

def inAscendingOrder (cs : List Char) : List Char := cs.eraseDups.mergeSort fun a b => decide (ordinal a ≤ ordinal b)

/-- The characters of a text that cannot be shown, in ascending order. -/
def unshown (table : GlyphTable) (t : Text) : List Char :=
  inAscendingOrder (t.filter fun c => (showChar? table c).isNone)

/-- The file that collects characters that cannot be shown. -/
def logPath : Text := "badchars.txt"

/-- Adds items to a file with one item on a line, leaving out those that it already has. -/
def logItems (items : List Text) (p : Text) : Job Unit := do
  let known ← if ← Job.isThere p then lines <$> Job.readUtf8Lossy p else pure []
  let new := (items.eraseDups).filter fun i => !i.isEmpty && !known.contains i
  if !new.isEmpty then
    Job.makeDirs (Path.parent p)
    Job.appendUtf8 p (new.map fun i => i ++ ['\n'])

def logChars (cs : List Char) : Job Unit :=
  if cs.isEmpty then pure () else logItems (cs.map fun c => [c]) logPath

def mapText (table : GlyphTable) (t : Text) : Job Text := do
  logChars (unshown table t)
  return showText table t

/-- A way to convert texts: replacements, then a table. -/
structure Converter where
  rules : Rules
  table : GlyphTable

def Converter.text (conv : Converter) (t : Text) : Text := showText conv.table (applyRules conv.rules t)

def Converter.run (conv : Converter) (t : Text) : Job Text := mapText conv.table (applyRules conv.rules t)

def converter (rules : Rules) : Job Converter := do return ⟨rules, ← loadTable (← get).glyphTable⟩

/-- The code page encoding of a text. Characters that the code page lacks are left out and logged.
-/
def encodeLogging (t : Text) : Job Bytes := do
  logChars (inAscendingOrder (t.filter fun c => (Cp932.encodeChar? c).isNone))
  return Cp932.encodeLossy t

end Glyph

end Localizer
