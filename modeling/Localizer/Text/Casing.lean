import Localizer.Text.CharSet

/-!
# Upper and lower case

The case mappings of Unicode. Most of them move a run of consecutive or alternating code points by
a fixed distance; a few characters become more than one character. A capital sigma at the end of a
word has a lower case of its own.
-/

namespace Localizer.Text

/-- A run of code points that a case mapping moves by one distance. -/
structure CaseRun where
  first : Nat
  last : Nat
  /-- The step from one member of the run to the next. -/
  step : Nat
  /-- The distance to the other case. -/
  shift : Int
  /-- What follows the character in the other case, if that is more than one character. -/
  tail : Text

def CaseRun.contains (r : CaseRun) (n : Nat) : Bool := r.first ≤ n && n ≤ r.last && (n - r.first) % r.step == 0

structure CaseMap where
  runs : Array CaseRun

namespace CaseMap

/-- The runs that items spell, each seen from the end of the run before, which is `last`. An item is
`gap-extent+shift` (each code point) or `gap/extent+shift` (every other one), in hexadecimal, with
the codes of the tail behind it after colons. -/
def runsFrom (last : Nat) : List Text → List CaseRun
  | [] => []
  | item :: items =>
    let (reach, move) := (splitOnce? '+' item).getD (item, [])
    let step := if reach.contains '/' then 2 else 1
    let (gap, extent) := (splitOnce? (if step = 2 then '/' else '-') reach).getD (reach, [])
    let first := last + hexNumber gap
    let last := first + hexNumber extent
    let shift := upTo ':' move
    { first, last, step
      shift := if shift.head? = some '-' then -(hexNumber shift.tail : Int) else hexNumber shift
      tail := (splitOn ':' move).tail.map fun d => Char.ofNat (hexNumber d) } :: runsFrom last items

def ofNotation (s : String) : CaseMap := ⟨(runsFrom 0 (words s.toList)).toArray⟩

def apply (m : CaseMap) (c : Char) : Text :=
  match m.runs.find? (·.contains c.toNat) with
  | some r => Char.ofNat (c.toNat + r.shift).toNat :: r.tail
  | none => [c]

end CaseMap

def lowerCase : CaseMap := .ofNotation
  "41-19+20 66-16+20 2-6+20 22/2E+1 2+-C7:307 2/4+1 3/E+1 3/2C+1 2+-79 1/4+1 4+D2 1/2+1 2+CE 1+1
   2-1+CD 1+1 3+4F 1+CA 1+CB 1+1 2+CD 1+CF 2+D3 1+D1 1+1 4+D3 1+D5 2+D6 1/4+1 2+DA 1+1 2+DA 3+1 2+DA
   1+1 2-1+D9 1/2+1 2+DB 1+1 4+1 8+2 1+1 2+2 1+1 2+2 1/10+1 3/10+1 3+2 1/2+1 2+-61 1+-38 1/26+1
   2+-82 2/10+1 8+2A2B 1+1 2+-A3 1+2A28 3+1 2+-C3 1+45 1+47 1/8+1 122/2+1 4+1 9+74 7+26 2-2+25 2+40
   2-1+3F 2-10+20 2-8+20 24+8 9/16+1 6+-3C 3+1 2+-7 1+1 3-2+-82 1-F+50 1-1F+20 31/20+1 A/34+1 2+F
   1/C+1 3/5E+1 3-25+30 B4A-25+1C60 2+1C60 6+1C60 2D3-4F+97D0 1-5+8 89B-2A+-BC0 3-2+-BC0 141/94+1
   A+-1DBF 2/5E+1 A-7+-8 9-5+-8 B-7+-8 9-7+-8 9-5+-8 C/6+-8 9-7+-8 19-7+-8 9-7+-8 9-7+-8 9-1+-8
   1-1+-4A 1+-9 C-3+-56 1+-9 C-1+-8 1-1+-64 D-1+-8 1-1+-70 1+-7 C-1+-80 1-1+-7E 1+-9 12A+-1D5D
   4+-20BF 1+-2046 7+1C 2E-F+10 14+1 333-19+1A 731-2F+30 31+1 2+-29F7 1+-EE6 1+-29E7 3/4+1 2+-2A1C
   1+-29FD 1+-2A1F 1+-2A1E 2+1 3+1 9-1+-2A3F 1/62+1 9/2+1 5+1 794E/2C+1 14/1A+1 88/C+1 4/3C+1 B/2+1
   2+-8A04 1/8+1 5+1 2+-A528 3/2+1 4/12+1 2+-A544 1+-A54F 1+-A54B 1+-A541 1+-A544 2+-A512 1+-A52A
   1+-A515 1+3A0 1/E+1 2+-30 1+-A543 1+-8A38 1/2+1 7+1 6/2+1 1D+1 572C-19+20 4C6-27+28 89-23+28
   9D-A+27 2-E+27 2-6+27 2-1+27 6EB-32+40 BEE-1F+20 5581-1F+20 7AA1-21+22"

def upperCase : CaseMap := .ofNotation
  "61-19+-20 3B+2E7 2A+-8C:53 1-16+-20 2-6+-20 1+79 2/2E+-1 2+-E8 2/4+-1 3/E+-1 1+173:4E 2/2C+-1
   3/4+-1 1+-12C 1+C3 3/2+-1 3+-1 4+-1 6+-1 3+61 4+-1 1+A3 4+82 3/4+-1 3+-1 5+-1 3+-1 4/2+-1 3+-1
   4+-1 2+38 6+-1 1+-2 2+-1 1+-2 2+-1 1+-2 2/E+-1 1+-4F 2/10+-1 1+-1A6:30C 2+-1 1+-2 2+-1 4/26+-1
   4/10+-1 9+-1 3-1+2A3F 2+-1 5/8+-1 1+2A1F 1+2A1C 1+2A1E 1+-D2 1+-CE 2-1+-CD 2+-CA 2+-CB 1+A54F
   4+-CD 1+A54B 2+-CF 2+A528 1+A544 2+-D1 1+-D3 1+A544 1+29F7 1+A541 3+-D3 2+29FD 1+-D5 3+-D6 8+29E7
   3+-DA 2+A543 1+-DA 4+A52A 1+-DA 1+-45 1-1+-D9 1+-47 6+-DB B+A515 1+A512 A7+54 2C/2+-1 4+-1 4-2+82
   13+9:308:301 1C+-26 1-2+-25 1+-B:308:301 1-10+-20 1+-1F 1-8+-20 1+-40 1-1+-3F 2+-3E 1+-39 4+-2F
   1+-36 1+-8 2/16+-1 1+-56 1+-50 1+7 1+-74 2+-60 3+-1 3+-1 35-1F+-20 1-F+-50 2/20+-1 A/34+-1 3/C+-1
   1+-F 2/5E+-1 32-25+-30 1+-52:552 B49-2A+BC0 3-2+BC0 2F9-5+-8 883+-186E 1+-186D 1+-1864 1-1+-1862
   1+-1863 1+-185C 1+-1825 1+89C2 F1+8A04 4+EE6 11+8A38 73/94+-1 1+-1E4E:331 1+-1E43:308 1+-1E41:30A
   1+-1E40:30A 1+-1E59:2BE 1+-3B 6/5E+-1 1-7+8 9-5+8 B-7+8 9-7+8 9-5+8 B+-1BAB:313 1+8
   1+-1BAD:313:300 1+8 1+-1BAF:313:301 1+8 1+-1BB1:313:342 1+8 9-7+8 9-1+4A 1-3+56 1-1+64 1-1+80
   1-1+70 1-1+7E 3-7+-78:399 1-7+-80:399 1-7+-68:399 1-7+-70:399 1-7+-38:399 1-7+-40:399 1-1+8
   1+8:399 1+-1C22:399 1+-1C2E:399 2+-1C25:342 1+-1C26:342:399 5+-1C2B:399 2+-1C25 4+8:399
   1+-1C2C:399 1+-1C3B:399 2+-1C2F:342 1+-1C30:342:399 5+-1C35:399 4-1+8 1+-1C39:308:300
   1+-1C3A:308:301 3+-1C3D:342 1+-1C3E:308:342 9-1+8 1+-1C3D:308:300 1+-1C3E:308:301 1+-1C43:313 1+7
   1+-1C41:342 1+-1C42:308:342 B+8:399 1+-1C4A:399 1+-1C65:399 2+-1C4D:342 1+-1C4E:342:399
   5+-1C53:399 152+-1C 22-F+-10 5+-1 34C-19+-1A 747-2F+-30 2+-1 4+-2A2B 1+-2A28 2/4+-1 7+-1 3+-1
   B/62+-1 9/2+-1 5+-1 D-25+-1C60 2+-1C60 6+-1C60 7914/2C+-1 14/1A+-1 88/C+-1 4/3C+-1 B/2+-1 3/8+-1
   5+-1 5/2+-1 1+30 3/12+-1 C/E+-1 5/2+-1 7+-1 6/2+-1 1D+-1 35D+-3A0 1D-4F+-97D0 4F41+-FABA:46
   1+-FABB:49 1+-FABC:4C 1+-FABD:46:49 1+-FABE:46:4C 1+-FAB2:54 1+-FAB3:54 D+-F5CF:546 1+-F5D0:535
   1+-F5D1:53B 1+-F5C8:546 1+-F5D3:53D 42A-19+-20 4CE-27+-28 89-23+-28 9C-A+-27 2-E+-27 2-6+-27
   2-1+-27 704-32+-40 BCE-1F+-20 5581-1F+-20 7AA3-21+-22"

def casedLetters : CharSet := .ofNotation
  "41-19 7-19 30 B 5 6-16 2-1E 2-C2 2-3 5-CF 2-1A C1-3 3-1 4-2 2 7 2-2 2 2-13 2-52 2-8A 9-A5 2-25
   A-28 B18-25 2 6 3-2A 3-2 2A1-55 3-5 883-8 8-2A 3-2 41-2B 40-C 2-21 66-115 3-5 3-25 3-5 3-7 2 2 2
   2-1E 3-34 2-6 2 4-2 2-6 4-3 3-5 5-C 6-2 2-6 106 5 3-9 2 4-4 7 2 2 2-3 2-5 5 3-3 6-4 5 12-1F 4-1
   332-33 717-7B 3-66 7-3 4-1 D-25 2 6 7913-2D 13-1B 87-4D 2-16 4-3 2-3A 6-1 2 2-4 1C-1 4 336-2A 6-8
   8-4F 4F41-6 D-4 40A-19 7-19 4A6-4F 61-23 5-23 75-A 2-E 2-6 2-1 2-A 2-E 2-6 2-1 6C4-32 E-32 BAE-3F
   5561-3F 6581-54 2-46 2-1 3 3-1 3-3 2-B 2 2-6 2-40 2-3 3-7 2-6 2-1B 2-3 2-4 2 4-6 2-153 3-18 2-18
   2-1E 2-18 2-1E 2-18 2-1E 2-18 2-1E 2-18 2-7 735-9 2-13 9E2-43 7ED-19 7-19 7-19"

/-- Characters that a word with case runs through: marks, and signs such as the apostrophe. -/
def caseIgnorable : CharSet := .ofNotation
  "27 7 C 24 2 48 5 2 5 3-1 1F8-BF 5-1 5 A-1 2 FC-6 D0 6 32-2C 2 2-1 2-1 2 2D C-5 B-A 2 24 B-14 11
   66-7 2-9 2-3 22 2 1F-1A 5C-A 3B-A 5 3 19-17 2C-2 2D 8-1 7-7 2A-39 38 2 5-7 5 4-6 B-1 E 10 3B 5-3
   9 15-1 1B 3-1 3A 5-1 5-1 3-2 4 1F-1 4 C-1 3A 5-4 2-1 5 15-1 17-5 2 3B 3 2-3 9 8-1 C-1 1F 3E D 33
   4 38 2-2 6-2 2-3 8-1 C-1 1E 3B 3 7 6-1 15-1 1D-1 3A-1 5-3 9 15-1 1E 49 8-2 2 5B 3-6 C-8 63 3-8 A
   2-5 4B-1 1C 2 2 38-D 2-4 2-1 6-A 2-23 A 67-3 2-5 2-1 3-1 1A-1 5-2 11-3 E 3-1 7 10 5F 261-2 3B3-2
   1E-1 1F-1 1F-1 41-1 2-6 9 3-A 4 6 2E-4 34 42-1 23 77-2 5-1 A 7-2 DC-1 3 3B 2-6 2 2 3-7 7-9 3 28
   9-1E 32-3 31 2-4 2 6 29-8 D-1 21-3 3-1 2-2 39 2-1 4 2-2 3B-7 3-1 41-5 53-2 2-C 2-6 5 7 4-1 33-3E
   E 23-64 1BE 2-2 C-2 E-2 E-2 E-1 D-4 9-1 B 3 3-4 32-4 2-9 2 E 11-C 34-20 B8C-1 72-2 7E 10 61-1F 30
   1D6 25-3 4-4 6 5E-5 5E-2 6F17 4E3-5 10F 63-3 2-9 2 1D-3 51-1 F-21 4F 18-2 68-2 4-1 9 4 5 1A-1 6
   98-1 1B-11 E 27-7 1A-A 2F-2 31 3-3 3-1 12 16-1 43-5 3-1 3-1 D 9 24 C 34 2-2 3-1 6-1 2 1C F-1 6-1
   2 65-4 A-2 7A 3 5 4F31 94-10 23E-F 4 D-F 23 3 AA 8 7 C 24 2 30 2E-1 44 16-2 202 E3 96-4 406-5
   2-29 2-8 247-2 2-1 6-3 29-2 5 A6-1 23E-3 184-1 9A-A 32-3 7C 37-E 2A 3-1 B-2 32-3 3-1 3 5 B 33-2
   25-4 2-7 3F D-1 35-8 B-3 3 60-2 3 2-1 7 A1 4-7 16-1 3A-1 4 26-6 4-4 C4-7 3-2 2 18 55-5 2 5-1 2-1
   EF-3 7-1 2-1 1C-1 56-7 3 2-1 6B 2 3-5 2 66-2 3-3 2-4 104-8 2-1 101-1 2 5 91-3 3-1 5 21-9 29-5 3-3
   9 A-5 3-2 2F-C 2-1 197-6 2-5 2 53-15 3-6 2-1 2-1 7B-5 4 2-1 2-6 2 49-1 4 2 15C-1 153C-8 36B8-4
   3C-6 A-3 40C 40-10 41-1 2-1 400C-3 2-6 2-1 C9F-1 2-3 125D-2D 3-16 221-2 A-F 3-6 1F-3 95-2 7BC-36
   5-31 9 F 17-4 2-E 551-6 2-10 3-6 2-1 2-4 106-D 171 3E-3 5E1-6 6E-7 AB0-4 C0C02 1F-5F 81-EF"

/-- Whether the first character of a text that a word does not just run through is a letter with
case. -/
def meetsCased : Text → Bool
  | [] => false
  | c :: t => if caseIgnorable.contains c then meetsCased t else casedLetters.contains c

/-- `t` in lower case, where `before` is what stands before it, from the end to the start. -/
def lowerAfter : Text → Text → Text
  | _, [] => []
  | before, c :: t =>
    (if c = 'Σ' then [if meetsCased before && !meetsCased t then 'ς' else 'σ'] else lowerCase.apply c) ++
      lowerAfter (c :: before) t

def lower (t : Text) : Text := lowerAfter [] t

def upper (t : Text) : Text := t.flatMap upperCase.apply

/-! ## Word characters

The characters that identifiers are made of: letters and digits of every script, and the
underscore. -/

/-- Letters and digits of every script, and the underscore. -/
def wordChars : CharSet := .ofNotation
  "30-9 8-19 5 2-19 30 8-1 2 4-1 2-2 2-16 2-1E 2-1C9 5-B F-4 8 2 82-4 2-1 3-3 2 7 2-2 2 2-13 2-52
   2-8A 9-A5 2-25 3 7-28 48-1A 5-3 2E-2A 16-9 5-1 2-62 2 10-1 8-E 3 11 2-1D 1E-58 C F-2A A-1 5 6-15
   5 A 4 18-18 8-A 6-17 2-5 12-29 3B-35 4 13 8-9 5-9 2-F 5-7 3-1 3-15 2-6 2 4-3 4 11 E-1 2-2 5-B 3-5
   3 9-5 5-1 3-15 2-6 2-1 2-1 2-1 20-3 2 8-9 3-2 11-8 2-2 2-15 2-6 2-1 2-4 4 13 10-1 5-9 A C-7 3-1
   3-15 2-6 2-1 2-4 4 1F-1 2-2 5-9 2-6 C 2-5 4-2 2-3 4-1 2 2-1 4-1 4-2 4-B 17 16-C 13-7 2-2 2-16 2-F
   4 1B-2 3 3-1 5-9 9-6 2 5-7 2-2 2-16 2-9 2-4 4 20-1 2-1 5-9 2-1 12-8 2-2 2-28 3 11 6-2 2-9 5-12
   2-5 6-11 4-17 2-8 2 3-6 20-9 12-2F 2-1 D-6 A-9 28-1 2 2-4 2-17 2 2-9 2-1 A 3-4 2 A-9 3-3 21 20-13
   D-7 2-23 1C-4 74-2A 15-A 7-5 5-3 4 4-1 8-2 5-C D 2-9 7-25 2 6 3-2A 2-14C 2-3 3-6 2 2-3 3-28 2-3
   3-20 2-3 3-6 2 2-3 3-E 2-38 2-3 3-42 F-13 4-F 11-55 3-5 4-26B 3-10 2-19 6-4A 4-A 8-11 E-12 F-11
   F-C 2-2 10-33 24 5 4-9 7-9 17-9 7-58 8-4 3-21 2 6-45 B-1E 28-27 3-4 C-2B 5-19 7-A 26-16 A-34 2C-9
   7-9 E 5E-2E 12-7 4-9 2A-1D E-37 1B-23 1D-9 4-30 3-8 8-2A 3-2 2A-3 2-5 2-1 4 6-BF 41-115 3-5 3-25
   3-5 3-7 2 2 2 2-1E 3-34 2-6 2 4-2 2-6 4-3 3-5 5-C 6-2 2-6 74-1 3-5 6-A 7-C 66 5 3-9 2 4-4 7 2 2
   2-3 2-A 3-3 6-4 5 2-39 2D7-3B 4F-15 277-1D 46D-E4 7-3 4-1 A 3-25 2 6 3-37 8 11-16 A-6 2-6 2-6 2-6
   2-6 2-6 2-6 2-6 51 1D6-2 1A-8 8-4 3-4 5-55 7-2 2-59 2-3 6-2A 2-5D 4-3 B-1F 31-F 21-9 1F-7 2-E
   21-9 28-E 141-19BF 41-568C 44-2D 3-10C 4-1B 15-2E 11-1E 3-4F 28-8 3-66 3-3F 6-1 2 2-4 19-F 2-2
   2-3 2-16 E-5 B-33 F-31 1D-9 19-5 4 2-1 2-25 B-16 1A-1C 8-2E 1D-A 7-4 2-18 2-28 18-2 2-7 5-9 7-16
   4 4-31 2 4-1 3-4 3 2 19-2 3-A 8-2 D-5 3-5 3-5 A-6 2-6 2-2A 2-D 7-72 E-9 7-2BA3 D-16 5-30 2105-16D
   3-69 27-6 D-4 6 2-9 2-C 2-4 2 2-1 2-1 2-6B 22-16A 13-3F 3-35 29-B 75-4 2-86 14-9 8-19 7-19 C-58
   4-5 3-5 3-5 3-2 24-B 2-19 2-12 2-1 2-E 3-D 23-7A D-2C D-38 12-1 F5-1C 4-30 11-1A 5-23 A-1D 6-25
   B-1D 3-23 5-7 2-4 2B-9D 3-9 7-23 5-23 5-27 9-33 D-A 2-E 2-6 2-1 2-A 2-E 2-6 2-1 44-136 A-15 B-7
   19-5 2-29 2-8 46-5 3 2-2B 2-1 4 3-16 3-1E 3-25 9-8 31-12 2-1 6-20 5-19 47-37 5-13 3-2E 10-3 2-2
   2-1C B-8 18-1E 2-1F 21-7 2-1B 7-4 11-35 B-15 3-1A 6-19 18-6 51-48 38-32 E-32 8-29 D-9 127-1E 2-29
   7-1 4F-27 9-15 C-3 1C-11 2F-1B 15-16 D-34 1B-1D 2-1 3 E-2C 21-18 8-9 A-23 10-9 5 3 9-22 4 D-2F
   F-3 C-A 2 5-13 C-11 2-18 55-6 2 2-3 2-E 2-9 8-2E 12-9 C-7 3-1 3-15 2-6 2-1 2-4 4 13 D-4 9F-34
   13-3 6-9 6-2 1F-2F 15-1 2 9-9 A7-2E 2A-3 25-2F 15 C-9 27-2A E 8-9 37-1A 16-B 5-6 BA-2B 75-52 D-7
   3 3-7 2-1 2-17 10 2 F-9 47-7 3-26 11 2 1D B-27 8 16 C-2D 14 13-48 108-8 2-24 12 10-1C 6-1D 71-6
   2-1 2-25 16 A-9 7-5 2-1 2-1F F 8-9 137-12 BE 10-14 2C-399 67-6E 12-C3 A4D-60 10-42E FD2-246
   21BA-238 8-1E 2-9 7-4E 2-9 7-1D 13-2F 11-3 D-9 2-6 2-14 6-12 2B1-56 6A-4A 6 43-C 41-1 2 1D-17F7
   9-4D5 2B-8 22E8-3 2-6 2-1 2-122 2E-2 12-3 9-18B 905-6A 6-C 4-8 8-9 1647-13 6D-18 88-54 2-46 2-1 3
   3-1 3-3 2-B 2 2-6 2-40 2-3 3-7 2-6 2-1B 2-3 2-4 2 4-6 2-153 3-18 2-18 2-1E 2-18 2-1E 2-18 2-1E
   2-18 2-1E 2-18 2-7 3-31 701-1E 1E2-2C B-6 3-9 5 142-1D 13-2B 5-9 4E7-6 2-3 2-1 2-E 2-C4 3-8 31-43
   8 5-9 318-3A 2-2 2-3 4D-2C 2-E C3-3 2-1A 2-1 2 3 2-9 2-3 2 2 7 5 2 2 2-2 2-1 2 3 2 2 2 2 2-1 2
   3-3 2-6 2-3 2-3 2 2-9 2-10 6-2 2-4 2-10 245-C AE4-9 407-A6DF 21-1038 8-DD 3-1681 F-1D30 C20-21D
   5E3-134A"

def isWordChar (c : Char) : Bool := wordChars.contains c

def isBasicLetter (c : Char) : Bool := ('a' ≤ c && c ≤ 'z') || ('A' ≤ c && c ≤ 'Z')

def isBasicDigit (c : Char) : Bool := '0' ≤ c && c ≤ '9'

end Localizer.Text
