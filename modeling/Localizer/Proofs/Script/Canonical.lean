import Localizer.Proofs.Script.Sections

/-!
# Canonical listings

A listing in the form in which listings are written is what its own image is listed as. Canonical
code is described line by line: instructions that are listed as they are, jumps and calls between
scripts by name, and blocks of texts, each just before the call that takes them. The proof goes
along these lines. It carries the items listed so far, whether a push may come before, and which
strings are in use; in the end all of them are, so that no leftover strings are listed.
-/

namespace Localizer.Script

open List Encoding Text Word

variable {pool1 pool2 : Pool} {operands : List Text} {ts : List Text} {push : Bool}
variable {t name raw a b : Text} {found : Found} {word tail : Bytes} {function : Nat} {ls : List Text}

/-! ### Canonical lines -/

/-- A text that an image keeps: it has no zero character and nothing that the code page lacks. -/
def Survives (t : Text) : Prop := '\x00' ∉ t ∧ Cp932.decodeLossy (Cp932.encodeLossy t) = t

/-- A name as an operand: not empty, without white space around it, without a comma, and not read as
a number. -/
structure IsName (a : Text) : Prop where
  ne_nil : a ≠ []
  trimmed : trim a = a
  no_comma : ',' ∉ a
  not_hex : isHexToken (unescapeLine a) = false
  oneLine : OneLine a
  survives : Survives (unescapeLine a)

/-- A line that stands for its text: it is not empty, has no white space at its end, opens no
section, and is not read as an instruction. -/
structure IsTextLine (t : Text) : Prop where
  ne_nil : t ≠ []
  trimmed : trimEnd t = t
  no_section : sectionName? t = none
  no_instruction : ∀ name operands raw, readCodeLine opcodes t ≠ some (.instruction name operands raw)
  oneLine : OneLine t
  survives : Survives (unescapeLine t)

/-- A row: a name without white space around it and without a comma, and five numbers in range. -/
def IsRow (line : Text) : Prop :=
  ∃ name unk04 locals params flag0c unk10, line = rowLine name unk04 locals params flag0c unk10 ∧
    trim name = name ∧ ',' ∉ name ∧ OneLine name ∧ Survives (unescapeLine name) ∧ unk04 < 0x100000000 ∧
    locals < 0x10000 ∧ params < 0x10000 ∧ flag0c < 0x100000000 ∧ unk10 < 0x100000000

/-- Canonical lines of code; `push` says that a push may come just before them. -/
inductive CanonicalCode : Bool → List Text → Prop
  | nil {push : Bool} : CanonicalCode push []
  | instruction {push : Bool} {i : Instruction} {code : Bytes} {ls : List Text} : Encodes i code → i.IsPlain →
    CanonicalCode (Item.instruction i).isPush ls → CanonicalCode push ((Item.instruction i).line :: ls)
  /-- A jump or call between scripts, by the names of the script and of the entry point. -/
  | names {push : Bool} {name a b : Text} {tail : Bytes} {ls : List Text} :
    Crosses name tail → IsName a → IsName b →
    CanonicalCode false ls →
    CanonicalCode push (instructionLine name (a :: b :: tail.map fun n => hexByte n.toNat) :: ls)
  /-- Texts and the call that takes them: function 0 takes one, functions 1 and 2 take all. -/
  | texts {ts : List Text} {count : UInt8} {function : Nat} {ls : List Text} : ts ≠ [] → (∀ t ∈ ts, IsTextLine t) →
    function ≤ 2 → (function = 0 → ts.length = 1) → CanonicalCode false ls →
    CanonicalCode false (ts ++ instructionLine "CALLB" [hexByte count.toNat, hexWord function] :: ls)

/-- A canonical listing: rows, an empty line between the sections, and canonical code. -/
def CanonicalListing (t : Text) : Prop :=
  ∃ rows code, t = join "\n" (layout rows code []) ∧ rows ≠ [] ∧ (∀ row ∈ rows, IsRow row) ∧ CanonicalCode false code

/-! ### What canonical lines look like to the reader -/

theorem unescapeLine_ne_nil (h : t ≠ []) : unescapeLine t ≠ [] := by
  obtain ⟨c, u, rfl⟩ := exists_cons_of_ne_nil h
  by_cases hc : c = '\\' ∧ u.head? = some 'n'
  · obtain ⟨rfl, hn⟩ := hc
    obtain ⟨v, rfl⟩ := head?_eq_some_iff.mp hn
    rw [unescapeLine_break]
    simp
  · rw [unescapeLine_cons fun hb hn => hc ⟨hb, hn⟩]
    simp

theorem Survives.head?_ne (h : Survives (unescapeLine t)) : t.head? ≠ some Utf8.byteOrderMark := by
  intro hhead
  obtain ⟨u, rfl⟩ := head?_eq_some_iff.mp hhead
  rw [unescapeLine_cons fun hb => absurd hb (by decide)] at h
  have hmem := Cp932.byteOrderMark_not_mem_decodeLossy (Cp932.encodeLossy (Utf8.byteOrderMark :: unescapeLine u))
  rw [h.2] at hmem
  exact hmem mem_cons_self

theorem IsTextLine.readCodeLine (h : IsTextLine t) :
    readCodeLine opcodes t = some (.text (unescapeLine t)) := by
  have hne : t.isEmpty = false := by simpa using h.ne_nil
  have hno := h.no_instruction
  unfold Script.readCodeLine at hno ⊢
  simp only [h.trimmed, hne, Bool.false_eq_true, if_false] at hno ⊢
  split
  · rfl
  · next hfind =>
    simp only [hfind] at hno
    split
    · next hacc => exact absurd (if_pos hacc) (hno _ _ _)
    · rfl

/-! ### Listing a block -/

/-- What listing lines of code adds to what was found: no warning, and the strings of the lines. -/
structure Found.Grows (pool1 pool2 : Pool) (code : List CodeLine) (found found' : Found) : Prop where
  warnings : found'.warnings = found.warnings
  used1 : ∀ n ∈ found.used1, n ∈ found'.used1
  used2 : ∀ n ∈ found.used2, n ∈ found'.used2
  texts : ∀ t ∈ code.filterMap entryOrText?, ∀ n, pool1.Place t n → n ∈ found'.used1
  scripts : ∀ t ∈ code.filterMap scriptName?, ∀ n, pool2.Place t n → n ∈ found'.used2

theorem Found.Grows.refl (found : Found) : found.Grows pool1 pool2 [] found :=
  ⟨rfl, fun _ hn => hn, fun _ hn => hn, nofun, nofun⟩

theorem Found.Grows.trans {code code' : List CodeLine} {f f' f'' : Found}
    (h : f.Grows pool1 pool2 code f') (h' : f'.Grows pool1 pool2 code' f'') :
    f.Grows pool1 pool2 (code ++ code') f'' where
  warnings := h'.warnings.trans h.warnings
  used1 n hn := h'.used1 n (h.used1 n hn)
  used2 n hn := h'.used2 n (h.used2 n hn)
  texts t ht n hn := by
    rw [filterMap_append, mem_append] at ht
    rcases ht with ht | ht
    · exact h'.used1 n (h.texts t ht n hn)
    · exact h'.texts t ht n hn
  scripts t ht n hn := by
    rw [filterMap_append, mem_append] at ht
    rcases ht with ht | ht
    · exact h'.used2 n (h.scripts t ht n hn)
    · exact h'.scripts t ht n hn

section

variable (h : namesScript name = false)
include h

theorem entryOrText?_of_plain : entryOrText? (.instruction name operands raw) = none := by
  match operands with
  | []
  | [_] => rfl
  | _ :: _ :: _ => simp [entryOrText?, h]

theorem scriptName?_of_plain : scriptName? (.instruction name operands raw) = none := by
  match operands with
  | [] => rfl
  | _ :: _ => simp [scriptName?, h]

theorem no_text_of_plain : ¬ (entryOrText? (.instruction name operands raw) = some t ∨
      scriptName? (.instruction name operands raw) = some t) := by
  rw [entryOrText?_of_plain h, scriptName?_of_plain h]
  rintro (h | h) <;> cases h

theorem Found.Grows.of_plain : found.Grows pool1 pool2 [.instruction name operands raw] found := by
  refine ⟨rfl, fun _ hn => hn, fun _ hn => hn, ?_, ?_⟩
  · simp [entryOrText?_of_plain h]
  · simp [scriptName?_of_plain h]

end

theorem Found.Grows.of_names {more : List Text} {n1 n2 stop1 stop2 : Nat}
    {t1 t2 : Text} (h1 : pool1.Place b n1) (h2 : pool2.Place a n2) :
    found.Grows pool1 pool2 [.instruction name (a :: b :: more) raw]
      ((found.use2 (some ⟨n2, stop2, t2⟩)).use1 (some ⟨n1, stop1, t1⟩)) := by
  refine ⟨rfl, fun _ hn => mem_cons_of_mem _ hn, fun _ hn => mem_cons_of_mem _ hn, fun t ht n hn => ?_,
    fun t ht n hn => ?_⟩
  · obtain ⟨l, hl, ht⟩ := mem_filterMap.mp ht
    rw [mem_singleton.mp hl, entryOrText?, Option.ite_none_right_eq_some] at ht
    cases ht.2
    cases h1.symm.trans hn
    exact mem_cons_self
  · obtain ⟨l, hl, ht⟩ := mem_filterMap.mp ht
    rw [mem_singleton.mp hl, scriptName?, Option.ite_none_right_eq_some] at ht
    cases ht.2
    cases h2.symm.trans hn
    exact mem_cons_self

theorem Found.Grows.of_texts {ns : List Nat}
    (h : ∀ t ∈ ts, ∀ n, pool1.Place (unescapeLine t) n → n ∈ ns) :
    found.Grows pool1 pool2 (ts.map fun t => .text (unescapeLine t))
      { found with used1 := ns.reverse ++ found.used1 } := by
  refine ⟨rfl, fun _ hn => mem_append_right _ hn, fun _ hn => hn, fun t ht n hn => ?_, fun t ht => ?_⟩
  · obtain ⟨l, hl, ht⟩ := mem_filterMap.mp ht
    obtain ⟨u, hu, rfl⟩ := mem_map.mp hl
    cases ht
    exact mem_append_left _ (mem_reverse.mpr (h u hu n hn))
  · obtain ⟨l, hl, ht⟩ := mem_filterMap.mp ht
    obtain ⟨u, -, rfl⟩ := mem_map.mp hl
    cases ht

def NoPush (before : List Item) : Prop := ∀ it, before.head? = some it → it.isPush = false

section

variable (strings1 strings2 : StringIndex) (pool1 pool2 : Pool)

/-- The instructions are listed as the lines, after the items that come before; `push` says that the
last of them may be a push. -/
def Listed (push : Bool) (is : List Instruction) (ls : List Text) (before : List Item)
    (found : Found) : Prop :=
  ∃ (items : List Item) (found' : Found), is.foldl (replaceOffsets argumentTable strings1 strings2) (before, found) =
      (items.reverse ++ before, found') ∧
    items.map Item.line = ls ∧ (push = false → NoPush (items.reverse ++ before)) ∧
    found.Grows pool1 pool2 (readCodeLines opcodes ls) found'

/-- The index of a region finds the texts of a pool at their places. -/
def Resolves (index : StringIndex) (pool : Pool) : Prop :=
  ∀ t n, pool.Place t n → Survives t → t ≠ [] → n < 0x100000000 ∧ ∃ stop, index.resolve? n = some ⟨n, stop, t⟩

/-- The code of the lines is a row of instructions that are listed as the lines; `push` says that a
push may come just before them, and `push'` that the last of them may be one. -/
def ListsAs (push push' : Bool) (ls : List Text) : Prop :=
  ∀ codes, Forall₂ (Coded pool1.Place pool2.Place) (readCodeLines opcodes ls) codes →
    ∃ is, Forall₂ Encodes is codes ∧
      ∀ before found, (push = false → NoPush before) →
        Listed strings1 strings2 pool1 pool2 push' is ls before found

variable {strings1 strings2 pool1 pool2}

theorem noPush_cons {it : Item} {before : List Item} (h : it.isPush = false) :
    NoPush (it :: before) :=
  fun _ hit => Option.some.inj hit ▸ h

theorem listsAs_instruction {i : Instruction} {code : Bytes} (hcode : Encodes i code) (hplain : i.IsPlain) :
    ListsAs strings1 strings2 pool1 pool2 push (Item.instruction i).isPush [(Item.instruction i).line] := by
  intro codes hcodes
  obtain ⟨raw, hread⟩ := readCodeLine_of_encodes hcode
  rw [readCodeLines_singleton hread] at hcodes
  cases hcodes with
  | cons hcoded hnil =>
    cases hnil
    rw [hcoded.eq_of_encodes hcode hplain.1]
    refine ⟨[i], .cons hcode .nil, fun before found _ => ⟨[.instruction i], found, ?_, rfl, noPush_cons, ?_⟩⟩
    · rw [foldl_cons, replaceOffsets_plain hplain]
      rfl
    · rw [readCodeLines_singleton hread]
      exact .of_plain hplain.1

theorem Resolves.of_stands {index : StringIndex} {pool : Pool} (h : Resolves index pool)
    (ha : IsName a) (hword : Stands pool.Place (unescapeLine a) word) :
    word.length = 4 ∧ ∃ n stop, pool.Place (unescapeLine a) n ∧
      index.resolve? (value word) = some ⟨n, stop, unescapeLine a⟩ := by
  obtain ⟨n, rfl, hn⟩ := hword
  rw [if_neg (by simp [ha.not_hex])] at hn
  obtain ⟨hlt, stop, hstop⟩ := h _ n hn ha.survives (unescapeLine_ne_nil ha.ne_nil)
  refine ⟨length_u32 n, n, stop, hn, ?_⟩
  rw [value_u32_of_lt hlt, hstop]

theorem IsName.isOperand (h : IsName a) : IsOperand a := ⟨h.trimmed.symm ▸ h.ne_nil, h.no_comma⟩

theorem readCodeLine_names (hname : Crosses name tail) (ha : IsName a) (hb : IsName b) :
    ∃ raw, readCodeLine opcodes (instructionLine name (a :: b :: tail.map fun n => hexByte n.toNat)) =
      some (.instruction name (unescapeLine a :: unescapeLine b :: tail.map fun n => hexByte n.toNat) raw) := by
  have h := readCodeLine_crosses hname ha.isOperand hb.isOperand
  rwa [ha.trimmed, hb.trimmed] at h

theorem listsAs_names (hname : Crosses name tail) (ha : IsName a) (hb : IsName b)
    (h1 : Resolves strings1 pool1) (h2 : Resolves strings2 pool2) :
    ListsAs strings1 strings2 pool1 pool2 push false
      [instructionLine name (a :: b :: tail.map fun n => hexByte n.toNat)] := by
  intro codes hcodes
  obtain ⟨k, op, hop, hopname, hpayload, hnames, -⟩ := exists_opcode_between hname
  obtain ⟨raw, hread⟩ := readCodeLine_names hname ha hb
  rw [readCodeLines_singleton hread] at hcodes
  cases hcodes with
  | cons hcoded hnil =>
    cases hnil
    cases hcoded with
    | plain _ hplain _ => exact absurd (hplain.symm.trans hnames) (by decide)
    | @names _ _ _ _ _ k' op' p q tail' hfind _ hp hq htail =>
      rw [← hopname, find?_opcodes hop] at hfind
      cases hfind
      cases (hname.trailer _ _).unique htail
      obtain ⟨hplen, n2, stop2, hn2, hs2⟩ := h2.of_stands ha hp
      obtain ⟨hqlen, n1, stop1, hn1, hs1⟩ := h1.of_stands hb hq
      have hlen : (p ++ q ++ tail).length = 8 + tail.length := by
        rw [length_append, length_append, hplen, hqlen]
      have hcomplete : op.payload.Complete (p ++ q ++ tail) := by
        rwa [hpayload]
      have hbyte : opcodes[(UInt8.ofNat k).toNat]? = some op := by rwa [toNat_ofNat_of_getElem?_opcodes hop]
      refine ⟨[⟨op.name, p ++ q ++ tail, op.payload.operands (p ++ q ++ tail)⟩],
        .cons ⟨UInt8.ofNat k, op, hbyte, hcomplete, rfl, rfl⟩ .nil, fun before found _ => ?_⟩
      obtain ⟨found', hreplace, hfound⟩ := @replaceOffsets_names strings1 strings2 before found
        ⟨op.name, p ++ q ++ tail, op.payload.operands (p ++ q ++ tail)⟩ p q tail ⟨rfl, hplen, hqlen, hopname ▸ hname⟩
      have hfound := hfound (by rw [hs2]; rfl) (by rw [hs1]; rfl)
      rw [hs1, hs2] at hfound
      have hpush : (Item.instruction ⟨op.name, p ++ q ++ tail, namedOperands strings1 strings2 p q tail⟩).isPush =
          false := by
        rw [hopname]
        rcases hname with ⟨rfl, -⟩ | ⟨rfl, -⟩
        · rfl
        · rfl
      refine ⟨[.instruction ⟨op.name, p ++ q ++ tail, namedOperands strings1 strings2 p q tail⟩], found', ?_, ?_,
        fun _ => noPush_cons hpush, ?_⟩
      · rw [foldl_cons, hreplace]
        rfl
      · rw [map_singleton, line_instruction, namedOperands, hs1, hs2, hopname]
        simp only [nameOrOffset, escapeLine_unescapeLine ha.oneLine.lf_not_mem,
          escapeLine_unescapeLine hb.oneLine.lf_not_mem]
      · rw [readCodeLines_singleton hread, hfound]
        exact .of_names hn1 hn2

/-! ### Blocks of texts -/

theorem encodes_pushOf (h : word.length = 4) : Encodes (pushOf word) (0x01 :: word) := by
  match word, h with
  | [a, b, c, d], _ => exact ⟨0x01, ⟨"PUSHI", .bytes 4⟩, by decide, rfl, rfl, rfl⟩

def callOf (count : UInt8) (function : Nat) : Instruction :=
  ⟨"CALLB", u32 function ++ [count], [hexByte count.toNat, hexWord function]⟩

theorem encodes_callOf (count : UInt8) (h : function < 0x100000000) :
    Encodes (callOf count function) (0x29 :: (u32 function ++ [count])) := by
  have hvalue := value_u32_of_lt h
  have hlen := length_u32 function
  unfold callOf
  generalize u32 function = word at hvalue hlen
  subst hvalue
  match word, hlen with
  | [a, b, c, d], _ => exact ⟨0x29, ⟨"CALLB", .bytes 5⟩, by decide, rfl, rfl, rfl⟩

theorem readCodeLines_texts (h : ∀ t ∈ ts, IsTextLine t) :
    readCodeLines opcodes ts = ts.map fun t => .text (unescapeLine t) := by
  rw [readCodeLines, ← filterMap_eq_map]
  exact filterMap_congr fun t ht => (h t ht).readCodeLine

theorem exists_pushes (h1 : Resolves strings1 pool1) {codes : List Bytes} (hts : ∀ t ∈ ts, IsTextLine t)
    (hcodes : Forall₂ (Coded pool1.Place pool2.Place) (ts.map fun t => .text (unescapeLine t)) codes) :
    ∃ ps : List (Bytes × StringItem), codes = ps.map (fun p => 0x01 :: p.1) ∧
      (∀ p ∈ ps, p.1.length = 4 ∧ strings1.resolve? (value p.1) = some p.2) ∧
      ps.map (fun p => escapeLine p.2.text) = ts ∧
      ∀ t ∈ ts, ∀ n, pool1.Place (unescapeLine t) n → n ∈ ps.map fun p => p.2.start := by
  induction ts generalizing codes with
  | nil =>
    cases hcodes
    exact ⟨[], rfl, nofun, rfl, nofun⟩
  | cons t ts ih =>
    have ht := hts t mem_cons_self
    cases hcodes with
    | cons hcoded hrest =>
      obtain ⟨ps, rfl, hps, htexts, hused⟩ := ih (fun t ht => hts t (mem_cons_of_mem _ ht)) hrest
      cases hcoded with
      | @text _ n hn =>
        obtain ⟨hlt, stop, hstop⟩ := h1 _ n hn ht.survives (unescapeLine_ne_nil ht.ne_nil)
        refine ⟨(u32 n, ⟨n, stop, unescapeLine t⟩) :: ps, rfl, ?_, ?_, ?_⟩
        · intro p hp
          rcases mem_cons.mp hp with rfl | hp
          · exact ⟨length_u32 n, by rw [value_u32_of_lt hlt, hstop]⟩
          · exact hps p hp
        · rw [map_cons, htexts, escapeLine_unescapeLine ht.oneLine.lf_not_mem]
        · intro u hu m hm
          rcases mem_cons.mp hu with rfl | hu
          · cases hn.symm.trans hm
            exact mem_cons_self
          · exact mem_cons_of_mem _ (hused u hu m hm)

theorem isPlain_pushOf (word : Bytes) : (pushOf word).IsPlain :=
  ⟨(by decide : namesScript "PUSHI" = false), fun h => absurd h (by decide : ¬ ("PUSHI".toList = "CALLB".toList))⟩

theorem listsAs_texts {count : UInt8} (hts : ∀ t ∈ ts, IsTextLine t) (hf : function ≤ 2)
    (hone : function = 0 → ts.length = 1) (h1 : Resolves strings1 pool1) :
    ListsAs strings1 strings2 pool1 pool2 false false (ts ++ [(Item.instruction (callOf count function)).line]) := by
  intro codes hcodes
  have hcall := encodes_callOf count (by omega : function < 0x100000000)
  obtain ⟨raw, hread⟩ := readCodeLine_of_encodes hcall
  have hlines : readCodeLines opcodes (ts ++ [(Item.instruction (callOf count function)).line]) =
      (ts.map fun t => CodeLine.text (unescapeLine t)) ++
        [.instruction (callOf count function).name (callOf count function).operands raw] := by
    rw [readCodeLines_append, readCodeLines_texts hts, readCodeLines_singleton hread]
  rw [hlines] at hcodes
  obtain ⟨codes₁, codes₂, rfl, hcodes₁, hcodes₂⟩ := forall₂_append_left hcodes
  obtain ⟨ps, rfl, hps, htexts, hused⟩ := exists_pushes h1 hts hcodes₁
  cases hcodes₂ with
  | cons hcoded hnil =>
    cases hnil
    have hplain : namesScript "CALLB" = false := by decide
    rw [hcoded.eq_of_encodes hcall hplain]
    have hlen : ps.length = ts.length := by rw [← htexts, length_map]
    have hfunction : value ((callOf count function).payload.take 4) = function := by
      rw [callOf, take_left' (length_u32 _), value_u32_of_lt (by omega)]
    refine ⟨ps.map (fun p => pushOf p.1) ++ [callOf count function], ?_, fun before found hbefore => ?_⟩
    · refine rel_append ?_ (.cons hcall .nil)
      rw [forall₂_map_left_iff, forall₂_map_right_iff, forall₂_same]
      exact fun p hp => encodes_pushOf (hps p hp).1
    · refine ⟨pushedTexts ps ++ [.instruction (callOf count function)],
        { found with used1 := (ps.map fun p => p.2.start).reverse ++ found.used1 }, ?_, ?_, fun _ => ?_, ?_⟩
      · have hpushes : ∀ i ∈ ps.map (fun p => pushOf p.1), i.IsPlain := fun i hi => by
          obtain ⟨p, -, rfl⟩ := mem_map.mp hi
          exact isPlain_pushOf p.1
        rw [foldl_append, foldl_replaceOffsets_plain hpushes, map_map, foldl_cons, foldl_nil]
        have := @replaceOffsets_texts strings1 strings2 before found (callOf count function) ps rfl
          (by simp [callOf]) (by rw [hfunction]; exact hf) (by rw [hfunction, hlen]; exact hone) hps (hbefore rfl)
        rw [pushes] at this
        rw [reverse_append]
        exact this
      · rw [map_append, pushedTexts, map_map]
        exact congrArg (· ++ _) htexts
      · rw [reverse_append]
        exact noPush_cons rfl
      · rw [hlines]
        exact (Found.Grows.of_texts hused).trans (.of_plain hplain)

/-! ### Listing all lines -/

theorem listsAs_nil (push : Bool) : ListsAs strings1 strings2 pool1 pool2 push push [] := by
  intro codes hcodes
  cases hcodes
  exact ⟨[], .nil, fun before found hbefore => ⟨[], found, rfl, rfl, hbefore, .refl found⟩⟩

theorem ListsAs.append {push push' push'' : Bool} {ms : List Text}
    (h : ListsAs strings1 strings2 pool1 pool2 push push' ls)
    (h' : ListsAs strings1 strings2 pool1 pool2 push' push'' ms) :
    ListsAs strings1 strings2 pool1 pool2 push push'' (ls ++ ms) := by
  intro codes hcodes
  rw [readCodeLines_append] at hcodes
  obtain ⟨codes₁, codes₂, rfl, hcodes₁, hcodes₂⟩ := forall₂_append_left hcodes
  obtain ⟨is, his, hlisted⟩ := h codes₁ hcodes₁
  obtain ⟨js, hjs, hlisted'⟩ := h' codes₂ hcodes₂
  refine ⟨is ++ js, rel_append his hjs, fun before found hbefore => ?_⟩
  obtain ⟨items, found₁, hfold, hline, hpush, hgrows⟩ := hlisted before found hbefore
  obtain ⟨items', found₂, hfold', hline', hpush', hgrows'⟩ := hlisted' (items.reverse ++ before) found₁ hpush
  refine ⟨items ++ items', found₂, ?_, ?_, ?_, ?_⟩
  · rw [foldl_append, hfold, hfold', reverse_append, append_assoc]
  · rw [map_append, hline, hline']
  · rwa [reverse_append, append_assoc]
  · rw [readCodeLines_append]
    exact hgrows.trans hgrows'

/-- **Canonical code is listed as it stands.** -/
theorem CanonicalCode.listsAs (h : CanonicalCode push ls) (h1 : Resolves strings1 pool1)
    (h2 : Resolves strings2 pool2) :
    ∃ push', ListsAs strings1 strings2 pool1 pool2 push push' ls := by
  induction h with
  | @nil push => exact ⟨push, listsAs_nil push⟩
  | instruction hcode hplain _ ih =>
    obtain ⟨push', hrest⟩ := ih
    exact ⟨push', (listsAs_instruction hcode hplain).append hrest⟩
  | names hname ha hb _ ih =>
    obtain ⟨push', hrest⟩ := ih
    exact ⟨push', (listsAs_names hname ha hb h1 h2).append hrest⟩
  | texts _ hts hf hone _ ih =>
    obtain ⟨push', hrest⟩ := ih
    rw [append_cons]
    exact ⟨push', (listsAs_texts hts hf hone h1).append hrest⟩

end

/-! ### What canonical code is made of -/

theorem Crosses.listedLine (h : Crosses name tail) (ha : OneLine a) (hb : OneLine b) :
    ListedLine (instructionLine name (a :: b :: tail.map fun n => hexByte n.toNat)) := by
  obtain ⟨k, op, hop, rfl, -⟩ := exists_opcode_between h
  refine listedLine_instructionLine (mem_of_getElem? hop) fun o ho => ?_
  simp only [mem_cons, mem_map] at ho
  rcases ho with rfl | rfl | ⟨n, -, rfl⟩
  · exact ha
  · exact hb
  · exact (isNumber_hexByte _).oneLine

/-- Canonical lines are lines of their own, not empty, and stay as they are in their section. -/
theorem CanonicalCode.lines (h : CanonicalCode push ls) : ∀ l ∈ ls, ListedLine l := by
  induction h with
  | nil => exact nofun
  | instruction hcode _ _ ih => exact forall_mem_cons.mpr ⟨hcode.listedLine, ih⟩
  | names hname ha hb _ ih => exact forall_mem_cons.mpr ⟨hname.listedLine ha.oneLine hb.oneLine, ih⟩
  | @texts ts count function ls _ hts hf _ _ ih =>
    refine forall_mem_append.mpr ⟨fun t ht => ?_, forall_mem_cons.mpr ⟨(encodes_callOf count (by omega)).listedLine, ih⟩⟩
    have ht := hts t ht
    exact ⟨ht.ne_nil, ht.oneLine, ht.no_section, ht.survives.head?_ne⟩

theorem CanonicalCode.survives (h : CanonicalCode push ls) :
    ∀ c ∈ readCodeLines opcodes ls, ∀ t, entryOrText? c = some t ∨ scriptName? c = some t →
      Survives t := by
  induction h with
  | nil => exact nofun
  | @instruction _ i code ls hcode hplain _ ih =>
    obtain ⟨raw, hread⟩ := readCodeLine_of_encodes hcode
    rw [readCodeLines_cons hread]
    exact forall_mem_cons.mpr ⟨fun t ht => absurd ht (no_text_of_plain hplain.1), ih⟩
  | @names _ name a b tail ls hname ha hb _ ih =>
    obtain ⟨raw, hread⟩ := readCodeLine_names hname ha hb
    rw [readCodeLines_cons hread]
    refine forall_mem_cons.mpr ⟨fun t ht => ?_, ih⟩
    rw [entryOrText?, scriptName?, Option.ite_none_right_eq_some, Option.ite_none_right_eq_some] at ht
    rcases ht with ⟨-, ⟨⟩⟩ | ⟨-, ⟨⟩⟩
    · exact hb.survives
    · exact ha.survives
  | @texts ts count function ls _ hts hf _ _ ih =>
    obtain ⟨raw, hread⟩ := readCodeLine_of_encodes (encodes_callOf count (by omega : function < 0x100000000))
    have hplain : namesScript "CALLB" = false := by decide
    rw [readCodeLines_append, readCodeLines_texts hts]
    refine forall_mem_append.mpr ⟨fun c hc t ht => ?_, readCodeLines_cons hread ls ▸
      forall_mem_cons.mpr ⟨fun t ht => absurd ht (no_text_of_plain hplain), ih⟩⟩
    obtain ⟨u, hu, rfl⟩ := mem_map.mp hc
    rcases ht with ht | ht <;> cases ht
    exact (hts u hu).survives

end Localizer.Script
