import Localizer.Proofs.Script.Assembly

/-!
# Sections of a listing

The reader collects the lines of all sections in one pass. The lines of one section are what a
simple recursion over the lines of the listing gives (`linesOf`), with the open section as its only
state. For a listing that is laid out as usual this gives the rows and the lines of code, whatever
strings are listed after them.
-/

namespace Localizer.Script

open List Text Assoc Encoding

variable {unk04 locals params flag0c unk10 : Nat}

variable {l name t : Text} {ls operands : List Text} {op : Opcode} {rs : List Row}

/-! ### The lines of one section -/

/-- The lines of the section `name` from here on, the section `opened` being open. -/
def linesOf (name : Text) : Option Text → List Text → List Text
  | _, [] => []
  | opened, raw :: ls =>
    match sectionName? (raw.dropWhile (· = Utf8.byteOrderMark)) with
    | some other => linesOf name (some other) ls
    | none =>
      if opened = some name then raw.dropWhile (· = Utf8.byteOrderMark) :: linesOf name opened ls
      else linesOf name opened ls

theorem get?_foldl_addLine (name : Text) (ls : List Text) (opened : Option Text)
    (d : List (Text × List Text)) :
    (get? name (ls.foldl addLine (opened, d)).2).getD [] =
      (linesOf name opened ls).reverse ++ (get? name d).getD [] := by
  induction ls generalizing opened d with
  | nil => rfl
  | cons raw ls ih =>
    rw [foldl_cons, addLine, linesOf]
    cases hs : sectionName? (raw.dropWhile (· = Utf8.byteOrderMark)) with
    | some other =>
      rw [ih, getD_get?_insertNew]
    | none =>
      cases opened with
      | none =>
        rw [ih, if_neg (by simp)]
      | some other =>
        rw [ih, getD_get?_modify]
        by_cases ho : other = name
        · simp [ho]
        · simp [ho]

/-- **The lines of a section are found by one pass over the lines of the listing.** -/
theorem sectionLines_sections (t name : Text) :
    sectionLines (sections t) name = linesOf name none (lines t) := by
  have hmap : ∀ (f : Text × List Text → Text × List Text) (d : List (Text × List Text)),
      (∀ e, f e = (e.1, e.2.reverse)) → ((d.map f).lookup name).getD [] = ((get? name d).getD []).reverse := by
    intro f d hf
    rw [← lookup_eq_get?]
    induction d with
    | nil => rfl
    | cons e d ih =>
      rw [map_cons, hf, lookup_cons, lookup_cons]
      by_cases he : name = e.1
      · simp [he]
      · simpa [beq_false_of_ne he] using ih
  rw [sectionLines, sections, hmap _ _ fun _ => rfl, get?_foldl_addLine]
  simp [get?]

theorem listingParts_unifyNewlines (t : Text) : listingParts (unifyNewlines t) = listingParts t := by
  unfold listingParts sections
  rw [lines_unifyNewlines]

/-! ### Listings as they are laid out -/

def PlainLine (l : Text) : Prop := sectionName? l = none ∧ l.head? ≠ some Utf8.byteOrderMark

instance : DecidablePred PlainLine := fun _ => instDecidableAnd

theorem dropWhile_byteOrderMark (h : l.head? ≠ some Utf8.byteOrderMark) :
    l.dropWhile (· = Utf8.byteOrderMark) = l := by
  cases l with
  | nil => rfl
  | cons c l =>
    have hc : c ≠ Utf8.byteOrderMark := fun hc => h (hc ▸ rfl)
    simp [hc]

theorem linesOf_plain (name : Text) (opened : Option Text) (h : ∀ l ∈ ls, PlainLine l)
    (rest : List Text) :
    linesOf name opened (ls ++ rest) =
      (if opened = some name then ls else []) ++ linesOf name opened rest := by
  induction ls with
  | nil => simp
  | cons l ls ih =>
    obtain ⟨hsection, hmark⟩ := h l mem_cons_self
    rw [cons_append, linesOf, dropWhile_byteOrderMark hmark, hsection, ih fun l hl => h l (mem_cons_of_mem _ hl)]
    by_cases ho : opened = some name
    · simp [ho]
    · simp [ho]

def Opens (l name : Text) : Prop := sectionName? l = some name ∧ l.head? ≠ some Utf8.byteOrderMark

theorem linesOf_opens (name : Text) (opened : Option Text) {other : Text} (h : Opens l other)
    (rest : List Text) : linesOf name opened (l :: rest) = linesOf name (some other) rest := by
  rw [linesOf, dropWhile_byteOrderMark h.2, h.1]

theorem opens_of_upper (hmark : (startsWith l "[" && endsWith l "]") = true)
    (hname : trim ((trim l).drop 1).dropLast = name) (hupper : (name.all fun c => c.toNat < 0x61) = true)
    (hhead : l.head? ≠ some Utf8.byteOrderMark) : Opens l name := by
  refine ⟨?_, hhead⟩
  rw [sectionName?, if_pos hmark, hname, upper_eq_self (by simpa using hupper)]

theorem opens_variable : Opens "[VARIABLE]" "VARIABLE" :=
  opens_of_upper (by decide) (by decide) (by decide) (by decide)

theorem opens_code : Opens "[CODE]" "CODE" :=
  opens_of_upper (by decide) (by decide) (by decide) (by decide)

theorem opens_strings1 : Opens "[STRINGS_1]" "STRINGS_1" :=
  opens_of_upper (by decide) (by decide) (by decide) (by decide)

theorem opens_strings2 : Opens "[STRINGS_2]" "STRINGS_2" :=
  opens_of_upper (by decide) (by decide) (by decide) (by decide)

theorem plainLine_nil : PlainLine [] := ⟨by decide, by decide⟩

theorem plainLine_of_head (hbracket : l.head? ≠ some '[')
    (hmark : l.head? ≠ some Utf8.byteOrderMark) : PlainLine l := by
  refine ⟨?_, hmark⟩
  have hstart : startsWith l "[" = false := by
    cases l with
    | nil => rfl
    | cons c l =>
      have hc : c ≠ '[' := fun hc => hbracket (hc ▸ rfl)
      simp [startsWith, isPrefixOf, Ne.symm hc]
  rw [sectionName?, hstart]
  rfl

theorem sectionName?_of_getLast? (h : l.getLast? ≠ some ']') : sectionName? l = none := by
  have hend : endsWith l "]" = false := by
    rw [← Bool.not_eq_true]
    intro hend
    obtain ⟨t, rfl⟩ := isSuffixOf_iff_suffix.mp hend
    exact h getLast?_concat
  rw [sectionName?, hend, Bool.and_false]
  rfl

/-! ### Lines that stand in a listing -/

theorem IsNumber.oneLine (h : IsNumber t) : OneLine t := by
  obtain ⟨width, n, rfl⟩ := h
  exact oneLine_of_not_blank (forall_mem_upperHex (by decide))

/-- A line that is not empty and stays as it is in its section. -/
def ListedLine (l : Text) : Prop := l ≠ [] ∧ OneLine l ∧ PlainLine l

instance : DecidablePred ListedLine := fun _ => instDecidableAnd

theorem listedLine_instructionLine (hop : op ∈ opcodes) (h : ∀ o ∈ operands, OneLine o) :
    ListedLine (instructionLine op.name operands) := by
  obtain ⟨hne, hname⟩ := name_of_mem_opcodes op hop
  have hone : OneLine op.name := oneLine_of_not_blank fun c hc => (hname c hc).1
  obtain ⟨rest, hline, hrest⟩ : ∃ rest, instructionLine op.name operands = op.name ++ rest ∧ OneLine rest := by
    unfold instructionLine
    split
    · exact ⟨[], (append_nil _).symm, nofun⟩
    · exact ⟨" ".toList ++ join ", ".toList operands, append_assoc _ _ _,
        oneLine_append (by decide) (oneLine_join (by decide) h)⟩
  obtain ⟨c, cs, hcs⟩ := exists_cons_of_ne_nil hne
  have hc := hname c (hcs ▸ mem_cons_self)
  have hhead : (instructionLine op.name operands).head? = some c := by rw [hline, hcs]; rfl
  refine ⟨by rw [hline]; simp [hne], by rw [hline]; exact oneLine_append hone hrest, plainLine_of_head ?_ ?_⟩
  · rw [hhead]
    exact fun he => hc.2.1 (Option.some.inj he)
  · rw [hhead]
    exact fun he => hc.2.2 (Option.some.inj he)

theorem Encodes.listedLine {i : Instruction} {bs : Bytes} (h : Encodes i bs) :
    ListedLine (Item.instruction i).line := by
  obtain ⟨b, op, hop, -, hi, -⟩ := h
  rw [line_instruction, hi]
  exact listedLine_instructionLine (mem_of_getElem? hop) fun o ho => (op.payload.isNumber_operands i.payload o ho).oneLine

/-! ### The layout of a listing -/

/-- The lines of a listing: rows, lines of code, and what comes after them. -/
def layout (rows code rest : List Text) : List Text :=
  ("[VARIABLE]" : Text) :: rows ++ [[], "[CODE]"] ++ code ++ rest

theorem lines_layout {rows code rest : List Text} (h : ∀ l ∈ rows ++ (code ++ rest), OneLine l)
    (hlast : ∀ l, (code ++ rest).getLast? = some l → l ≠ []) :
    lines (join "\n" (layout rows code rest)) = layout rows code rest := by
  have hlayout : layout rows code rest =
      ("[VARIABLE]" : Text) :: rows ++ [[]] ++ [("[CODE]" : Text)] ++ (code ++ rest) := by
    simp [layout]
  refine lines_join (fun l hl => ?_) fun l hl => ?_
  · rw [hlayout] at hl
    simp only [mem_append, mem_cons, not_mem_nil, or_false] at hl
    rcases hl with (((rfl | hl) | rfl) | rfl) | hl
    · exact (by decide : OneLine "[VARIABLE]".toList)
    · exact h l (mem_append_left _ hl)
    · exact (by decide : OneLine [])
    · exact (by decide : OneLine "[CODE]".toList)
    · exact h l (mem_append_right _ (mem_append.mpr hl))
  · rw [hlayout, getLast?_append] at hl
    rcases Option.or_eq_some_iff.mp hl with hl | ⟨-, hl⟩
    · exact hlast l hl
    · rw [getLast?_append] at hl
      cases hl
      decide

section

variable {rows code rest : List Text} (hrows : ∀ l ∈ rows, PlainLine l) (hcode : ∀ l ∈ code, PlainLine l)
include hrows hcode

theorem linesOf_layout (name : Text) : linesOf name none (layout rows code rest) =
    (if ("VARIABLE" : Text) = name then rows ++ [[]] else []) ++ (if ("CODE" : Text) = name then code else []) ++
      linesOf name (some "CODE") rest := by
  have hnil : ∀ l ∈ ([[]] : List Text), PlainLine l := fun l hl => mem_singleton.mp hl ▸ plainLine_nil
  have hlayout : layout rows code rest =
      ("[VARIABLE]" : Text) :: (rows ++ ([[]] ++ (("[CODE]" : Text) :: (code ++ rest)))) := by
    simp [layout]
  rw [hlayout, linesOf_opens _ _ opens_variable, linesOf_plain _ _ hrows, linesOf_plain _ _ hnil,
    linesOf_opens _ _ opens_code, linesOf_plain _ _ hcode]
  simp only [Option.some.injEq, ← append_assoc]
  split <;> simp

theorem listingParts_layout (hlines : lines t = layout rows code rest)
    (hread : readRows (rows ++ [[]]) = .ok rs)
    (hvariable : linesOf "VARIABLE" (some "CODE") rest = [])
    (hblank : readCodeLines opcodes (linesOf "CODE" (some "CODE") rest) = []) :
    listingParts t = assembleParts rs (readCodeLines opcodes code) := by
  have hv : sectionLines (sections t) "VARIABLE" = rows ++ [[]] := by
    rw [sectionLines_sections, hlines, linesOf_layout hrows hcode, hvariable, if_pos rfl, if_neg (by decide)]
    simp
  have hc : sectionLines (sections t) "CODE" = code ++ linesOf "CODE" (some "CODE") rest := by
    rw [sectionLines_sections, hlines, linesOf_layout hrows hcode, if_neg (by decide), if_pos rfl, nil_append]
  rw [listingParts_eq (by rw [hv, hread]), hc, readCodeLines, filterMap_append]
  exact congrArg (assembleParts rs) (by rw [← readCodeLines, ← readCodeLines, hblank, append_nil])

end

theorem listingParts_join {rows code : List Text} (hrows : ∀ l ∈ rows, OneLine l ∧ PlainLine l)
    (hcode : ∀ l ∈ code, ListedLine l) (hread : readRows (rows ++ [[]]) = .ok rs) :
    listingParts (join "\n" (layout rows code [])) =
      assembleParts rs (readCodeLines opcodes code) := by
  refine listingParts_layout (fun l hl => (hrows l hl).2) (fun l hl => (hcode l hl).2.2)
    (lines_layout (fun l hl => ?_) fun l hl => ?_) hread rfl rfl
  · rw [append_nil] at hl
    exact (mem_append.mp hl).elim (fun hl => (hrows l hl).1) fun hl => (hcode l hl).2.1
  · rw [append_nil] at hl
    exact (hcode l (mem_of_getLast? hl)).1

/-! ### Rows -/

/-- The row of an entry point with this name and these numbers. -/
def rowLine (name : Text) (unk04 locals params flag0c unk10 : Nat) : Text :=
  join "," [name, hexWord unk04, decimal locals, decimal params, hexWord flag0c, hexWord unk10]

theorem Entry.row_eq (e : Entry) :
    e.row = rowLine (escapeLine e.name) e.unk04 e.locals e.params e.flag0c e.unk10 := rfl

theorem readDecimalField_decimal {n : Nat} (h : n < 0x10000) :
    readDecimalField (decimal n) = .ok (n : Int) := by
  have hlen : (decimal n).length ≤ 5 := Nat.toDigits_length 10 n 5 (by decide) (lt_of_lt_of_le h (by decide))
  rw [readDecimalField, readDecimal?_decimal (le_trans hlen (by decide))]
  rfl

theorem not_blank_decimal (n : Nat) : ∀ c ∈ decimal n, isBlank c = false ∧ c ≠ ',' := by
  intro c hc
  obtain ⟨d, hd, rfl⟩ := mem_toDigits (by omega) hc
  have hall : ∀ d < 10, isBlank (Nat.digitChar d) = false ∧ Nat.digitChar d ≠ ',' := by decide
  exact hall d hd

theorem not_blank_hexWord (n : Int) : ∀ c ∈ hexWord n, isBlank c = false ∧ c ≠ ',' :=
  forall_mem_upperHex (by decide)

theorem exists_rowLine_eq (unk04 locals params flag0c unk10 : Nat) :
    ∃ pre, OneLine pre ∧ ∀ name, rowLine name unk04 locals params flag0c unk10 =
      name ++ ',' :: (pre ++ hexWord unk10) := by
  refine ⟨join "," [hexWord unk04, decimal locals, decimal params, hexWord flag0c] ++ ",", ?_, fun name => ?_⟩
  · refine oneLine_append (oneLine_join (by decide) fun t ht => ?_) (by decide)
    simp only [mem_cons, not_mem_nil, or_false] at ht
    rcases ht with rfl | rfl | rfl | rfl
    · exact (isNumber_hexWord _).oneLine
    · exact oneLine_of_not_blank fun c hc => (not_blank_decimal _ c hc).1
    · exact oneLine_of_not_blank fun c hc => (not_blank_decimal _ c hc).1
    · exact (isNumber_hexWord _).oneLine
  · simp [rowLine, join, intercalate, intersperse]

theorem mem_of_getLast?_rowLine {c : Char}
    (h : (rowLine name unk04 locals params flag0c unk10).getLast? = some c) : c ∈ hexWord unk10 := by
  obtain ⟨pre, -, hpre⟩ := exists_rowLine_eq unk04 locals params flag0c unk10
  have hne : hexWord unk10 ≠ [] := upperHex_ne_nil 8 _
  rw [hpre, ← cons_append, ← append_assoc, getLast?_append_of_ne_nil _ hne] at h
  exact mem_of_getLast? h

theorem rowLine_props (hone : OneLine name) (hmark : name.head? ≠ some Utf8.byteOrderMark) :
    OneLine (rowLine name unk04 locals params flag0c unk10) ∧
      PlainLine (rowLine name unk04 locals params flag0c unk10) := by
  obtain ⟨pre, hpre, hrow⟩ := exists_rowLine_eq unk04 locals params flag0c unk10
  refine ⟨?_, sectionName?_of_getLast? fun hlast => ?_, ?_⟩
  · rw [hrow]
    exact oneLine_append hone (oneLine_append (t := [',']) (by decide)
      (oneLine_append hpre (isNumber_hexWord _).oneLine))
  · exact forall_mem_upperHex (P := fun c => c ≠ ']') (by decide) _ (mem_of_getLast?_rowLine hlast) rfl
  · cases name with
    | nil => exact (by decide : some ',' ≠ some Utf8.byteOrderMark)
    | cons c name => exact hmark

theorem readRow_rowLine (hcomma : ',' ∉ name) (h1 : unk04 < 0x100000000) (h2 : locals < 0x10000)
    (h3 : params < 0x10000) (h4 : flag0c < 0x100000000) (h5 : unk10 < 0x100000000) :
    readRow (rowLine name unk04 locals params flag0c unk10) =
      .ok (some ⟨unescapeLine (trim name), unk04, locals, params, flag0c, unk10⟩) := by
  obtain ⟨pre, -, hpre⟩ := exists_rowLine_eq unk04 locals params flag0c unk10
  have hend : ∀ c, (rowLine (trimStart name) unk04 locals params flag0c unk10).getLast? = some c →
      isBlank c = false := fun c hc => (not_blank_hexWord _ c (mem_of_getLast?_rowLine hc)).1
  -- white space before the name is all that is trimmed from the line
  have htrim : trim (rowLine name unk04 locals params flag0c unk10) =
      rowLine (trimStart name) unk04 locals params flag0c unk10 := by
    rw [trim, hpre name, trimStart_append_cons (by decide), ← hpre, trimEnd_eq_self hend]
  have hstart : ',' ∉ trimStart name := fun hm => hcomma ((dropWhile_suffix _).subset hm)
  have hfields : ∀ t ∈ [trimStart name, hexWord unk04, decimal locals, decimal params, hexWord flag0c], ',' ∉ t := by
    simp only [mem_cons, not_mem_nil, or_false]
    rintro t (rfl | rfl | rfl | rfl | rfl) hm
    · exact hstart hm
    · exact (not_blank_hexWord _ _ hm).2 rfl
    · exact (not_blank_decimal _ _ hm).2 rfl
    · exact (not_blank_decimal _ _ hm).2 rfl
    · exact (not_blank_hexWord _ _ hm).2 rfl
  have hsplit : splitAtMost ',' 5 (rowLine (trimStart name) unk04 locals params flag0c unk10) =
      [trimStart name, hexWord unk04, decimal locals, decimal params, hexWord flag0c, hexWord unk10] :=
    splitAtMost_join hfields
  have hhex : ∀ n : Int, trim (hexWord n) = hexWord n := fun n => trim_upperHex 8 _
  have hdec : ∀ n : Nat, trim (decimal n) = decimal n := fun n =>
    trim_eq_self_of_forall fun c hc => (not_blank_decimal n c hc).1
  rw [readRow, htrim, hsplit]
  simp only [map_cons, map_nil, trim_trimStart, hhex, hdec, readHexToken_hexWord h1, readHexToken_hexWord h4,
    readHexToken_hexWord h5, readDecimalField_decimal h2, readDecimalField_decimal h3, bind, Except.bind, pure,
    Except.pure]

theorem readRows_cons {row : Row} (h : readRow l = .ok (some row))
    (hrs : readRows ls = .ok rs) : readRows (l :: ls) = .ok (row :: rs) := by
  unfold readRows at hrs ⊢
  rw [mapM_cons, h]
  cases hls : ls.mapM readRow with
  | error e =>
    simp [hls] at hrs
  | ok bs =>
    rw [hls] at hrs
    cases hrs
    rfl

theorem readRows_append_nil {R : Text → Row → Prop}
    (h : ∀ l ∈ ls, ∃ row, readRow l = .ok (some row) ∧ R l row) :
    ∃ rs, readRows (ls ++ [[]]) = .ok rs ∧ Forall₂ R ls rs := by
  induction ls with
  | nil => exact ⟨[], rfl, .nil⟩
  | cons l ls ih =>
    obtain ⟨row, hrow, hR⟩ := h l mem_cons_self
    obtain ⟨rs, hrs, hRs⟩ := ih fun l hl => h l (mem_cons_of_mem _ hl)
    exact ⟨row :: rs, readRows_cons hrow hrs, .cons hR hRs⟩

/-! ### The listing of an image -/

theorem disassembleImage_eq {image : Bytes} {h : Header} {items : List Item} {found : Found}
    (hread : readHeader image = .ok h)
    (hitems : toItems argumentTable (.ofRegion (h.strings1 image)) (.ofRegion (h.strings2 image))
      ((h.entries image).map fun e => (e.nameOffset : Int)) (disassemble opcodes (h.code image)) = (items, found)) :
    disassembleImage image = .ok (join "\n" (layout ((h.entries image).map Entry.row) (items.map Item.line)
      (leftoverLines "[STRINGS_1]" found.used1 (.ofRegion (h.strings1 image)) ++
        leftoverLines "[STRINGS_2]" found.used2 (.ofRegion (h.strings2 image)))), found.warnings.reverse) := by
  simp only [disassembleImage, hread, bind, Except.bind, hitems, pure, Except.pure, layout, append_assoc]

/-! ## Listings that differ in texts

Two listings that are line by line the same, but for texts of the code section that stand in the
place of texts (`Retexted`), are assembled into code of the same layout. Their pools differ, and
with them the offsets of strings; all other bytes of the code are the same. The argument goes line
by line: both listings have the same rows and the same instructions, and the code of an instruction
depends on the pools only where it refers to a name. -/

open Word

variable {opened : Option Text} {ls' : List Text} {code code' word : Bytes}
  {place place1 place2 place1' place2' : Text → Nat → Prop} {ps : Parts} (name : Text)

/-! ### Lines in the place of lines -/

/-- A line without the byte order marks that it begins with. -/
def unmarked (l : Text) : Text := l.dropWhile (· = Encoding.Utf8.byteOrderMark)

def openAfter (opened : Option Text) (l : Text) : Option Text := (sectionName? (unmarked l)).or opened

theorem openAfter_of_plain (opened : Option Text) (h : sectionName? (unmarked l) = none) :
    openAfter opened l = opened := by
  rw [openAfter, h, Option.none_or]

theorem openAfter_of_opens (opened : Option Text) {name : Text} (h : Opens l name) :
    openAfter opened l = some name := by
  rw [openAfter, unmarked, dropWhile_byteOrderMark h.2, h.1, Option.some_or]

/-- A line that is assembled as a text, if it stands in the code section. -/
def ReadAsText (l : Text) : Prop := ∃ t, readCodeLine opcodes (unmarked l) = some (.text t)

/-- The line `l'` may stand in the place of `l` while the section `opened` is open. -/
structure Replaceable (opened : Option Text) (l l' : Text) : Prop where
  plain : sectionName? (unmarked l) = none
  plain' : sectionName? (unmarked l') = none
  not_row : opened ≠ some ("VARIABLE" : Text)
  /-- In the code section a text stands in the place of a text. -/
  texts : opened = some ("CODE" : Text) → ReadAsText l ∧ ReadAsText l'

/-- Lines of two listings of which the second has lines in the place of lines of the first. -/
inductive Retexted : Option Text → List Text → List Text → Prop
  | nil {opened : Option Text} : Retexted opened [] []
  | same {opened : Option Text} {l : Text} {ls ls' : List Text} : Retexted (openAfter opened l) ls ls' →
    Retexted opened (l :: ls) (l :: ls')
  | replaced {opened : Option Text} {l l' : Text} {ls ls' : List Text} : Replaceable opened l l' →
    Retexted opened ls ls' → Retexted opened (l :: ls) (l' :: ls')

theorem linesOf_cons (opened : Option Text) (l : Text) (ls : List Text) :
    linesOf name opened (l :: ls) =
      (if sectionName? (unmarked l) = none ∧ opened = some name then [unmarked l] else []) ++
        linesOf name (openAfter opened l) ls := by
  rw [linesOf, openAfter, ← unmarked]
  cases sectionName? (unmarked l) with
  | some other => rfl
  | none => by_cases ho : opened = some name <;> simp [ho]

theorem linesOf_cons_plain (opened : Option Text) (ls : List Text)
    (h : sectionName? (unmarked l) = none) :
    linesOf name opened (l :: ls) =
      (if opened = some name then [unmarked l] else []) ++ linesOf name opened ls := by
  rw [linesOf_cons, openAfter_of_plain opened h]
  simp [h]

theorem Retexted.linesOf_variable (h : Retexted opened ls ls') :
    linesOf "VARIABLE" opened ls' = linesOf "VARIABLE" opened ls := by
  induction h with
  | nil => rfl
  | same _ ih => rw [linesOf_cons, linesOf_cons, ih]
  | replaced hl _ ih =>
    rw [linesOf_cons_plain _ _ _ hl.plain, linesOf_cons_plain _ _ _ hl.plain', if_neg hl.not_row, if_neg hl.not_row, ih]

/-! ### Lines of code that are alike -/

/-- Lines of code that are the same, or both texts. -/
inductive Alike : CodeLine → CodeLine → Prop
  | same (l : CodeLine) : Alike l l
  | texts (t t' : Text) : Alike (.text t) (.text t')

theorem Retexted.readCodeLines (h : Retexted opened ls ls') :
    List.Forall₂ Alike (readCodeLines opcodes (linesOf "CODE" opened ls))
      (readCodeLines opcodes (linesOf "CODE" opened ls')) := by
  induction h with
  | nil => exact .nil
  | same _ ih =>
    rw [linesOf_cons, linesOf_cons, readCodeLines_append, readCodeLines_append]
    exact List.rel_append (List.forall₂_same.mpr fun l _ => .same l) ih
  | @replaced opened l l' ls ls' hl _ ih =>
    rw [linesOf_cons_plain _ _ _ hl.plain, linesOf_cons_plain _ _ _ hl.plain']
    by_cases ho : opened = some ("CODE" : Text)
    · obtain ⟨⟨t, ht⟩, t', ht'⟩ := hl.texts ho
      rw [if_pos ho, if_pos ho, readCodeLines_append, readCodeLines_append, readCodeLines_singleton ht,
        readCodeLines_singleton ht']
      exact .cons (.texts t t') ih
    · rw [if_neg ho, if_neg ho]
      exact ih

/-! ### The code of lines that are alike -/

/-- Code that one line has with two different pools: only offsets of strings differ. -/
inductive Repooled : CodeLine → Bytes → Bytes → Prop
  | text {t : Text} {word word' : Bytes} : word.length = 4 → word'.length = 4 →
    Repooled (.text t) (0x01 :: word) (0x01 :: word')
  /-- The words of a jump or call between scripts differ only where a name is given. -/
  | names {name a b raw : Text} {more : List Text} {k : UInt8} {p q p' q' tail : Bytes} : namesScript name = true →
    p.length = 4 → q.length = 4 → p'.length = 4 → q'.length = 4 →
    (isHexToken a = true → p' = p) → (isHexToken b = true → q' = q) →
    Repooled (.instruction name (a :: b :: more) raw) (k :: (p ++ q ++ tail)) (k :: (p' ++ q' ++ tail))
  | plain {name raw : Text} {operands : List Text} {code : Bytes} : namesScript name = false →
    Repooled (.instruction name operands raw) code code

theorem Repooled.layout {l : CodeLine} (h : Repooled l code code') :
    code'.length = code.length ∧ code'.head? = code.head? := by
  cases h with
  | text hword hword' => simp [hword, hword']
  | names _ hp hq hp' hq' _ _ => simp [hp, hq, hp', hq']
  | plain _ => exact ⟨rfl, rfl⟩

theorem Stands.length_eq (h : Stands place t word) : word.length = 4 := by
  obtain ⟨n, rfl, -⟩ := h
  exact length_u32 n

theorem Stands.eq_of_isHexToken {place' : Text → Nat → Prop} {word' : Bytes}
    (h : Stands place t word) (h' : Stands place' t word') (ht : isHexToken t = true) :
    word' = word := by
  obtain ⟨n, rfl, hn⟩ := h
  obtain ⟨m, rfl, hm⟩ := h'
  rw [if_pos ht] at hn hm
  rw [Except.ok.inj (hn.symm.trans hm)]

/-- **Lines that are alike have the same code but for the offsets of strings.** -/
theorem Coded.repooled {l l' : CodeLine}
    (halike : Alike l l') (h : Coded place1 place2 l code) (h' : Coded place1' place2' l' code') :
    Repooled l code code' := by
  cases halike with
  | texts t t' =>
    cases h
    cases h'
    exact .text (length_u32 _) (length_u32 _)
  | same =>
    cases h with
    | text _ =>
      cases h'
      exact .text (length_u32 _) (length_u32 _)
    | names hfind hnames hp hq htail =>
      cases h' with
      | plain _ hplain _ => exact absurd (hplain.symm.trans hnames) (by decide)
      | names hfind' _ hp' hq' htail' =>
        rw [hfind] at hfind'
        cases hfind'
        rw [htail.unique htail']
        exact .names hnames hp.length_eq hq.length_eq hp'.length_eq hq'.length_eq (hp.eq_of_isHexToken hp')
          (hq.eq_of_isHexToken hq')
    | plain hfind hplain hpayload =>
      cases h' with
      | names _ hnames _ _ _ => exact absurd (hplain.symm.trans hnames) (by decide)
      | plain hfind' _ hpayload' =>
        rw [hfind] at hfind'
        cases hfind'
        rw [Except.ok.inj ((hpayload' [] []).symm.trans (hpayload [] []))]
        exact .plain hplain

theorem repooled_lines {ls ls' : List CodeLine} {codes codes' : List Bytes}
    (halike : List.Forall₂ Alike ls ls') (h : List.Forall₂ (Coded place1 place2) ls codes)
    (h' : List.Forall₂ (Coded place1' place2') ls' codes') :
    SameLayout codes codes' ∧
      List.Forall₂ (fun l cc => Repooled l cc.1 cc.2) ls (codes.zip codes') := by
  induction halike generalizing codes codes' with
  | nil =>
    cases h
    cases h'
    exact ⟨.nil, .nil⟩
  | cons hl _ ih =>
    cases h with
    | cons hc h =>
      cases h' with
      | cons hc' h' =>
        have hrepooled := hc.repooled hl hc'
        obtain ⟨h₁, h₂⟩ := ih h h'
        exact ⟨.cons hrepooled.layout h₁, .cons hrepooled h₂⟩

/-! ### Listings -/

theorem ne_nil_of_assembleParts {rows : List Row} {code : List CodeLine}
    (h : assembleParts rows code = .ok ps) : rows ≠ [] := by
  rintro rfl
  cases h

theorem readRows_of_listingParts (h : listingParts t = .ok ps) :
    ∃ rows, readRows (sectionLines (sections t) "VARIABLE") = .ok rows := by
  cases hrows : readRows (sectionLines (sections t) "VARIABLE") with
  | ok rows => exact ⟨rows, rfl⟩
  | error e =>
    rw [listingParts, hrows] at h
    cases h

/-- **Listings that differ in texts are assembled into code of the same layout.** -/
theorem listingParts_retexted {t' : Text} (h : Retexted none (lines t) (lines t'))
    (hparts : listingParts t = .ok ps) :
    ∃ ps', listingParts t' = .ok ps' ∧ ps.entryTable.length = ps.entryCount * entrySize ∧
      ps'.entryTable.length = ps'.entryCount * entrySize ∧
      SameLayout ps.code ps'.code ∧
      List.Forall₂ (fun l cc => Repooled l cc.1 cc.2) (readCodeLines opcodes (sectionLines (sections t) "CODE"))
        (ps.code.zip ps'.code) := by
  obtain ⟨rows, hrows⟩ := readRows_of_listingParts hparts
  have hrows' : readRows (sectionLines (sections t') "VARIABLE") = .ok rows := by
    rw [← hrows, sectionLines_sections, sectionLines_sections, h.linesOf_variable]
  have halike : List.Forall₂ Alike (readCodeLines opcodes (sectionLines (sections t) "CODE"))
      (readCodeLines opcodes (sectionLines (sections t') "CODE")) := by
    rw [sectionLines_sections, sectionLines_sections]
    exact h.readCodeLines
  rw [listingParts_eq hrows] at hparts
  rw [listingParts_eq hrows']
  have hne := ne_nil_of_assembleParts hparts
  obtain ⟨_, _, _, pool, codes, hpool, hok, hcoded⟩ := assembleParts_ok hne fun l hl => accepted_of_mem_readCodeLines hl
  obtain ⟨_, _, _, pool', codes', hpool', hok', hcoded'⟩ :=
    assembleParts_ok hne fun l hl => accepted_of_mem_readCodeLines hl
  obtain ⟨hlayout, hrepooled⟩ := repooled_lines halike hcoded hcoded'
  obtain rfl := Except.ok.inj (hok.symm.trans hparts)
  exact ⟨_, hok', length_entryTable hpool.placed.length_eq, length_entryTable hpool'.placed.length_eq, hlayout, hrepooled⟩

end Localizer.Script
