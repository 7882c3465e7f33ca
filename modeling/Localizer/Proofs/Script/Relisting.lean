import Localizer.Proofs.Script.RoundTrip

/-!
# Images listed and assembled again

The listing of an image shows each instruction by one item, whatever the pushes before a call are
(`Shows`, kept by every step of replacing offsets). If every line of the listing is read as what it
shows, the listing is assembled into code of the same layout: the same opcodes at the same places,
and the same operands but for the offsets of strings. That a line is read as what it shows has to be
assumed, since a string is listed as a bare line and may look like anything.
-/

namespace Localizer.Script

open List Encoding Text Word Utf8 StringIndex Item

variable {is : List Instruction} {i : Instruction} {code : Bytes} {codes : List Bytes} {strings1 strings2 : StringIndex}

variable {index : StringIndex} {item : Item}
variable {found : Found} {items : List Item} {it : StringItem} {table image : Bytes} {count : Nat} {e : Entry}
  {h : Header}

/-! ### What items show -/

/-- An item shows an instruction: as it is, with names in place of offsets, or as a text. -/
inductive Shows (strings1 strings2 : StringIndex) : Item → Instruction → Prop
  | plain {i : Instruction} : namesScript i.name = false → Shows strings1 strings2 (.instruction i) i
  | names {i : Instruction} {p q tail : Bytes} : Between i.name i.payload p q tail →
    Shows strings1 strings2 (.instruction { i with operands := namedOperands strings1 strings2 p q tail }) i
  | text {i : Instruction} {it : StringItem} : i.name = "PUSHI" → i.payload.length = 4 →
    strings1.resolve? (value i.payload) = some it →
    Shows strings1 strings2 (.text i.payload (escapeLine it.text)) i

theorem forall₂_set {α β : Type} {R : α → β → Prop} {as : List α} {bs : List β}
    (h : Forall₂ R as bs) {k : Nat} {a a' : α} (hk : as[k]? = some a) (ha : ∀ b, R a b → R a' b) :
    Forall₂ R (as.set k a') bs := by
  induction h generalizing k with
  | nil => cases hk
  | cons hab hrest ih =>
    cases k with
    | zero =>
      cases hk
      exact .cons (ha _ hab) hrest
    | succ k => exact .cons hab (ih hk)

section

theorem replaceArgument_shows {call : Instruction} {function : Nat} {args : List Item}
    (h : Forall₂ (Shows strings1 strings2) args is) (position : Ordinal) :
    Forall₂ (Shows strings1 strings2) (replaceArgument strings1 call function (args, found) position).1 is := by
  unfold replaceArgument
  simp only
  split
  · exact h
  split
  · next name payload operands hget =>
    split
    · next hpush =>
      simp only [Bool.and_eq_true, decide_eq_true_eq] at hpush
      split
      · exact h
      · next it hit =>
        refine forall₂_set h hget fun i hi => ?_
        generalize hitem : instruction ⟨name, payload, operands⟩ = item at hi
        cases hi with
        | plain _ =>
          cases hitem
          exact Shows.text (i := ⟨name, payload, operands⟩) hpush.1 hpush.2 hit
        | names hbetween =>
          cases hitem
          rcases hbetween.tail with ⟨hname, -⟩ | ⟨hname, -⟩
          · exact absurd (hname.symm.trans hpush.1) (by decide)
          · exact absurd (hname.symm.trans hpush.1) (by decide)
        | text _ _ _ => cases hitem
    · exact h
  · exact h

theorem foldl_replaceArgument_shows (call : Instruction) (function : Nat) (positions : List Ordinal)
    (args : List Item) (found : Found) (h : Forall₂ (Shows strings1 strings2) args is) :
    Forall₂ (Shows strings1 strings2)
      (positions.foldl (replaceArgument strings1 call function) (args, found)).1 is := by
  induction positions generalizing args found with
  | nil => exact h
  | cons position positions ih => exact ih _ _ (replaceArgument_shows h position)

theorem Encodes.find? (h : Encodes i code) :
    ∃ b op, code = b :: i.payload ∧ opcodes.find? i.name = some (b.toNat, op) := by
  obtain ⟨b, op, hop, -, hi, rfl⟩ := h
  refine ⟨b, op, rfl, ?_⟩
  rw [hi]
  exact find?_opcodes hop

/-- A complete jump or call between scripts has two words and its trailer. -/
theorem Encodes.between (h : Encodes i code) (hnames : namesScript i.name = true) :
    ∃ p q tail, Between i.name i.payload p q tail := by
  obtain ⟨b, op, hop, hcomplete, hi, -⟩ := h
  have hname : i.name = op.name := congrArg Instruction.name hi
  have hsplit : i.payload = i.payload.take 4 ++ (i.payload.drop 4).take 4 ++ i.payload.drop 8 := by
    rw [append_assoc, ← drop_drop (i := 4) (j := 4), take_append_drop, take_append_drop]
  rcases eq_of_namesScript op (mem_of_getElem? hop) (hname ▸ hnames) with rfl | rfl
  · have hlen : i.payload.length = 8 := hcomplete
    exact ⟨_, _, _, hsplit, by simp [hlen], by simp [hlen], .inl ⟨hname, by simp [hlen]⟩⟩
  · have hlen : i.payload.length = 9 := hcomplete
    refine ⟨_, _, _, hsplit, by simp [hlen], by simp [hlen], .inr ⟨hname, ?_⟩⟩
    exact length_eq_one_iff.mp (by simp [hlen])

theorem replaceOffsets_shows {before : List Item} (hcode : Encodes i code)
    (h : Forall₂ (Shows strings1 strings2) before is) :
    Forall₂ (Shows strings1 strings2)
      (replaceOffsets argumentTable strings1 strings2 (before, found) i).1 (i :: is) := by
  cases hnames : namesScript i.name with
  | true =>
    obtain ⟨p, q, tail, hbetween⟩ := hcode.between hnames
    obtain ⟨found', hreplace, -⟩ := @replaceOffsets_names strings1 strings2 before found i p q tail hbetween
    rw [hreplace]
    exact .cons (.names hbetween) h
  | false =>
    have hplain : Forall₂ (Shows strings1 strings2) (.instruction i :: before) (i :: is) := .cons (.plain hnames) h
    have hother := hnames
    simp only [namesScript, Bool.or_eq_false_iff, decide_eq_false_iff_not] at hother
    unfold replaceOffsets
    simp only [hother.1, hother.2, decide_false, Bool.false_and, Bool.false_eq_true, if_false]
    split
    · split
      · exact hplain
      · next positions _ =>
        -- the arguments keep showing what they showed
        obtain ⟨rest, hrest⟩ : ∃ rest, before.takeWhile isPush ++ rest = before := takeWhile_prefix _
        generalize before.takeWhile isPush = args at hrest ⊢
        subst hrest
        obtain ⟨is₁, is₂, rfl, h₁, h₂⟩ := forall₂_append_left h
        have hargs := foldl_replaceArgument_shows i (value (i.payload.take 4))
          (targetPositions positions args.reverse.length) _ found (rel_reverse h₁)
        rw [← forall₂_reverse_iff, reverse_reverse] at hargs
        rw [drop_left' length_reverse.symm]
        exact .cons (.plain hnames) (rel_append hargs h₂)
    · exact hplain

/-- **The items of a listing show the instructions of the code, one each.** -/
theorem toItems_shows {names : List Int} (hcodes : Forall₂ Encodes is codes) :
    Forall₂ (Shows strings1 strings2) (toItems argumentTable strings1 strings2 names is).1 is := by
  have hrun : ∀ (before : List Item) (found : Found) (seen : List Instruction),
      Forall₂ (Shows strings1 strings2) before seen →
      Forall₂ (Shows strings1 strings2)
        (is.foldl (replaceOffsets argumentTable strings1 strings2) (before, found)).1 (is.reverse ++ seen) := by
    induction hcodes with
    | nil => exact fun before found seen h => h
    | cons hcode _ ih =>
      intro before found seen h
      rw [foldl_cons, reverse_cons, append_assoc]
      exact ih _ _ _ (replaceOffsets_shows hcode h)
  have h := hrun [] (names.foldl (fun f o => f.use1 (strings1.resolve? o)) {}) [] .nil
  rwa [append_nil, ← forall₂_reverse_iff, reverse_reverse] at h

end

theorem escapeLine_head? {t : Text} (h : t.head? ≠ some byteOrderMark) :
    (escapeLine t).head? ≠ some byteOrderMark := by
  cases t with
  | nil => exact h
  | cons c t =>
    rw [escapeLine_eq, flatMap_cons]
    split
    · exact (by decide : some '\\' ≠ some byteOrderMark)
    · exact h

/-! ### Lines read again -/

/-- What the code of an instruction becomes when its item is read again: it is the same but for the
offsets of strings, which are those of a push that is listed as a text, and those of a jump or call
between scripts that refer to a name. -/
inductive Relisted (strings1 strings2 : StringIndex) : Item → Bytes → Bytes → Prop
  | plain {i : Instruction} {code : Bytes} : namesScript i.name = false →
    Relisted strings1 strings2 (.instruction i) code code
  | names {i : Instruction} {b : UInt8} {p q p' q' tail : Bytes} : Between i.name i.payload p q tail →
    p'.length = 4 → q'.length = 4 → (strings2.resolve? (value p) = none → p' = p) →
    (strings1.resolve? (value q) = none → q' = q) →
    Relisted strings1 strings2 (.instruction i) (b :: i.payload) (b :: (p' ++ q' ++ tail))
  | text {word word' : Bytes} {t : Text} : word.length = 4 → word'.length = 4 →
    (strings1.resolve? (value word)).isSome →
    Relisted strings1 strings2 (.text word t) (0x01 :: word) (0x01 :: word')

theorem Stands.eq_of_resolve? {place : Text → Nat → Prop} {word word' : Bytes}
    (hword : word.length = 4)
    (h : Stands place (unescapeLine (trim (nameOrOffset (value word) (index.resolve? (value word))))) word') :
    word'.length = 4 ∧ (index.resolve? (value word) = none → word' = word) := by
  obtain ⟨n, rfl, hn⟩ := h
  refine ⟨length_u32 n, fun hnone => ?_⟩
  rw [hnone, nameOrOffset, (isNumber_hexWord _).unescapeLine_trim, if_pos (isNumber_hexWord _).isHexToken,
    readHexToken_hexWord_value hword] at hn
  rw [← Except.ok.inj hn, u32_value hword]

theorem Shows.relisted (h : Shows strings1 strings2 item i) (hcode : Encodes i code)
    (htext : ∀ word t, item = .text word t → ∃ s, readCodeLine opcodes t = some (.text s))
    (hnames : ∀ j, item = .instruction j → namesScript j.name = true → ∀ o ∈ j.operands, IsOperand o) :
    ∃ l, readCodeLine opcodes item.line = some l ∧
      ∀ place1 place2 code', Coded place1 place2 l code' → Relisted strings1 strings2 item code code' := by
  cases h with
  | plain hplain =>
    obtain ⟨raw, hread⟩ := readCodeLine_of_encodes hcode
    refine ⟨_, hread, fun place1 place2 code' hcoded => ?_⟩
    rw [hcoded.eq_of_encodes hcode hplain]
    exact .plain hplain
  | @names _ p q tail hbetween =>
    obtain ⟨k, op, hop, hopname, -, hcross, -⟩ := exists_opcode_between hbetween.tail
    have hoperands := hnames _ rfl hcross
    obtain ⟨raw, hread⟩ := readCodeLine_crosses hbetween.tail (hoperands _ mem_cons_self)
      (hoperands _ (mem_cons_of_mem _ mem_cons_self))
    obtain ⟨b, op', rfl, hb⟩ := hcode.find?
    refine ⟨_, hread, fun place1 place2 code' hcoded => ?_⟩
    cases hcoded with
    | plain _ hplain _ => exact absurd (hplain.symm.trans hcross) (by decide)
    | names hfind _ hp hq htail =>
      rw [hb] at hfind
      cases hfind
      obtain ⟨hplen, hpsame⟩ := hp.eq_of_resolve? hbetween.length_p
      obtain ⟨hqlen, hqsame⟩ := hq.eq_of_resolve? hbetween.length_q
      rw [(hbetween.tail.trailer _ _).unique htail, UInt8.ofNat_toNat]
      exact .names hbetween hplen hqlen hpsame hqsame
  | @text _ it hname hlen hit =>
    obtain ⟨s, hread⟩ := htext _ _ rfl
    obtain ⟨b, op, rfl, hb⟩ := hcode.find?
    rw [hname, find?_pushi] at hb
    have hone : b = 0x01 := UInt8.toNat_inj.mp (Prod.mk.inj (Option.some.inj hb)).1.symm
    refine ⟨_, hread, fun place1 place2 code' hcoded => ?_⟩
    cases hcoded with
    | text _ =>
      rw [hone]
      exact .text hlen (length_u32 _) (by rw [hit]; rfl)

theorem Relisted.layout {code code' : Bytes} (h : Relisted strings1 strings2 item code code') :
    code'.length = code.length ∧ code'.head? = code.head? := by
  cases h with
  | plain _ => exact ⟨rfl, rfl⟩
  | names hbetween hp hq _ _ => simp [hbetween.payload, hbetween.length_p, hbetween.length_q, hp, hq]
  | text hword hword' _ => simp [hword, hword']

theorem relisted_items {codes codes' : List Bytes} {place1 place2 : Text → Nat → Prop}
    (hshows : Forall₂ (Shows strings1 strings2) items is) (hcodes : Forall₂ Encodes is codes)
    (htexts : ∀ word t, text word t ∈ items → ∃ s, readCodeLine opcodes t = some (.text s))
    (hnames : ∀ i, instruction i ∈ items → namesScript i.name = true → ∀ o ∈ i.operands, IsOperand o)
    (hcoded : Forall₂ (Coded place1 place2) (readCodeLines opcodes (items.map line)) codes') :
    SameLayout codes codes' ∧
      Forall₂ (fun item cc => Relisted strings1 strings2 item cc.1 cc.2) items (codes.zip codes') := by
  induction hshows generalizing codes codes' with
  | nil =>
    cases hcodes
    cases hcoded
    exact ⟨.nil, .nil⟩
  | @cons item i items is hshow _ ih =>
    cases hcodes with
    | cons hcode hcodes =>
      obtain ⟨l, hread, hl⟩ := hshow.relisted hcode
        (fun word t h => htexts word t (h ▸ mem_cons_self)) (fun j h => hnames j (h ▸ mem_cons_self))
      rw [map_cons, readCodeLines_cons hread] at hcoded
      cases hcoded with
      | cons hc hcoded =>
        have hrelisted := hl _ _ _ hc
        obtain ⟨h₁, h₂⟩ := ih hcodes (fun word t h => htexts word t (mem_cons_of_mem _ h))
          (fun j h => hnames j (mem_cons_of_mem _ h)) hcoded
        exact ⟨.cons hrelisted.layout h₁, .cons hrelisted h₂⟩

/-! ### The lines of a listing -/

theorem mem_of_resolve? {offset : Int} (h : index.resolve? offset = some it) : it ∈ index.items := by
  unfold resolve? at h
  split at h
  · exact mem_of_find?_eq_some h
  · cases h

theorem oneLine_nameOrOffset {offset : Nat}
    (h : ∀ it ∈ index.items, OneLine (escapeLine it.text)) :
    OneLine (nameOrOffset offset (index.resolve? offset)) := by
  cases hit : index.resolve? offset with
  | none => exact (isNumber_hexWord _).oneLine
  | some it => exact h it (mem_of_resolve? hit)

theorem head?_ofRegion {region : Bytes} (h : it ∈ (ofRegion region).items) :
    it.text.head? ≠ some byteOrderMark := by
  obtain ⟨⟨k, r⟩, -, rfl⟩ := mem_map.mp h
  exact fun hhead => Cp932.byteOrderMark_not_mem_decodeLossy r (mem_of_head? hhead)

theorem Shows.listedLine {region1 region2 : Bytes}
    (h : Shows (.ofRegion region1) (.ofRegion region2) item i) (hcode : Encodes i code)
    (h1 : ∀ it ∈ (ofRegion region1).items, OneLine (escapeLine it.text))
    (h2 : ∀ it ∈ (ofRegion region2).items, OneLine (escapeLine it.text))
    (htext : ∀ word t, item = .text word t → sectionName? t = none ∧ ∃ s, readCodeLine opcodes t = some (.text s)) :
    ListedLine item.line := by
  cases h with
  | plain _ => exact hcode.listedLine
  | names hbetween => exact hbetween.tail.listedLine (oneLine_nameOrOffset h2) (oneLine_nameOrOffset h1)
  | @text _ it hname hlen hit =>
    obtain ⟨hsection, s, hread⟩ := htext _ _ rfl
    have hmem := mem_of_resolve? hit
    refine ⟨fun hnil => ?_, h1 it hmem, hsection, escapeLine_head? (head?_ofRegion hmem)⟩
    change escapeLine it.text = [] at hnil
    rw [hnil] at hread
    cases hread

/-! ### Entry points -/

theorem mem_readEntryTable {strings1 : Bytes} (h : e ∈ readEntryTable strings1 count table) :
    e.unk04 < 0x100000000 ∧ e.locals < 0x10000 ∧ e.params < 0x10000 ∧ e.flag0c < 0x100000000 ∧
      e.unk10 < 0x100000000 ∧ byteOrderMark ∉ e.name := by
  induction count generalizing table with
  | zero => exact absurd h not_mem_nil
  | succ count ih =>
    rw [readEntryTable] at h
    split at h
    · exact absurd h not_mem_nil
    · rcases mem_cons.mp h with rfl | h
      · refine ⟨u32At_lt _ _, Nat.mod_lt _ (by decide), ?_, u32At_lt _ _, u32At_lt _ _,
          Cp932.byteOrderMark_not_mem_decodeLossy _⟩
        have := u32At_lt table 0x08
        simp only
        omega
      · exact ih h

theorem row_props {strings1 : Bytes} (h : e ∈ readEntryTable strings1 count table)
    (hcomma : ',' ∉ e.name) (hone : OneLine (escapeLine e.name)) :
    OneLine e.row ∧ PlainLine e.row ∧ ∃ row, readRow e.row = .ok (some row) := by
  obtain ⟨h1, h2, h3, h4, h5, hmark⟩ := mem_readEntryTable h
  have hhead : (escapeLine e.name).head? ≠ some byteOrderMark :=
    escapeLine_head? fun hhead => hmark (mem_of_head? hhead)
  have hescape : ',' ∉ escapeLine e.name := by
    rw [escapeLine_eq, mem_flatMap]
    rintro ⟨c, hc, hm⟩
    split at hm
    · exact absurd hm (by decide)
    · exact hcomma (mem_singleton.mp hm ▸ hc)
  obtain ⟨hline, hplain⟩ := @rowLine_props e.unk04 e.locals e.params e.flag0c e.unk10 _ hone hhead
  exact ⟨hline, hplain, _, readRow_rowLine hescape h1 h2 h3 h4 h5⟩

/-! ### The code of the new image -/

def listedItems (h : Header) (image : Bytes) : List Item :=
  (toItems argumentTable (.ofRegion (h.strings1 image)) (.ofRegion (h.strings2 image))
    ((h.entries image).map fun e => (e.nameOffset : Int)) (disassemble opcodes (h.code image))).1

theorem listedItems_shows (hcode : h.code image = codes.flatten) (his : Forall₂ Encodes is codes) :
    Forall₂ (Shows (.ofRegion (h.strings1 image)) (.ofRegion (h.strings2 image))) (listedItems h image) is := by
  rw [listedItems, hcode, disassemble_flatten his]
  exact toItems_shows his

/-- What an image needs for its listing to be read as what it shows. -/
structure Relistable (h : Header) (image : Bytes) : Prop where
  /-- The name of an entry point has no comma, and no line break other than a line feed. -/
  names : ∀ e ∈ h.entries image, ',' ∉ e.name ∧ OneLine (escapeLine e.name)
  strings1 : ∀ it ∈ (ofRegion (h.strings1 image)).items, OneLine (escapeLine it.text)
  strings2 : ∀ it ∈ (ofRegion (h.strings2 image)).items, OneLine (escapeLine it.text)
  /-- A string that is listed as a bare line opens no section and is read as a text. -/
  texts : ∀ word t, Item.text word t ∈ listedItems h image →
    sectionName? t = none ∧ ∃ s, readCodeLine opcodes t = some (.text s)
  /-- A string that is listed as an operand is not blank and has no comma. -/
  operands : ∀ i, Item.instruction i ∈ listedItems h image → namesScript i.name = true → ∀ o ∈ i.operands, IsOperand o

theorem exists_shown (hshows : Forall₂ (Shows strings1 strings2) items is)
    (hcodes : Forall₂ Encodes is codes) :
    ∀ item ∈ items, ∃ i code, Shows strings1 strings2 item i ∧ Encodes i code := by
  induction hshows generalizing codes with
  | nil => exact nofun
  | cons hshow _ ih =>
    cases hcodes with
    | cons hcode hcodes =>
      exact forall_mem_cons.mpr ⟨⟨_, _, hshow, hcode⟩, ih hcodes⟩

theorem listingParts_disassembleImage (hread : readHeader image = .ok h)
    (hcode : h.code image = codes.flatten) (his : Forall₂ Encodes is codes) (hrelistable : Relistable h image) :
    ∃ t warnings rs, disassembleImage image = .ok (t, warnings) ∧ (h.entries image).length = rs.length ∧
      listingParts t = assembleParts rs (readCodeLines opcodes ((listedItems h image).map line)) := by
  have hshows := listedItems_shows hcode his
  have hitems : ∀ l ∈ (listedItems h image).map line, ListedLine l := by
    intro l hl
    obtain ⟨item, hitem, rfl⟩ := mem_map.mp hl
    obtain ⟨i, code, hshow, hcode⟩ := exists_shown hshows his item hitem
    exact hshow.listedLine hcode hrelistable.strings1 hrelistable.strings2
      fun word t ht => hrelistable.texts word t (ht ▸ hitem)
  have hrows : ∀ l ∈ (h.entries image).map Entry.row, OneLine l ∧ PlainLine l ∧ ∃ row, readRow l = .ok (some row) := by
    intro l hl
    obtain ⟨e, he, rfl⟩ := mem_map.mp hl
    exact row_props he (hrelistable.names e he).1 (hrelistable.names e he).2
  obtain ⟨rs, hrs, hlen⟩ := readRows_append_nil (R := fun _ _ => True) fun l hl =>
    (hrows l hl).2.2.imp fun _ hrow => ⟨hrow, trivial⟩
  refine ⟨_, _, rs, disassembleImage_eq hread rfl, by rw [← hlen.length_eq, length_map], ?_⟩
  refine listingParts_layout (fun l hl => (hrows l hl).2.1) (fun l hl => (hitems l hl).2.2)
    (lines_layout (fun l hl => ?_) fun l hl => ?_) hrs (linesOf_variable_leftovers _ _ _ _)
    (readCodeLines_leftovers _ _ _ _)
  · rcases mem_append.mp hl with hl | hl
    · exact (hrows l hl).1
    rcases mem_append.mp hl with hl | hl
    · exact (hitems l hl).2.1
    · exact oneLine_leftovers hrelistable.strings1 hrelistable.strings2 l hl
  · rw [getLast?_append] at hl
    rcases Option.or_eq_some_iff.mp hl with hl | ⟨-, hl⟩
    · exact getLast?_leftovers hl
    · exact (hitems l (mem_of_getLast? hl)).1

/-- **An image that can be listed and read again keeps the layout of its code.** Its listing is
assembled, each instruction has its opcode and its length as before, and every operand is as before
but for the offsets of strings: the words of the pushes that are listed as texts, and the words of
jumps and calls between scripts that refer to a name. -/
theorem reassembled_code {image : Bytes} {h : Header} {codes : List Bytes} (hread : readHeader image = .ok h)
    (hentries : h.entries image ≠ []) (hcode : h.code image = codes.flatten)
    (hcodes : ∀ code ∈ codes, IsInstruction code) (hrelistable : Relistable h image) (filename : Text) :
    ∃ t warnings, ∃ ps : Parts, disassembleImage image = .ok (t, warnings) ∧
      assembleListing filename t = .ok (ps.image filename) ∧
      SameLayout codes ps.code ∧
      List.Forall₂ (fun item cc => Relisted (.ofRegion (h.strings1 image)) (.ofRegion (h.strings2 image)) item cc.1 cc.2)
        (listedItems h image) (codes.zip ps.code) ∧
      ((ps.image filename).length < 0x100000000 → ∃ h', readHeader (ps.image filename) = .ok h' ∧
        h'.code (ps.image filename) = ps.code.flatten ∧
        (h'.code (ps.image filename)).length = (h.code image).length ∧
        ∀ k, (h'.code (ps.image filename))[(codes.take k).flatten.length]? =
          (h.code image)[(codes.take k).flatten.length]?) := by
  obtain ⟨is, his⟩ := exists_instructions hcodes
  have hshows := listedItems_shows hcode his
  obtain ⟨t, warnings, rs, hlisting, hlen, hparts⟩ := listingParts_disassembleImage hread hcode his hrelistable
  have hne : rs ≠ [] := fun he => hentries (length_eq_zero_iff.mp (by rw [hlen, he]; rfl))
  obtain ⟨names, extra, offsets, pool, codes', hpool, hassemble, hcoded⟩ :=
    assembleParts_ok hne fun l hl => accepted_of_mem_readCodeLines hl
  rw [hassemble] at hparts
  obtain ⟨hlayout, hrelisted⟩ := relisted_items hshows his (fun word t ht => (hrelistable.texts word t ht).2)
    hrelistable.operands hcoded
  refine ⟨t, warnings, _, hlisting, by rw [assembleListing_eq, hparts]; rfl, hlayout, hrelisted, fun hsize => ?_⟩
  obtain ⟨h', hread', -, -, hcode', -⟩ := Parts.read_image (length_entryTable hpool.placed.length_eq) hsize
  refine ⟨h', hread', hcode', ?_⟩
  rw [hcode', hcode]
  exact ⟨hlayout.length_flatten, hlayout.opcode_at⟩

/-- A script that pushes `hi` for a call, and then calls `m` of the script `l`. -/
def greeting : Parts where
  entryTable := Row.entry ⟨"m", 0, 0, 0, 0, 0⟩ 0
  entryCount := 1
  code := [[0x01, 2, 0, 0, 0], [0x29, 1, 0, 0, 0, 1], [0x28, 0, 0, 0, 0, 0, 0, 0, 0, 1]]
  strings1 := [109, 0, 104, 105, 0]
  strings2 := [108, 0]

theorem reassembled_code_greeting :
    ∃ h, readHeader (greeting.image "m") = .ok h ∧ Relistable h (greeting.image "m") ∧
      ∃ t warnings, ∃ ps : Parts, disassembleImage (greeting.image "m") = .ok (t, warnings) ∧
        assembleListing "o" t = .ok (ps.image "o") ∧
        SameLayout greeting.code ps.code := by
  have hitems : listedItems ⟨"m", 68, 1, 88, 21, 112, 5, 117, 2⟩ (greeting.image "m") =
      [.text [2, 0, 0, 0] "hi", .instruction ⟨"CALLB", [1, 0, 0, 0, 1], ["01", "00000001"]⟩,
        .instruction ⟨"CALLG", [0, 0, 0, 0, 0, 0, 0, 0, 1], ["l", "m", "01"]⟩] := by
    decide +kernel
  have hrelistable : Relistable ⟨"m", 68, 1, 88, 21, 112, 5, 117, 2⟩ (greeting.image "m") := by
    refine ⟨by decide, by decide, by decide, fun word t ht => ?_, fun i hi hname => ?_⟩
    · rw [hitems] at ht
      simp only [mem_cons, text.injEq, reduceCtorEq, not_mem_nil, or_false] at ht
      obtain ⟨-, rfl⟩ := ht
      exact ⟨by decide, "hi", by decide⟩
    · rw [hitems] at hi
      simp only [mem_cons, instruction.injEq, reduceCtorEq, not_mem_nil, or_false, false_or] at hi
      rcases hi with rfl | rfl
      · exact absurd hname (by decide)
      · exact (by decide : ∀ o ∈ [("l" : Text), "m", "01"], trim o ≠ [] ∧ ',' ∉ o)
  have hread : readHeader (greeting.image "m") = .ok ⟨"m", 68, 1, 88, 21, 112, 5, 117, 2⟩ := by decide +kernel
  obtain ⟨t, warnings, ps, hlisting, hassemble, hlayout, -⟩ :=
    @reassembled_code _ _ greeting.code hread (by decide) (by decide) (by decide) hrelistable "o"
  exact ⟨_, hread, hrelistable, t, warnings, ps, hlisting, hassemble, hlayout⟩

/-- A script that pushes the string `NOP` for a call. -/
def nopString : Parts where
  entryTable := Row.entry ⟨"m", 0, 0, 0, 0, 0⟩ 0
  entryCount := 1
  code := [[0x01, 2, 0, 0, 0], [0x29, 1, 0, 0, 0, 1]]
  strings1 := [109, 0, 78, 79, 80, 0]
  strings2 := []

/-- A string that looks like an instruction is assembled as the instruction, so that the code after
it moves. -/
theorem reassembled_nop_shrinks :
    ∃ h t image h', readHeader (nopString.image "m") = .ok h ∧ h.entries (nopString.image "m") ≠ [] ∧
      (∀ e ∈ h.entries (nopString.image "m"), ',' ∉ e.name ∧ trim e.name = e.name) ∧
      h.code (nopString.image "m") = nopString.code.flatten ∧ (∀ code ∈ nopString.code, IsInstruction code) ∧
      disassembleImage (nopString.image "m") = .ok (t, []) ∧ assembleListing "o" t = .ok image ∧
      readHeader image = .ok h' ∧ (h'.code image).length < (h.code (nopString.image "m")).length := by
  have hread : readRows ([("m,00000000,0,0,00000000,00000000" : Text)] ++ [[]]) = .ok [⟨"m", 0, 0, 0, 0, 0⟩] := by
    decide
  have hparts : listingParts (join "\n" (layout ["m,00000000,0,0,00000000,00000000"] ["NOP", "CALLB 01, 00000001"] [])) =
      .ok ⟨Row.entry ⟨"m", 0, 0, 0, 0, 0⟩ 0, 1, [[0x00], [0x29, 1, 0, 0, 0, 1]], [109, 0], []⟩ :=
    (listingParts_join (by decide) (by decide) hread).trans (by decide)
  refine ⟨⟨"m", 68, 1, 88, 11, 100, 6, 106, 0⟩, _, _, ⟨"o", 68, 1, 88, 7, 96, 2, 98, 0⟩, by decide +kernel,
    by decide, by decide, by decide, by decide, ?_, by rw [assembleListing_eq, hparts]; rfl,
    ?_, ?_⟩
  · decide +kernel
  · decide +kernel
  · decide

end Localizer.Script
