import Localizer.Proofs.Script.CodeLine
import Localizer.Proofs.Script.StringRegion

/-!
# Assembling

Rows and lines of code that were read are always assembled, given at least one row. The image has
each row as an entry point whose name is found at its offset, and the code of each line, the texts
of which are found at theirs. So what the reader of images sees in a new image is what went into it.
-/

namespace Localizer.Script

open List Encoding Word Cp932 Pool

variable {rows : List Row} {offsets : List Nat}
variable {pool : Pool} {names extra : List Text} {code : List CodeLine} {t : Text} {strings1 : Bytes} (bits : Nat)
  (n : Int)

/-! ### The string regions -/

theorem addNames_eq (ns : List Text) (pool : Pool) :
    addNames ns pool = ((places pool.bytes.length ns).map Prod.snd, ns.foldl add pool) := by
  induction ns generalizing pool with
  | nil => rfl
  | cons n ns ih =>
    have hlen : (pool.add n).bytes.length = pool.bytes.length + (encodeLossy n).length + 1 := by
      simp [add]
      omega
    rw [addNames, ih, hlen]
    rfl

theorem Pool.Holds.addAll (h : pool.Holds names []) (ns : List Text) :
    (ns.foldl Pool.add pool).Holds (names ++ ns) [] := by
  induction ns generalizing pool names with
  | nil => rwa [append_nil]
  | cons n ns ih => exact append_cons names n ns ▸ ih (h.add n)

theorem forall₂_places (k : Nat) (rows : List Row) :
    Forall₂ (fun row o => (row.name, o) ∈ places k (rows.map Row.name)) rows
      ((places k (rows.map Row.name)).map Prod.snd) := by
  induction rows generalizing k with
  | nil => exact .nil
  | cons row rows ih =>
    exact .cons mem_cons_self ((ih _).imp fun _ _ h => mem_cons_of_mem _ h)

/-- The first string region as it is built from rows and lines of code: `names` are the names of the
rows in the order in which they are written, and `extra` the texts after them. -/
structure Strings1 (rows : List Row) (code : List CodeLine) (names extra : List Text)
    (offsets : List Nat) (pool : Pool) : Prop where
  holds : pool.Holds names extra
  names_sub : ∀ t ∈ names, t ∈ rows.map Row.name
  extra_sub : ∀ t ∈ extra, t ∈ code.filterMap entryOrText?
  placed : Forall₂ (fun row o => (row.name, o) ∈ places 0 names) rows offsets
  /-- The place of a name is the offset of a row. -/
  used : ∀ p ∈ places 0 names, p.2 ∈ offsets
  known : ∀ t ∈ code.filterMap entryOrText?, (pool.offset? t).isSome

theorem buildStrings1_ok (hne : rows ≠ []) (code : List CodeLine) :
    ∃ names extra offsets pool, buildStrings1 rows code = .ok (offsets, pool) ∧
      Strings1 rows code names extra offsets pool := by
  obtain ⟨init, last, rfl⟩ : ∃ init last, rows = init ++ [last] :=
    ⟨_, _, (dropLast_append_getLast hne).symm⟩
  -- the name of the last row is written first, at offset 0
  have hlast : (empty.add last.name).Holds [last.name] [] := Pool.Holds.empty.add last.name
  have hnames := hlast.addAll (init.map Row.name)
  obtain ⟨extra, hholds, hextra, hknown⟩ := hnames.ensureAll (code.filterMap entryOrText?)
  have hplaces : places 0 (last.name :: init.map Row.name) =
      (last.name, 0) :: places (empty.add last.name).bytes.length (init.map Row.name) := by
    rw [places]
    simp [add, empty]
  refine ⟨_, extra, (places (empty.add last.name).bytes.length (init.map Row.name)).map Prod.snd ++ [0], _, ?_,
    hholds, ?_, ?_, ?_, ?_, fun t ht => hknown t (.inl ht)⟩
  · rw [buildStrings1, getLast?_concat, dropLast_concat]
    simp only [addNames_eq]
  · intro t ht
    rw [map_append, mem_append]
    exact (mem_append.mp ht).symm
  · intro t ht
    exact (hextra t ht).resolve_left not_mem_nil
  · refine rel_append ((forall₂_places _ init).imp fun row o ho => ?_) (.cons ?_ .nil)
    · exact hplaces ▸ mem_cons_of_mem _ ho
    · exact hplaces ▸ mem_cons_self
  · intro p hp
    rw [singleton_append, hplaces] at hp
    rw [mem_append]
    rcases mem_cons.mp hp with rfl | hp
    · exact .inr mem_cons_self
    · exact .inl (mem_map_of_mem hp)

theorem buildStrings2_holds (code : List CodeLine) :
    ∃ extra, (buildStrings2 code).Holds [] extra ∧ (∀ t ∈ extra, t ∈ code.filterMap scriptName?) ∧
      ∀ t ∈ code.filterMap scriptName?, ((buildStrings2 code).offset? t).isSome := by
  obtain ⟨extra, hholds, hextra, hknown⟩ := Pool.Holds.empty.ensureAll (code.filterMap scriptName?)
  exact ⟨extra, hholds, fun t ht => (hextra t ht).resolve_left not_mem_nil, fun t ht => hknown t (.inl ht)⟩

/-! ### The parts of an image -/

/-- **Rows and lines that were read are assembled.** -/
theorem assembleParts_ok (hne : rows ≠ []) (hacc : ∀ l ∈ code, l.Accepted) :
    ∃ names extra offsets pool codes, Strings1 rows code names extra offsets pool ∧
      assembleParts rows code = .ok ⟨(zipWith Row.entry rows offsets).flatten, rows.length, codes, pool.bytes,
        (buildStrings2 code).bytes⟩ ∧
      Forall₂ (Coded pool.Place (buildStrings2 code).Place) code codes := by
  obtain ⟨names, extra, offsets, pool, hbuild, hpool⟩ := buildStrings1_ok hne code
  obtain ⟨-, -, -, hknown2⟩ := buildStrings2_holds code
  have hcode : ∀ l ∈ code, ∃ bs, encodeLine opcodes pool.offsets (buildStrings2 code).offsets l = .ok bs ∧
      Coded pool.Place (buildStrings2 code).Place l bs := fun l hl =>
    encodeLine_coded (hacc l hl) (fun t ht => hpool.known t (mem_filterMap.mpr ⟨l, hl, ht⟩))
      fun t ht => hknown2 t (mem_filterMap.mpr ⟨l, hl, ht⟩)
  obtain ⟨codes, hcodes, hcoded⟩ := mapM_ok_of_forall hcode
  refine ⟨names, extra, offsets, pool, codes, hpool, ?_, hcoded⟩
  simp [assembleParts, hbuild, hcodes, bind, Except.bind, pure, Except.pure]

theorem listingParts_eq (h : readRows (sectionLines (sections t) "VARIABLE") = .ok rows) :
    listingParts t =
      assembleParts rows (readCodeLines opcodes (sectionLines (sections t) "CODE")) := by
  simp only [listingParts, h, bind, Except.bind]

theorem assembleListing_eq (filename t : Text) :
    assembleListing filename t = (listingParts t).map fun ps => ps.image filename := by
  unfold assembleListing
  cases listingParts t <;> rfl

/-! ### The image read back -/

def Row.asEntry (row : Row) (nameOffset : Nat) : Entry where
  nameOffset := nameOffset
  unk04 := row.unk04 % 0x100000000
  locals := wrap 16 row.locals
  params := wrap 16 row.params
  flag0c := row.flag0c % 0x100000000
  unk10 := row.unk10 % 0x100000000
  name := decodeLossy (encodeLossy row.name)

theorem wrap_lt : wrap bits n < Nat.pow 2 bits := by
  unfold wrap
  have hpos : 0 < Nat.pow 2 bits := Nat.pow_pos (by omega)
  have h2 := Int.emod_lt_of_pos n (b := (Nat.pow 2 bits : Nat)) (by omega)
  omega

theorem Row.length_entry (row : Row) (o : Nat) : (row.entry o).length = entrySize := by
  rfl

theorem length_entryTable (h : rows.length = offsets.length) :
    (zipWith Row.entry rows offsets).flatten.length = rows.length * entrySize := by
  induction rows generalizing offsets with
  | nil => simp
  | cons row rows ih =>
    cases offsets with
    | nil => cases h
    | cons o offsets =>
      rw [zipWith_cons_cons, flatten_cons, length_append, row.length_entry,
        ih (Nat.succ.inj h), length_cons, Nat.succ_mul, Nat.add_comm]

/-- **The table of entry points is read as the rows it was made of.** -/
theorem readEntryTable_rows
    (h : Forall₂ (fun (row : Row) (o : Nat) => o < 0x100000000 ∧ readString strings1 o = encodeLossy row.name)
      rows offsets) :
    readEntryTable strings1 rows.length (zipWith Row.entry rows offsets).flatten =
      zipWith Row.asEntry rows offsets := by
  induction h with
  | nil => rfl
  | @cons row o rows offsets hrow _ ih =>
    obtain ⟨ho, hname⟩ := hrow
    have hl : wrap 16 row.locals < 0x10000 := wrap_lt 16 row.locals
    have hp : wrap 16 row.params < 0x10000 := wrap_lt 16 row.params
    have hlow : (wrap 16 row.locals + wrap 16 row.params * 0x10000) % 0x10000 = wrap 16 row.locals := by
      omega
    have hhigh : (wrap 16 row.locals + wrap 16 row.params * 0x10000) / 0x10000 = wrap 16 row.params := by
      omega
    have hlen := row.length_entry o
    rw [zipWith_cons_cons, flatten_cons, length_cons, readEntryTable,
      if_neg (by rw [length_append]; omega), drop_left' hlen, ih]
    have hword : ∀ k n, [o, row.unk04, wrap 16 row.locals + wrap 16 row.params * 0x10000, row.flag0c,
        row.unk10][k]? = some n →
        u32At (row.entry o ++ (zipWith Row.entry rows offsets).flatten) (4 * k) = n % 0x100000000 := by
      intro k n hk
      exact @u32At_wordRow [] _ _ _ _ _ hk (by simp)
    have h0 := hword 0 _ rfl
    have h2 := hword 2 _ rfl
    rw [Nat.mod_eq_of_lt ho] at h0
    rw [Nat.mod_eq_of_lt (by omega)] at h2
    simp only [h0, h2, hword 1 _ rfl, hword 3 _ rfl, hword 4 _ rfl, hname, hlow, hhigh]
    rfl

/-- **The reader of images finds the parts that an image was put together from.** -/
theorem Parts.read_image {ps : Parts} {filename : Text}
    (htable : ps.entryTable.length = ps.entryCount * entrySize)
    (hsize : (ps.image filename).length < 0x100000000) :
    ∃ h, readHeader (ps.image filename) = .ok h ∧ h.entryCount = ps.entryCount ∧
      region (ps.image filename) h.entryOffset (h.entryCount * entrySize : Nat) = ps.entryTable ∧
      h.code (ps.image filename) = ps.code.flatten ∧ h.strings1 (ps.image filename) = ps.strings1 ∧
      h.strings2 (ps.image filename) = ps.strings2 ∧
      h.entries (ps.image filename) = readEntryTable ps.strings1 ps.entryCount ps.entryTable := by
  have hcount : ps.entryCount < 0x100000000 := by
    have hlen := length_buildImage filename ps.entryTable ps.entryCount ps.code.flatten ps.strings1 ps.strings2
    have hle := le_strings1Start ps.entryTable ps.code.flatten
    change (buildImage _ _ _ _ _ _).length < _ at hsize
    have hsize20 : entrySize = 20 := rfl
    rw [hsize20] at htable
    omega
  obtain ⟨h, hread, hentries, htab, hcode, hs1, hs2⟩ := readHeader_buildImage rfl hcount hsize
  have hregion : region (ps.image filename) h.entryOffset (h.entryCount * entrySize : Nat) = ps.entryTable := by
    rwa [hentries, ← htable]
  refine ⟨h, hread, hentries, hregion, hcode, hs1, hs2, ?_⟩
  rw [Header.entries, hregion, htable, Nat.mul_div_cancel _ (by decide : 0 < entrySize), hentries, Nat.min_self]
  exact congrArg (readEntryTable · _ _) hs1

theorem Parts.length_strings_le (ps : Parts) (filename : Text) :
    ps.strings1.length ≤ (ps.image filename).length ∧
      ps.strings2.length ≤ (ps.image filename).length := by
  have h := length_buildImage filename ps.entryTable ps.entryCount ps.code.flatten ps.strings1 ps.strings2
  change (ps.image filename).length = _ at h
  omega

/-- The code of a line refers to the texts of the line: a push to its text, and a jump or call
between scripts to the names that its operands are. -/
def CodeLine.RefersTo (strings1 strings2 : Bytes) : CodeLine → Bytes → Prop
  | .text t, code => ∃ word, code = 0x01 :: word ∧ word.length = 4 ∧
      readString strings1 (value word) = encodeLossy t
  | .instruction name operands _, code => namesScript name = true →
      ∃ a b more opcode p q tail, operands = a :: b :: more ∧ code = opcode :: (p ++ q ++ tail) ∧
        p.length = 4 ∧ q.length = 4 ∧
        (isHexToken a = false → readString strings2 (value p) = encodeLossy a) ∧
        (isHexToken b = false → readString strings1 (value q) = encodeLossy b)

theorem Stands.readString {place : Text → Nat → Prop} {strings : Bytes} {word : Bytes} (h : Stands place t word)
    (hplace : ∀ n, isHexToken t = false → place t n →
      n < 0x100000000 ∧ readString strings n = encodeLossy t) :
    word.length = 4 ∧ (isHexToken t = false → readString strings (value word) = encodeLossy t) := by
  obtain ⟨n, rfl, hn⟩ := h
  refine ⟨length_u32 n, fun ht => ?_⟩
  rw [if_neg (by simp [ht])] at hn
  obtain ⟨hlt, hread⟩ := hplace n ht hn
  rw [value_u32_of_lt hlt, hread]

theorem Coded.refersTo {place1 place2 : Text → Nat → Prop} {strings2 : Bytes} {l : CodeLine} {code : Bytes}
    (h : Coded place1 place2 l code)
    (h1 : ∀ t n, entryOrText? l = some t → place1 t n → n < 0x100000000 ∧ readString strings1 n = encodeLossy t)
    (h2 : ∀ t n, scriptName? l = some t → place2 t n → n < 0x100000000 ∧ readString strings2 n = encodeLossy t) :
    l.RefersTo strings1 strings2 code := by
  cases h with
  | text hplace =>
    obtain ⟨hlt, hread⟩ := h1 _ _ rfl hplace
    exact ⟨_, rfl, length_u32 _, by rw [value_u32_of_lt hlt, hread]⟩
  | names _ hnames hp hq _ =>
    obtain ⟨hplen, hpread⟩ := hp.readString fun n ha => h2 _ n (by simp [scriptName?, hnames, ha])
    obtain ⟨hqlen, hqread⟩ := hq.readString fun n hb => h1 _ n (by simp [entryOrText?, hnames, hb])
    exact fun _ => ⟨_, _, _, _, _, _, _, rfl, rfl, hplen, hqlen, hpread, hqread⟩
  | plain _ hplain _ => exact fun hnames => absurd (hplain.symm.trans hnames) (by decide)

theorem Pool.Holds.readString (h : pool.Holds names extra) {n : Nat}
    (h0 : '\x00' ∉ t) (hn : (t, n) ∈ places 0 (names ++ extra)) :
    n < pool.bytes.length ∧ readString pool.bytes n = encodeLossy t := by
  have hat : StringAt pool.bytes n (encodeLossy t) := h.bytes ▸ stringAt_written hn
  exact ⟨hat.lt, readString_of_stringAt hat (zero_not_mem_encodeLossy h0)⟩

theorem Strings1.readEntryTable
    (h : Strings1 rows code names extra offsets pool) (h0 : ∀ row ∈ rows, '\x00' ∉ row.name)
    (hsize : pool.bytes.length < 0x100000000) :
    readEntryTable pool.bytes rows.length (zipWith Row.entry rows offsets).flatten =
      zipWith Row.asEntry rows offsets := by
  refine readEntryTable_rows (h.placed.imp fun row o ho => ?_)
  obtain ⟨row', hmem, hrow⟩ := mem_map.mp (h.names_sub _ (mem_of_mem_places ho))
  have hplace : (row.name, o) ∈ places 0 (names ++ extra) := by
    rw [places_append]
    exact mem_append_left _ ho
  obtain ⟨hlt, hname⟩ := h.holds.readString (hrow ▸ h0 row' hmem) hplace
  exact ⟨lt_trans hlt hsize, hname⟩

/-- An entry point has what its row says, as far as there is room for it. -/
structure Row.ReadAs (row : Row) (e : Entry) : Prop where
  name : e.name = decodeLossy (encodeLossy row.name)
  unk04 : e.unk04 = row.unk04 % 0x100000000
  locals : (e.locals : Int) = row.locals % 0x10000
  params : (e.params : Int) = row.params % 0x10000
  flag0c : e.flag0c = row.flag0c % 0x100000000
  unk10 : e.unk10 = row.unk10 % 0x100000000

theorem natCast_wrap : (wrap bits n : Int) = n % (Nat.pow 2 bits : Nat) := by
  have hpos : 0 < Nat.pow 2 bits := Nat.pow_pos (by omega)
  exact Int.toNat_of_nonneg (Int.emod_nonneg n (by omega))

theorem Row.readAs_asEntry (row : Row) (o : Nat) : row.ReadAs (row.asEntry o) where
  name := rfl
  unk04 := rfl
  locals := natCast_wrap 16 row.locals
  params := natCast_wrap 16 row.params
  flag0c := rfl
  unk10 := rfl

theorem forall₂_asEntry (h : rows.length = offsets.length) :
    Forall₂ Row.ReadAs rows (zipWith Row.asEntry rows offsets) := by
  induction rows generalizing offsets with
  | nil => exact .nil
  | cons row rows ih =>
    cases offsets with
    | nil => cases h
    | cons o offsets => exact .cons (row.readAs_asEntry o) (ih (Nat.succ.inj h))

/-- **An image is read as what went into it.** Rows and lines of code without a zero character give
an image, which is that of every listing with these rows and lines. If it is of less than 2^32
bytes, its header points at the very table, code and string regions that were built, each row is an
entry point, and the code of each line refers to the texts of that line. -/
theorem read_assembled {rows : List Row} {ls : List Text} (hne : rows ≠ [])
    (hnames : ∀ row ∈ rows, '\x00' ∉ row.name)
    (htexts : ∀ t ∈ (readCodeLines opcodes ls).filterMap entryOrText?, '\x00' ∉ t)
    (hscripts : ∀ t ∈ (readCodeLines opcodes ls).filterMap scriptName?, '\x00' ∉ t) (filename : Text) :
    ∃ ps, assembleParts rows (readCodeLines opcodes ls) = .ok ps ∧
      (∀ t, readRows (sectionLines (sections t) "VARIABLE") = .ok rows → sectionLines (sections t) "CODE" = ls →
        assembleListing filename t = .ok (ps.image filename)) ∧
      ((ps.image filename).length < 0x100000000 → ∃ h, readHeader (ps.image filename) = .ok h ∧
        region (ps.image filename) h.entryOffset (h.entryCount * entrySize : Nat) = ps.entryTable ∧
        h.code (ps.image filename) = ps.code.flatten ∧
        h.strings1 (ps.image filename) = ps.strings1 ∧
        h.strings2 (ps.image filename) = ps.strings2 ∧
        List.Forall₂ Row.ReadAs rows (h.entries (ps.image filename)) ∧
        List.Forall₂ (CodeLine.RefersTo ps.strings1 ps.strings2) (readCodeLines opcodes ls) ps.code) := by
  obtain ⟨names, extra, offsets, pool, codes, hpool, hparts, hcoded⟩ :=
    assembleParts_ok hne fun l hl => accepted_of_mem_readCodeLines hl
  obtain ⟨extra2, hholds2, -, -⟩ := buildStrings2_holds (readCodeLines opcodes ls)
  refine ⟨_, hparts, fun t hrows hcode => ?_, fun hsize => ?_⟩
  · rw [assembleListing_eq, listingParts_eq hrows, hcode, hparts]
    rfl
  have hlen := hpool.placed.length_eq
  obtain ⟨h, hread, -, htable, hcode, hs1, hs2, hentries⟩ := Parts.read_image (length_entryTable hlen) hsize
  obtain ⟨hle1, hle2⟩ := Parts.length_strings_le _ filename |>.imp (lt_of_le_of_lt · hsize) (lt_of_le_of_lt · hsize)
  refine ⟨h, hread, htable, hcode, hs1, hs2, ?_, ?_⟩
  · rw [hentries, hpool.readEntryTable hnames hle1]
    exact forall₂_asEntry hlen
  · refine ((List.forall₂_and_left _ _).mpr ⟨fun l hl => hl, hcoded⟩).imp fun l code ⟨hl, hc⟩ => hc.refersTo ?_ ?_
    · intro t n ht hn
      obtain ⟨hlt, hread⟩ := hpool.holds.readString (htexts t (List.mem_filterMap.mpr ⟨l, hl, ht⟩))
        (hpool.holds.placed t n hn)
      exact ⟨lt_trans hlt hle1, hread⟩
    · intro t n ht hn
      obtain ⟨hlt, hread⟩ := hholds2.readString (hscripts t (List.mem_filterMap.mpr ⟨l, hl, ht⟩))
        (hholds2.placed t n hn)
      exact ⟨lt_trans hlt hle2, hread⟩

/-- Two rows of one name, a text, and a call by names that shares the name of the rows. -/
theorem read_assembled_two_rows :
    ∃ ps h, assembleParts [⟨"m", 1, 2, -1, 4, 5⟩, ⟨"m", 0, 0, 0, 0, 0⟩]
        (readCodeLines opcodes ["ｱ", "CALLB 01, 00000001", "CALLG lib, m, 02"]) = .ok ps ∧
      readHeader (ps.image "x") = .ok h ∧ h.strings1 (ps.image "x") = ps.strings1 ∧
      List.Forall₂ Row.ReadAs [⟨"m", 1, 2, -1, 4, 5⟩, ⟨"m", 0, 0, 0, 0, 0⟩] (h.entries (ps.image "x")) ∧
      List.Forall₂ (CodeLine.RefersTo ps.strings1 ps.strings2)
        (readCodeLines opcodes ["ｱ", "CALLB 01, 00000001", "CALLG lib, m, 02"]) ps.code := by
  obtain ⟨ps, hps, -, hread⟩ := @read_assembled [⟨"m", 1, 2, -1, 4, 5⟩, ⟨"m", 0, 0, 0, 0, 0⟩]
    ["ｱ", "CALLB 01, 00000001", "CALLG lib, m, 02"] (by decide) (by decide) (by decide)
    (by decide) "x"
  have hsize : (assembleParts [⟨"m", 1, 2, -1, 4, 5⟩, ⟨"m", 0, 0, 0, 0, 0⟩]
      (readCodeLines opcodes ["ｱ", "CALLB 01, 00000001", "CALLG lib, m, 02"])).toOption.map
        (fun ps => (ps.image "x").length) = some 142 := by
    decide +kernel
  rw [hps] at hsize
  have hlt : (ps.image "x").length < 0x100000000 := by
    have hlen : (ps.image "x").length = 142 := Option.some.inj hsize
    omega
  obtain ⟨h, hheader, -, -, hstrings1, -, hentries, hcode⟩ := hread hlt
  exact ⟨ps, h, hps, hheader, hstrings1, hentries, hcode⟩

end Localizer.Script
