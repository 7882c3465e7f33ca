import Localizer.Proofs.Script.Canonical

/-!
# Listings read back

A canonical listing is assembled, and the listing of its image is the listing itself, without a
warning. The image may not reach 2^32 bytes, since offsets are words.
-/

namespace Localizer.Script

open List Encoding Text

/-! ## Strings that are left over

A listing ends with the strings that nothing refers to, each region under its title. Their lines go
into sections of their own, so that rows and code are read without them; only the empty line before
the first title still belongs to the code, and a blank line is no code. -/

variable {title : Text} {used : List Nat} {index : StringIndex}

/-! ### One region -/

theorem leftoverLines_eq_nil (h : ∀ it ∈ index.items, it.start ∈ used) :
    leftoverLines title used index = [] := by
  have hleft : index.items.filter (fun it => !used.contains it.start) = [] := by
    rw [filter_eq_nil_iff]
    intro it hit
    simp [h it hit]
  rw [leftoverLines, hleft]
  rfl

def leftoverLine (it : StringItem) : Text := hexWord it.start ++ ": " ++ escapeLine it.text

theorem leftoverLine_props (it : StringItem) :
    leftoverLine it ≠ [] ∧ PlainLine (leftoverLine it) := by
  obtain ⟨c, cs, hcs⟩ := exists_cons_of_ne_nil (upperHex_ne_nil 8 (Word.wrap 32 it.start))
  have hc : c ≠ '[' ∧ c ≠ Utf8.byteOrderMark :=
    forall_mem_upperHex (P := fun c => c ≠ '[' ∧ c ≠ Utf8.byteOrderMark) (by decide) c (hcs ▸ mem_cons_self)
  have hline : leftoverLine it = c :: (cs ++ ": ".toList ++ escapeLine it.text) := by
    rw [leftoverLine, hexWord, hcs]
    rfl
  rw [hline]
  exact ⟨by simp, plainLine_of_head (fun h => hc.1 (Option.some.inj h)) fun h => hc.2 (Option.some.inj h)⟩

theorem leftoverLines_cases (title : Text) (used : List Nat) (index : StringIndex) :
    leftoverLines title used index = [] ∨ ∃ left, left ≠ [] ∧ (∀ it ∈ left, it ∈ index.items) ∧
      leftoverLines title used index = [] :: title :: left.map leftoverLine := by
  unfold leftoverLines
  simp only
  split
  · exact .inl rfl
  · next hne => exact .inr ⟨_, by simpa using hne, fun it hit => mem_of_mem_filter hit, rfl⟩

theorem linesOf_leftover {name other : Text} (used : List Nat) (index : StringIndex)
    (htitle : Opens title other) (hother : other ≠ name) (opened : Option Text) (rest : List Text) :
    linesOf name opened (leftoverLines title used index ++ rest) = linesOf name opened rest ∨
      linesOf name opened (leftoverLines title used index ++ rest) =
        (if opened = some name then [[]] else []) ++ linesOf name (some other) rest := by
  rcases leftoverLines_cases title used index with h | ⟨left, -, -, h⟩
  · rw [h]
    exact .inl rfl
  · right
    have hplain : ∀ l ∈ left.map leftoverLine, PlainLine l := fun l hl => by
      obtain ⟨it, -, rfl⟩ := mem_map.mp hl
      exact (leftoverLine_props it).2
    have hnil : ∀ l ∈ ([[]] : List Text), PlainLine l := fun l hl => mem_singleton.mp hl ▸ plainLine_nil
    have hne : ¬ some other = some name := fun he => hother (Option.some.inj he)
    rw [h, cons_append, cons_append, ← singleton_append, linesOf_plain _ _ hnil,
      linesOf_opens _ _ htitle, linesOf_plain _ _ hplain, if_neg hne, nil_append]

theorem oneLine_leftoverLines (htitle : OneLine title)
    (h : ∀ it ∈ index.items, OneLine (escapeLine it.text)) :
    ∀ l ∈ leftoverLines title used index, OneLine l := by
  intro l hl
  rcases leftoverLines_cases title used index with hleft | ⟨left, -, hsub, hleft⟩
  · exact absurd (hleft ▸ hl) not_mem_nil
  · rw [hleft] at hl
    simp only [mem_cons, mem_map] at hl
    rcases hl with rfl | rfl | ⟨it, hit, rfl⟩
    · exact (by decide : OneLine [])
    · exact htitle
    · exact oneLine_append (oneLine_append (isNumber_hexWord _).oneLine (by decide)) (h it (hsub it hit))

theorem getLast?_leftoverLines {l : Text}
    (h : (leftoverLines title used index).getLast? = some l) : l ≠ [] := by
  rcases leftoverLines_cases title used index with hleft | ⟨left, hne, -, hleft⟩
  · simp [hleft] at h
  · obtain ⟨init, last, rfl⟩ : ∃ init last, left = init ++ [last] := ⟨_, _, (dropLast_append_getLast hne).symm⟩
    rw [hleft, map_append, ← cons_append, ← cons_append, map_singleton, getLast?_concat] at h
    exact Option.some.inj h ▸ (leftoverLine_props last).1

/-! ### Both regions -/

section

variable (used1 used2 : List Nat) (index1 index2 : StringIndex)

def leftovers : List Text :=
  leftoverLines "[STRINGS_1]" used1 index1 ++ leftoverLines "[STRINGS_2]" used2 index2

theorem linesOf_variable_leftovers :
    linesOf "VARIABLE" (some "CODE") (leftovers used1 used2 index1 index2) = [] := by
  unfold leftovers
  have h2 : ∀ opened, opened ≠ some ("VARIABLE" : Text) →
      linesOf "VARIABLE" opened (leftoverLines "[STRINGS_2]" used2 index2) = [] := by
    intro opened ho
    have h := linesOf_leftover used2 index2 opens_strings2 (by decide : "STRINGS_2".toList ≠ "VARIABLE".toList) opened []
    rw [append_nil, if_neg ho] at h
    exact h.elim id id
  rcases linesOf_leftover used1 index1 opens_strings1 (by decide : "STRINGS_1".toList ≠ "VARIABLE".toList)
    (some "CODE") (leftoverLines "[STRINGS_2]" used2 index2) with h | h
  · rw [h, h2 _ (by decide)]
  · rw [h, h2 _ (by decide), if_neg (by decide)]
    rfl

theorem readCodeLines_leftovers :
    readCodeLines opcodes (linesOf "CODE" (some "CODE") (leftovers used1 used2 index1 index2)) =
      [] := by
  unfold leftovers
  have h2 : ∀ opened, readCodeLines opcodes (linesOf "CODE" opened (leftoverLines "[STRINGS_2]" used2 index2)) = [] := by
    intro opened
    have h := linesOf_leftover used2 index2 opens_strings2 (by decide : "STRINGS_2".toList ≠ "CODE".toList) opened []
    rw [append_nil] at h
    rcases h with h | h
    · rw [h]
      rfl
    · rw [h]
      split <;> rfl
  rcases linesOf_leftover used1 index1 opens_strings1 (by decide : "STRINGS_1".toList ≠ "CODE".toList)
    (some "CODE") (leftoverLines "[STRINGS_2]" used2 index2) with h | h
  · rw [h, h2]
  · rw [h, readCodeLines_append, h2, if_pos rfl]
    rfl

variable {used1 used2 index1 index2}

theorem oneLine_leftovers (h1 : ∀ it ∈ index1.items, OneLine (escapeLine it.text))
    (h2 : ∀ it ∈ index2.items, OneLine (escapeLine it.text)) :
    ∀ l ∈ leftovers used1 used2 index1 index2, OneLine l := by
  intro l hl
  rcases mem_append.mp hl with hl | hl
  · exact oneLine_leftoverLines (by decide) h1 l hl
  · exact oneLine_leftoverLines (by decide) h2 l hl

theorem getLast?_leftovers {l : Text} (h : (leftovers used1 used2 index1 index2).getLast? = some l) : l ≠ [] := by
  rw [leftovers, getLast?_append] at h
  rcases Option.or_eq_some_iff.mp h with h | ⟨-, h⟩
  · exact getLast?_leftoverLines h
  · exact getLast?_leftoverLines h

end

/-! ## Listings read back -/

open Cp932 StringIndex

variable {pool : Pool} {names extra : List Text} {rs : List Row} {offsets : List Nat}

/-! ### Strings in use -/

theorem Pool.Holds.resolves (h : pool.Holds names extra)
    (hsize : pool.bytes.length < 0x100000000) : Resolves (ofRegion pool.bytes) pool := by
  intro t n hn ht hne
  have hat := h.stringAt hn
  have henc : encodeLossy t ≠ [] := fun he => hne (by rw [← ht.2, he]; rfl)
  have hres := resolve?_of_stringAt hat (zero_not_mem_encodeLossy ht.1) henc
  rw [ht.2] at hres
  exact ⟨lt_trans hat.lt hsize, _, hres⟩

theorem foldl_use1 (index : StringIndex) (os : List Int) (found : Found) :
    (os.foldl (fun f o => f.use1 (index.resolve? o)) found).warnings = found.warnings ∧
      (∀ n ∈ found.used1, n ∈ (os.foldl (fun f o => f.use1 (index.resolve? o)) found).used1) ∧
      ∀ o ∈ os, ∀ it, index.resolve? o = some it →
        it.start ∈ (os.foldl (fun f o => f.use1 (index.resolve? o)) found).used1 := by
  induction os generalizing found with
  | nil => exact ⟨rfl, fun _ hn => hn, nofun⟩
  | cons o os ih =>
    obtain ⟨hwarnings, hkept, hused⟩ := ih (found.use1 (index.resolve? o))
    have hstep : (found.use1 (index.resolve? o)).warnings = found.warnings ∧
        (∀ n ∈ found.used1, n ∈ (found.use1 (index.resolve? o)).used1) ∧
        ∀ it, index.resolve? o = some it → it.start ∈ (found.use1 (index.resolve? o)).used1 := by
      cases index.resolve? o with
      | none => exact ⟨rfl, fun _ hn => hn, fun _ h => by cases h⟩
      | some it => exact ⟨rfl, fun _ hn => mem_cons_of_mem _ hn, fun _ h => by cases h; exact mem_cons_self⟩
    refine ⟨hwarnings.trans hstep.1, fun n hn => hkept n (hstep.2.1 n hn), fun p hp it hit => ?_⟩
    rcases mem_cons.mp hp with rfl | hp
    · exact hkept _ (hstep.2.2 it hit)
    · exact hused p hp it hit

theorem Pool.Holds.mem_used (h : pool.Holds names extra) (h0 : ∀ t ∈ names ++ extra, '\x00' ∉ t)
    (hnames : ∀ p ∈ places 0 names, encodeLossy p.1 ≠ [] → p.2 ∈ used)
    (hextra : ∀ t ∈ extra, ∀ n, pool.Place t n → n ∈ used) :
    ∀ it ∈ (ofRegion pool.bytes).items, it.start ∈ used := by
  intro it hit
  obtain ⟨⟨j, r⟩, hrun, rfl⟩ := mem_map.mp hit
  have hne := (mem_runs hrun).2.2
  rw [h.bytes] at hrun
  obtain ⟨t, ht, rfl⟩ := mem_runs_written h0 hrun
  rw [places_append, mem_append, Nat.zero_add] at ht
  rcases ht with ht | ht
  · exact hnames _ ht hne
  · exact hextra t (mem_of_mem_places ht) j (h.shared _ ht)

/-! ### Rows -/

theorem IsRow.readRow {l : Text} (h : IsRow l) :
    ∃ row, readRow l = .ok (some row) ∧ Survives row.name ∧ ∀ o, (row.asEntry o).row = l := by
  obtain ⟨name, unk04, locals, params, flag0c, unk10, rfl, htrim, hcomma, hone, hsurvives, h1, h2, h3, h4, h5⟩ := h
  refine ⟨_, readRow_rowLine hcomma h1 h2 h3 h4 h5, htrim.symm ▸ hsurvives, fun o => ?_⟩
  rw [Entry.row_eq, Row.asEntry]
  simp only [htrim, hsurvives.2, escapeLine_unescapeLine hone.lf_not_mem, Nat.mod_eq_of_lt h1, Nat.mod_eq_of_lt h4,
    Nat.mod_eq_of_lt h5]
  rw [Word.wrap_of_lt h2, Word.wrap_of_lt h3]

theorem map_row_asEntry {rows : List Text} (hlen : rs.length = offsets.length)
    (h : Forall₂ (fun l row => Survives row.name ∧ ∀ o, (row.asEntry o).row = l) rows rs) :
    (zipWith Row.asEntry rs offsets).map Entry.row = rows := by
  induction h generalizing offsets with
  | nil => rfl
  | cons hrow _ ih =>
    cases offsets with
    | nil => cases hlen
    | cons o offsets => rw [zipWith_cons_cons, map_cons, hrow.2 o, ih (Nat.succ.inj hlen)]

theorem map_nameOffset_asEntry (hlen : rs.length = offsets.length) :
    (zipWith Row.asEntry rs offsets).map (fun e => (e.nameOffset : Int)) =
      offsets.map fun o : Nat => (o : Int) := by
  induction rs generalizing offsets with
  | nil => rw [length_eq_zero_iff.mp hlen.symm]; rfl
  | cons row rs ih =>
    cases offsets with
    | nil => cases hlen
    | cons o offsets => rw [zipWith_cons_cons, map_cons, ih (Nat.succ.inj hlen)]; rfl

/-! ### The image of canonical code -/

section

variable {rows code : List Text} {pool1 : Pool} {codes : List Bytes} (hcode : CanonicalCode false code)
  (hrs : Forall₂ (fun l row => Survives row.name ∧ ∀ o, (row.asEntry o).row = l) rows rs)
  (hpool : Strings1 rs (readCodeLines opcodes code) names extra offsets pool1)
  (hcoded : Forall₂ (Coded pool1.Place (buildStrings2 (readCodeLines opcodes code)).Place)
    (readCodeLines opcodes code) codes)
include hcode hrs hpool hcoded

theorem toItems_canonical (hsize1 : pool1.bytes.length < 0x100000000)
    (hsize2 : (buildStrings2 (readCodeLines opcodes code)).bytes.length < 0x100000000) :
    ∃ items found, toItems argumentTable (.ofRegion pool1.bytes)
        (.ofRegion (buildStrings2 (readCodeLines opcodes code)).bytes) (offsets.map fun o : Nat => (o : Int))
        (disassemble opcodes codes.flatten) = (items, found) ∧
      items.map Item.line = code ∧ found.warnings = [] ∧
      (∀ it ∈ (ofRegion pool1.bytes).items, it.start ∈ found.used1) ∧
      ∀ it ∈ (ofRegion (buildStrings2 (readCodeLines opcodes code)).bytes).items,
        it.start ∈ found.used2 := by
  obtain ⟨extra2, hholds2, hextra2, -⟩ := buildStrings2_holds (readCodeLines opcodes code)
  have hsurvive := ((forall₂_and_left rs rows).mp (Forall₂.flip hrs)).1
  obtain ⟨push, hlists⟩ := hcode.listsAs (hpool.holds.resolves hsize1) (hholds2.resolves hsize2)
  obtain ⟨is, his, hlisted⟩ := hlists codes hcoded
  obtain ⟨hwarnings, -, hentries⟩ := foldl_use1 (.ofRegion pool1.bytes) (offsets.map fun o : Nat => (o : Int)) {}
  obtain ⟨items, found, hfold, hline, -, hgrows⟩ := hlisted [] _ nofun
  refine ⟨items, found, ?_, hline, hgrows.warnings.trans hwarnings, ?_, ?_⟩
  · rw [append_nil] at hfold
    rw [toItems, disassemble_flatten his]
    simp only [hfold, reverse_reverse]
  · refine hpool.holds.mem_used (fun t ht => ?_) (fun p hp henc => ?_) fun t ht n hn => ?_
    · rcases mem_append.mp ht with ht | ht
      · obtain ⟨row, hrow, rfl⟩ := mem_map.mp (hpool.names_sub t ht)
        exact (hsurvive row hrow).1
      · obtain ⟨c, hc, htext⟩ := mem_filterMap.mp (hpool.extra_sub t ht)
        exact (hcode.survives c hc t (.inl htext)).1
    · -- the names are in use as those of the entry points
      obtain ⟨row, hrow, hname⟩ := mem_map.mp (hpool.names_sub _ (mem_of_mem_places hp))
      have hat : StringAt pool1.bytes p.2 (encodeLossy p.1) := by
        rw [hpool.holds.bytes]
        refine stringAt_written ?_
        rw [places_append]
        exact mem_append_left _ hp
      have hres := resolve?_of_stringAt hat (zero_not_mem_encodeLossy (hname ▸ (hsurvive row hrow).1)) henc
      exact hgrows.used1 _ (hentries _ (mem_map_of_mem (hpool.used p hp)) _ hres)
    · exact hgrows.texts t (hpool.extra_sub t ht) n hn
  · refine hholds2.mem_used (fun t ht => ?_) nofun fun t ht n hn => ?_
    · obtain ⟨c, hc, hname⟩ := mem_filterMap.mp (hextra2 t ht)
      exact (hcode.survives c hc t (.inr hname)).1
    · exact hgrows.scripts t (hextra2 t ht) n hn

theorem disassembleImage_image {ps : Parts} (hps : ps = ⟨(zipWith Row.entry rs offsets).flatten, rs.length, codes,
      pool1.bytes, (buildStrings2 (readCodeLines opcodes code)).bytes⟩)
    {filename : Text} (hsize : (ps.image filename).length < 0x100000000) :
    disassembleImage (ps.image filename) = .ok (join "\n" (layout rows code []), []) := by
  have hlen := hpool.placed.length_eq
  have htable : ps.entryTable.length = ps.entryCount * entrySize := by
    rw [hps]
    exact length_entryTable hlen
  obtain ⟨h, hread, -, -, hc, hs1, hs2, hentries⟩ := Parts.read_image htable hsize
  obtain ⟨hle1, hle2⟩ := ps.length_strings_le filename |>.imp (lt_of_le_of_lt · hsize) (lt_of_le_of_lt · hsize)
  generalize ps.image filename = image at *
  subst hps
  obtain ⟨items, found, hitems, hline, hwarnings, hused1, hused2⟩ := toItems_canonical hcode hrs hpool hcoded hle1 hle2
  have hsurvive := ((forall₂_and_left rs rows).mp (Forall₂.flip hrs)).1
  rw [hpool.readEntryTable (fun row hrow => (hsurvive row hrow).1) hle1] at hentries
  have hlisted : toItems argumentTable (.ofRegion (h.strings1 image)) (.ofRegion (h.strings2 image))
      ((h.entries image).map fun e => (e.nameOffset : Int)) (disassemble opcodes (h.code image)) = (items, found) := by
    rwa [hs1, hs2, hentries, map_nameOffset_asEntry hlen, hc]
  rw [disassembleImage_eq hread hlisted, hs1, hs2, hline, hentries, map_row_asEntry hlen hrs,
    leftoverLines_eq_nil hused1, leftoverLines_eq_nil hused2, hwarnings]
  rfl

end

/-- **A canonical listing is what its image is listed as.** -/
theorem disassembleImage_assembleListing {t : Text} (h : CanonicalListing t) (filename : Text) :
    ∃ image, assembleListing filename t = .ok image ∧
      (image.length < 0x100000000 → disassembleImage image = .ok (t, [])) := by
  obtain ⟨rows, code, rfl, hne, hrows, hcode⟩ := h
  have hrowprops : ∀ l ∈ rows, OneLine l ∧ PlainLine l := by
    intro l hl
    obtain ⟨name, _, _, _, _, _, rfl, -, -, hone, hsurvives, -⟩ := hrows l hl
    exact rowLine_props hone hsurvives.head?_ne
  obtain ⟨rs, hread, hrs⟩ := readRows_append_nil fun l hl => (hrows l hl).readRow
  have hparts := listingParts_join hrowprops hcode.lines hread
  have hrsne : rs ≠ [] := fun he => hne (List.length_eq_zero_iff.mp (by rw [hrs.length_eq, he]; rfl))
  obtain ⟨names, extra, offsets, pool1, codes, hpool, hassemble, hcoded⟩ :=
    assembleParts_ok hrsne fun l hl => accepted_of_mem_readCodeLines hl
  rw [hassemble] at hparts
  exact ⟨_, by rw [assembleListing_eq, hparts]; rfl, disassembleImage_image hcode hrs hpool hcoded rfl⟩

/-- A listing with a row, a plain instruction, a jump by names, and a block of one text. -/
theorem disassembleImage_assembleListing_sample :
    ∃ image, assembleListing "m" (join "\n" (layout ["main,0000002A,1,2,00000000,00000001"]
        ["B 00000005", "JMPG lib, main", "ｱ\\nb", "CALLB 01, 00000001"] [])) = .ok image ∧
      image.length < 0x100000000 ∧
      disassembleImage image = .ok (join "\n" (layout ["main,0000002A,1,2,00000000,00000001"]
        ["B 00000005", "JMPG lib, main", "ｱ\\nb", "CALLB 01, 00000001"] []), []) := by
  have hrow : IsRow "main,0000002A,1,2,00000000,00000001" :=
    ⟨"main", 0x2A, 1, 2, 0, 1, by decide, by decide, by decide, by decide, ⟨by decide, by decide⟩,
      by decide, by decide, by decide, by decide, by decide⟩
  have hlib : IsName "lib" := ⟨by decide, by decide, by decide, by decide, by decide, by decide, by decide⟩
  have hmain : IsName "main" := ⟨by decide, by decide, by decide, by decide, by decide, by decide, by decide⟩
  have htext : IsTextLine "ｱ\\nb" := by
    refine ⟨by decide, by decide, by decide, fun name operands raw h => ?_, by decide, by decide, by decide⟩
    rw [show readCodeLine opcodes "ｱ\\nb" = some (.text "ｱ\nb") by decide] at h
    cases h
  have hb : Encodes ⟨"B", [5, 0, 0, 0], ["00000005"]⟩ [0x21, 5, 0, 0, 0] :=
    ⟨0x21, ⟨"B", .bytes 4⟩, by decide, rfl, by decide, rfl⟩
  have hcode : CanonicalCode false ["B 00000005", "JMPG lib, main", "ｱ\\nb", "CALLB 01, 00000001"] := by
    have htexts := @CanonicalCode.texts ["ｱ\\nb"] 1 1 [] (by decide) (fun t ht => List.mem_singleton.mp ht ▸ htext)
      (by decide) (by decide) .nil
    exact .instruction hb ⟨by decide, by decide⟩ (.names (.inl ⟨rfl, rfl⟩) hlib hmain htexts)
  obtain ⟨image, himage, hback⟩ := disassembleImage_assembleListing
    ⟨_, _, rfl, by decide, List.forall_mem_singleton.mpr hrow, hcode⟩ "m"
  -- the listing is small, so that its image is
  have hread : readRows ([("main,0000002A,1,2,00000000,00000001" : Text)] ++ [[]]) =
      .ok [⟨"main", 0x2A, 1, 2, 0, 1⟩] := by
    decide
  have hsize : image.length < 0x100000000 := by
    have hparts := himage
    rw [assembleListing_eq, listingParts_join (by decide) hcode.lines hread] at hparts
    have hlength : image.length = 129 :=
      Except.ok.inj ((congrArg (Except.map List.length) hparts.symm).trans (by decide +kernel))
    omega
  exact ⟨image, himage, hsize, hback hsize⟩

end Localizer.Script
