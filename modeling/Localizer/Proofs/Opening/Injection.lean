import Localizer.Proofs.Glyph
import Localizer.Proofs.Opening.Extraction
import Localizer.Proofs.Workspace

/-!
# Extraction after texts are put back

The texts of an opening are extracted, and their document is put into the opening as it is. The keys
of the document say where the pointers are, so the run lays the texts anew and writes the result.
What is extracted from that is the same exactly if no pointer whose text was passed over leads to
one that is shown.
-/

namespace Localizer.Opening

open List Text Encoding Job Glyph Json Option Item

variable {bs data : Bytes} {items : List Item} (i : Item) (p q r : UInt8) (texts : Bytes)

/-! ### What a document puts in -/

/-- What the item of a text puts into an opening. -/
def Item.insert (i : Item) : Insert := ⟨i.pointer, i.offset, i.toJson⟩

theorem ofJson_toJson : Insert.ofJson i.toJson = .ok (some i.insert) := by
  have hmember : i.toJson.member? "key" = some (.str i.key) := rfl
  have hsep : i.key.contains '_' = true := by simp [key]
  rw [Insert.ofJson, hmember]
  simp only [hsep, if_true, readKey_key]
  rfl

theorem insertsOf_toJson (items : List Item) :
    insertsOf (.arr (items.map toJson)) = .ok (items.map insert) := by
  have hmap : (items.map toJson).mapM Insert.ofJson = .ok (items.map fun i => some i.insert) := by
    induction items with
    | nil => rfl
    | cons i items ih =>
      rw [map_cons, mapM_cons, ofJson_toJson, ih]
      rfl
  rw [insertsOf, hmap]
  simp

theorem firstOffset?_insert (items : List Item) :
    firstOffset? (items.map insert) = (items.map offset).min?.map fun n : Nat => (n : Int) := by
  have key : ∀ (items : List Item) (m : Nat), (items.map insert).foldl (fun m j => min m j.offset) (m : Int) =
      ((items.map offset).foldl min m : Nat) := by
    intro items
    induction items with
    | nil => exact fun _ => rfl
    | cons i items ih =>
      intro m
      rw [map_cons, map_cons, foldl_cons, foldl_cons, ← ih]
      congr 1
      exact (Nat.cast_min m i.offset).symm
  cases items with
  | nil => rfl
  | cons i items =>
    rw [map_cons, map_cons, firstOffset?, min?_cons', map_some, ← key]
    rfl

/-! ### The run -/

theorem lay_eq {t : Bytes} {p : Nat} (hfits : p + 4 ≤ bs.length) (hp : p < 0x8000000000000000) :
    lay bs p t = .ok (patch (bs ++ t) p bs.length) := by
  have hrange : ¬ ((decide (0x8000000000000000 ≤ (p : Int)) || decide ((p : Int) < -0x8000000000000000)) = true) := by
    simp only [Bool.or_eq_true, decide_eq_true_eq, not_or]
    omega
  have hplace : Word.place? 4 (bs ++ t).length p = some p := by
    have hnonneg : ¬ (p : Int) < 0 := by omega
    have hin : 0 ≤ (p : Int) ∧ (p : Int) + (4 : Nat) ≤ (bs ++ t).length := by
      rw [length_append]
      omega
    simp only [Word.place?, if_neg hnonneg, Bool.and_eq_true, decide_eq_true_eq, if_pos hin, Int.toNat_natCast]
  rw [lay, if_neg hrange, Word.write?, hplace, map_some, elim_some]
  rfl

variable {conv : Converter} {ws : Workspace}

/-- **Texts that are left as they are are laid one after another**, and nothing else happens. -/
theorem yields_layAll (hconv : ∀ i ∈ items, Yields (conv.run i.text) ws i.text ws)
    (hsurvive : ∀ i ∈ items, Survives i.text)
    (hpointer : ∀ i ∈ items, i.pointer < 0x8000000000000000)
    (hfits : ∀ x ∈ laid items, x.1 + 4 ≤ bs.length) :
    Yields (layAll conv (items.map insert) bs) ws (layout (laid items) bs) ws := by
  induction items generalizing bs with
  | nil =>
    refine .pure ?_
    simp [laid, layout, offsetsFrom, patchAll]
  | cons i items ih =>
    rw [forall_mem_cons] at hconv hsurvive hpointer
    rw [laid_cons, forall_mem_cons] at hfits
    have hlay : lay bs i.pointer (code i.text ++ [0]) = _ := lay_eq hfits.1 hpointer.1
    have hroom : ∀ x ∈ laid items, x.1 + 4 ≤ (patch (bs ++ (code i.text ++ [0])) i.pointer bs.length).length := by
      intro x hx
      have hx := hfits.2 x hx
      rw [patch_append hfits.1, length_append, length_patch hfits.1]
      omega
    rw [laid_cons, layout_cons hfits.2 _ hfits.1, map_cons, layAll]
    refine hconv.1.bind ?_
    refine .bind (.ofExcept hsurvive.1.terminated_eq) (.bind (.ofExcept hlay) ?_)
    exact ih hconv.2 hsurvive.2 hpointer.2 hroom

/-- Writes the opening in which the texts of items are laid anew. Its directory is made if there are
any. -/
def store (target : Text) (data : Bytes) (items : List Item) : Job Unit := do
  if !items.isEmpty then makeDirs (Path.parent target)
  writeBytes target (rebuilt data items)

theorem run_inject {source document target d : Text}
    (hsource : Yields (readBytes source) ws data ws) (hdocument : Yields (readUtf8Lossy document) ws d ws)
    (hjson : read d = .ok (.arr (items.map toJson)))
    (hlay : ∀ first, (items.map offset).min? = some first →
      Yields (layAll conv (items.map insert) (data.take first)) ws (layout (laid items) (data.take first)) ws) :
    (inject conv source document target).run.run ws = (store target data items).run.run ws := by
  have hdoc : Yields (Job.ofExcept (read d)) ws _ ws := .ofExcept hjson
  have hinserts : Yields (Job.ofExcept (insertsOf (.arr (items.map toJson)))) ws _ ws :=
    .ofExcept (insertsOf_toJson items)
  rw [inject, hsource.run_bind, hdocument.run_bind, hdoc.run_bind, hinserts.run_bind, firstOffset?_insert, store, rebuilt]
  cases hfirst : (items.map offset).min? with
  | none =>
    rw [min?_eq_none_iff, map_eq_nil_iff] at hfirst
    subst hfirst
    rfl
  | some first =>
    have hne : items.isEmpty = false := by
      cases items with
      | nil => cases hfirst
      | cons i items => rfl
    have hbefore : bytesBefore data (first : Int) = data.take first := by
      rw [bytesBefore, if_neg (by omega), Int.toNat_natCast]
    simp only [map_some, elim_some, hne, hbefore]
    rw [(hlay first hfirst).run_bind]
    rfl

section

variable {voices : VoiceTable} {names : Dialogue.Album} {table : GlyphTable} {source document target d : Text}

variable (target) in
/-- **Putting back what was extracted is laying it anew.** -/
theorem run_inject_extracted (htable : DrawsAll table)
    (hsource : Yields (readBytes source) ws data ws)
    (hextract : extract voices names data = .ok items)
    (hend : ∀ i ∈ items, ∃ p, endPosition? data = some p ∧ p < i.offset)
    (hsurvive : ∀ i ∈ items, Survives i.text)
    (hconv : ∀ i ∈ items, Converter.text ⟨defaultRules, table⟩ i.text = i.text)
    (hdocument : Yields (readUtf8Lossy document) ws d ws)
    (hjson : read d = .ok (.arr (items.map toJson))) :
    (inject ⟨defaultRules, table⟩ source document target).run.run ws =
      (store target data items).run.run ws := by
  refine run_inject hsource hdocument hjson ?_
  intro first hfirst
  rcases eq_nil_or_extracted hextract hend with rfl | ⟨body, p, -, h⟩
  · cases hfirst
  · refine yields_layAll ?_ hsurvive ?_ (h.of_first hfirst).2.2
    · exact fun i hi => htable.yields_run (hconv i hi) ws
    · exact fun i hi => (h.pointer_lt hi).trans (by decide)

/-! ### Extraction from what was written -/

/-- The texts of an opening are those of the given items, with the same pointers and speakers. -/
def ShowsAgain (voices : VoiceTable) (names : Dialogue.Album) (p : Text) (items : List Item)
    (ws : Workspace) : Prop :=
  ∃ items', Yields (load p voices names) ws items' ws ∧ items'.map Item.content = items.map Item.content

theorem yields_load_iff (h : Yields (readBytes source) ws data ws) :
    Yields (load source voices names) ws items ws ↔ extract voices names data = .ok items := by
  rw [load, h.bind_iff, yields_ofExcept, and_iff_left rfl]

theorem showsAgain_iff (h : Yields (readBytes source) ws data ws) :
    ShowsAgain voices names source items ws ↔
      ∃ items', extract voices names data = .ok items' ∧ items'.map content = items.map content := by
  simp only [ShowsAgain, yields_load_iff h]

theorem readBytes_of_store {ws' : Workspace} (h : Yields (store target data items) ws () ws') :
    Yields (readBytes target) ws' (rebuilt data items) ws' := by
  rw [store] at h
  split at h
  · obtain ⟨_, ws₁, -, hwrite⟩ := yields_bind.mp h
    exact readBytes_of_writeBytes hwrite
  · exact readBytes_of_writeBytes h

variable (target) in
/-- **Texts that are put back unchanged.** They are laid anew, and this fails only where the result
cannot be written. Then the same texts are extracted again exactly if each pointer leads to what it
led to before. As long as offsets fit into pointers, this is so for each text that was extracted,
and what matters is that no pointer whose text was passed over leads to one that is shown. -/
theorem showsAgain_of_inject {fontText : Text} (hfont : Glyph.readTable fontText = .ok table)
    (hsource : Job.Yields (Job.readBytes source) ws data ws) (hload : Job.Yields (load source voices names) ws items ws)
    (hend : ∀ i ∈ items, ∃ p, endPosition? data = some p ∧ p < i.offset)
    (hbreak : ∀ i ∈ items, ∀ raw, Cp932.decode? (upTo 0 (data.drop i.offset)) = some raw → ¬ writtenBreak <:+: raw)
    (hconv : ∀ i ∈ items, Glyph.Converter.text ⟨Glyph.defaultRules, table⟩ i.text = i.text)
    (hback : ∀ i ∈ items, Cp932.ComesBack i.text) (hdocument : Job.Yields (Job.readUtf8Lossy document) ws d ws)
    (hjson : Json.read d = .ok (.arr (items.map Item.toJson))) :
    (inject ⟨Glyph.defaultRules, table⟩ source document target).run.run ws = (store target data items).run.run ws ∧
      ∀ ws', Job.Yields (inject ⟨Glyph.defaultRules, table⟩ source document target) ws () ws' →
        (ShowsAgain voices names target items ws' ↔ ∀ s ∈ sites none (commands data),
          shownText (rebuilt data items) (movedOffset (rebuilt data items) items s) = shownText data s.offset) ∧
        ((rebuilt data items).length ≤ 0x100000000 →
          (ShowsAgain voices names target items ws' ↔ ∀ s ∈ sites none (commands data),
            shownText data s.offset = .ok none → shownText (rebuilt data items) s.offset = .ok none)) := by
  have hextract : extract voices names data = .ok items := (yields_load_iff hsource).mp hload
  have hsurvive := survives_of_extract hextract hbreak hback
  have hrun := run_inject_extracted target (Glyph.drawsAll_of_readTable hfont) hsource hextract hend hsurvive hconv hdocument
    hjson
  refine ⟨hrun, ?_⟩
  intro ws' hyields
  have hstore : Yields (store target data items) ws () ws' := hrun.symm.trans hyields
  have hshows := (showsAgain_iff (readBytes_of_store hstore)).trans (extract_rebuilt_iff hextract hend)
  exact ⟨hshows, fun hfits => hshows.trans (forall_leads_iff hextract hend hsurvive hfits)⟩

end

/-! ### Three commands -/

/-- An opening with three commands that show texts, at the given offsets. The texts begin at 32. -/
def threeTexts (p q r : UInt8) (texts : Bytes) : Bytes :=
  [0x5D, 8, 0, 0, p, 0, 0, 0, 0x5D, 8, 0, 0, q, 0, 0, 0, 0x5D, 8, 0, 0, r, 0, 0, 0, 0, 4, 0, 0, 0, 4, 0, 0] ++ texts

theorem command?_showing (rest : Bytes) :
    command? (0x5D :: 8 :: 0 :: 0 :: p :: 0 :: 0 :: 0 :: rest) = some ⟨textCode, 8, 0, p.toNat⟩ := by
  have hlen : (8 : UInt8).toNat ≤ (0x5D :: 8 :: 0 :: 0 :: p :: 0 :: 0 :: 0 :: rest).length := by
    simp
  rw [command?_eq (by decide) (by decide) hlen]
  simp [argumentAt, Word.u32At, Word.value, textCode]

theorem commandsFrom_showing (parts pos : Nat) (p : UInt8) (rest : Bytes) :
    commandsFrom (parts + 1) pos (0x5D :: 8 :: 0 :: 0 :: p :: 0 :: 0 :: 0 :: rest) =
      (pos, ⟨textCode, 8, 0, p.toNat⟩) :: commandsFrom (parts + 1) (pos + 8) rest := by
  rw [commandsFrom_of_some (command?_showing p rest)]
  rfl

theorem commands_threeTexts : commands (threeTexts p q r texts) =
      [(0, ⟨textCode, 8, 0, p.toNat⟩), (8, ⟨textCode, 8, 0, q.toNat⟩), (16, ⟨textCode, 8, 0, r.toNat⟩),
        (24, ⟨endCode, 4, 0, 0⟩), (28, ⟨endCode, 4, 0, 0⟩)] := by
  have hend : ∀ rest : Bytes, command? (0 :: 4 :: 0 :: 0 :: rest) = some ⟨endCode, 4, 0, 0⟩ := fun rest =>
    command?_eq (by decide) (by decide) (by simp)
  have hends : ∀ rest : Bytes, commandsFrom 2 24 (0 :: 4 :: 0 :: 0 :: 0 :: 4 :: 0 :: 0 :: rest) =
      [(24, ⟨endCode, 4, 0, 0⟩), (28, ⟨endCode, 4, 0, 0⟩)] := by
    intro rest
    rw [commandsFrom_of_some (hend _), if_neg (by decide)]
    exact congrArg _ (commandsFrom_of_some (hend _))
  exact (commandsFrom_showing 1 0 p _).trans (congrArg _ ((commandsFrom_showing 1 8 q _).trans
    (congrArg _ ((commandsFrom_showing 1 16 r _).trans (congrArg _ (hends texts))))))

def openingDesk (data : Bytes) (document : Text) : Workspace where
  cwd := "/w"
  files := [(["w", "d.dat"], { data := data }), (["w", "d.json"], { data := Utf8.encode document })]

def itemText (key text : Text) : Text :=
  "\x7b\"key\":\"" ++ key ++ "\",\"original\":\"" ++ text ++ "\",\"translation\":\"\",\"stage\":0,\"context\":\"\"\x7d"

def twoItemsText (i j : Text) : Text := "[" ++ i ++ "," ++ j ++ "]"

theorem readBytes_openingDesk (data : Bytes) (document : Text) :
    Yields (readBytes "d.dat") (openingDesk data document) data (openingDesk data document) :=
  yields_readBytes.mpr ⟨_, rfl, rfl, rfl⟩

theorem readUtf8Lossy_openingDesk (data : Bytes) (document : Text) :
    Yields (readUtf8Lossy "d.json") (openingDesk data document) (unifyNewlines document)
      (openingDesk data document) := by
  have hbytes : Yields (readBytes "d.json") (openingDesk data document) (Utf8.encode document)
      (openingDesk data document) := yields_readBytes.mpr ⟨_, rfl, rfl, rfl⟩
  refine hbytes.bind (.pure ?_)
  rw [Utf8.decodeLossy_encode]

theorem makeDirs_openingDesk (data : Bytes) (document : Text) :
    Yields (makeDirs (Path.parent "o.dat")) (openingDesk data document) () (openingDesk data document) :=
  rfl

theorem writeBytes_openingDesk (data new : Bytes) (document : Text) :
    Yields (writeBytes "o.dat" new) (openingDesk data document) ()
      ((openingDesk data document).setFile ["w", "o.dat"] { data := new }) :=
  yields_writeFile.mpr ⟨_, rfl, rfl, by decide, rfl⟩

theorem store_openingDesk (data : Bytes) (document : Text) (items : List Item) :
    Yields (store "o.dat" data items) (openingDesk data document) ()
      ((openingDesk data document).setFile ["w", "o.dat"] { data := rebuilt data items }) := by
  have hwrite := writeBytes_openingDesk data (rebuilt data items) document
  rw [store]
  split
  · exact (makeDirs_openingDesk data document).bind hwrite
  · exact hwrite

theorem endPosition?_threeTexts : endPosition? (threeTexts p q r texts) = some 28 := by
  rw [endPosition?, commands_threeTexts]
  rfl

theorem noBreak_of_short
    (h : ∀ i ∈ items, Cp932.decode? (upTo 0 (data.drop i.offset)) = some i.text ∧ i.text.length < writtenBreak.length) :
    ∀ i ∈ items, ∀ raw, Cp932.decode? (upTo 0 (data.drop i.offset)) = some raw → ¬ writtenBreak <:+: raw := by
  intro i hi raw hraw hin
  obtain ⟨hread, hshort⟩ := h i hi
  obtain rfl := some.inj (hread.symm.trans hraw)
  exact absurd hin.length_le (Nat.not_le.mpr hshort)

theorem sites_threeTexts :
    sites none (commands (threeTexts p q r texts)) =
      [⟨4, p.toNat, none⟩, ⟨12, q.toNat, none⟩, ⟨20, r.toNat, none⟩] := by
  rw [commands_threeTexts]
  rfl

/-- An opening whose texts are shown in the other order than they stand. One offset leads nowhere.
-/
def swapped : Bytes := threeTexts 34 0 32 [0x61, 0, 0x62, 0]

def swappedItems : List Item := [⟨4, 34, "b", []⟩, ⟨20, 32, "a", []⟩]

def swappedText : Text := twoItemsText (itemText "0x4_0x22" "b") (itemText "0x14_0x20" "a")

theorem extract_swapped : extract [] [] swapped = .ok swappedItems := by
  rw [extract, swapped, commands_threeTexts]
  decide

set_option maxRecDepth 4000 in
theorem read_swappedText :
    read (unifyNewlines swappedText) = .ok (.arr (swappedItems.map toJson)) := by
  rfl

/-- These texts are extracted again, though each of them gets another offset. -/
theorem showsAgain_of_inject_swapped :
    Job.Yields (load "d.dat" [] []) (openingDesk swapped swappedText) swappedItems (openingDesk swapped swappedText) ∧
      ∃ ws', Job.Yields (inject ⟨Glyph.defaultRules, []⟩ "d.dat" "d.json" "o.dat") (openingDesk swapped swappedText) () ws' ∧
        ShowsAgain [] [] "o.dat" swappedItems ws' := by
  have hsource := readBytes_openingDesk swapped swappedText
  have hload := (yields_load_iff hsource).mpr extract_swapped
  have hlt : ∀ i ∈ swappedItems, 28 < i.offset := by decide
  obtain ⟨hrun, hagain⟩ := showsAgain_of_inject "o.dat" (show Glyph.readTable [] = .ok [] from rfl) hsource hload
    (fun i hi => ⟨28, endPosition?_threeTexts _ _ _ _, hlt i hi⟩) (noBreak_of_short (by decide)) (by decide) (by decide)
    (readUtf8Lossy_openingDesk swapped swappedText) read_swappedText
  have hyields := hrun.trans (store_openingDesk swapped swappedText swappedItems)
  refine ⟨hload, _, hyields, ((hagain _ hyields).2 (by decide)).mpr ?_⟩
  rw [swapped, sites_threeTexts]
  decide

/-- An opening with a zero byte more between its texts, to which an offset leads. -/
def gapped : Bytes := threeTexts 32 34 35 [0x61, 0, 0, 0x62, 0]

def gappedItems : List Item := [⟨4, 32, "a", []⟩, ⟨20, 35, "b", []⟩]

def gappedText : Text := twoItemsText (itemText "0x4_0x20" "a") (itemText "0x14_0x23" "b")

set_option maxRecDepth 4000 in
theorem read_gappedText : read (unifyNewlines gappedText) = .ok (.arr (gappedItems.map toJson)) := by
  rfl

theorem extract_gapped : extract [] [] gapped = .ok gappedItems := by
  rw [extract, gapped, commands_threeTexts]
  decide

/-- **A text can be shown where none was before.** The texts move together, so that the offset of
the zero byte leads to the second one. -/
theorem inject_shows_gapped :
    endPosition? gapped = some 28 ∧
      (∀ i ∈ gappedItems, 28 < i.offset ∧ Glyph.Converter.text ⟨Glyph.defaultRules, []⟩ i.text = i.text ∧
        Cp932.ComesBack i.text ∧ '\\' ∉ i.text) ∧
      Job.Yields (load "d.dat" [] []) (openingDesk gapped gappedText) gappedItems (openingDesk gapped gappedText) ∧
      ∃ ws', Job.Yields (inject ⟨Glyph.defaultRules, []⟩ "d.dat" "d.json" "o.dat") (openingDesk gapped gappedText) () ws' ∧
        Job.Yields (load "o.dat" [] []) ws' [⟨4, 32, "a", []⟩, ⟨12, 34, "b", []⟩, ⟨20, 34, "b", []⟩] ws' := by
  have hsource := readBytes_openingDesk gapped gappedText
  have hend : endPosition? gapped = some 28 := endPosition?_threeTexts _ _ _ _
  have hplain : ∀ i ∈ gappedItems, 28 < i.offset ∧ Glyph.Converter.text ⟨Glyph.defaultRules, []⟩ i.text = i.text ∧
      Cp932.ComesBack i.text ∧ '\\' ∉ i.text := by decide
  have hsurvive := survives_of_extract extract_gapped (noBreak_of_short (by decide)) fun i hi => (hplain i hi).2.2.1
  have hrun := run_inject_extracted "o.dat" (Glyph.drawsAll_of_readTable (t := []) rfl) hsource extract_gapped
    (fun i hi => ⟨28, hend, (hplain i hi).1⟩) hsurvive (fun i hi => (hplain i hi).2.1)
    (readUtf8Lossy_openingDesk gapped gappedText) read_gappedText
  have hstore := store_openingDesk gapped gappedText gappedItems
  refine ⟨hend, hplain, (yields_load_iff hsource).mpr extract_gapped, _, hrun.trans hstore, ?_⟩
  rw [yields_load_iff (readBytes_of_store hstore)]
  have hnew : rebuilt gapped gappedItems = threeTexts 32 34 34 [0x61, 0, 0x62, 0] := by decide
  rw [hnew, extract, commands_threeTexts]
  decide

end Localizer.Opening
