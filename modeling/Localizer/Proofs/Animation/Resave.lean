import Localizer.Proofs.Animation.Codec

/-!
# Files saved again

Saving an animation that was read from a file gives the file again, byte for byte, as long as the
file is well formed: its table and its key blocks are complete, its names can be read, its key
frames are in order, and its entries agree on the sizes of their pictures. Every such file is the
file of an animation, found by reading each record on its own, and a file stays the same when it is
read and written once more.
-/

namespace Localizer.Animation

open List Text Encoding Word

variable {entry : Bytes} {pictures : List Picture} {a : Animation}

/-! ### Records written again -/

section

variable {bs : Bytes} {i : Nat}

theorem u32_wordAt (h : i + 4 ≤ bs.length) : u32 (wordAt bs i) = (bs.drop i).take 4 := by
  have hlen : ((bs.drop i).take 4).length = 4 := by
    simp only [length_take, length_drop]
    omega
  exact u32_value hlen

theorem u32_signedAt (h : i + 4 ≤ bs.length) : u32 (signedAt bs i) = (bs.drop i).take 4 := by
  rw [← u32_wordAt h, signedAt, wordAt, u32_signed (u32At_lt bs i)]

theorem fitsUnsigned_wordAt (bs : Bytes) (i : Nat) : Word.FitsUnsigned (wordAt bs i) := by
  have hlt := u32At_lt bs i
  simp only [Word.FitsUnsigned, wordAt]
  omega

theorem fitsSigned_signedAt (bs : Bytes) (i : Nat) : Word.FitsSigned (signedAt bs i) :=
  fitsSigned_signed (u32At_lt bs i)

end

section

variable {size n : Nat} {bs : Bytes}

theorem length_chunks (size n : Nat) (bs : Bytes) : (chunks size n bs).length = n := by
  induction n generalizing bs with
  | zero => rfl
  | succ n ih => rw [chunks, length_cons, ih]

theorem flatten_chunks (h : bs.length = size * n) : (chunks size n bs).flatten = bs := by
  induction n generalizing bs with
  | zero => exact (length_eq_zero_iff.mp h).symm
  | succ n ih =>
    have hrest : (bs.drop size).length = size * n := by
      rw [length_drop, h, Nat.mul_succ, Nat.add_sub_cancel]
    rw [chunks, flatten_cons, ih hrest, take_append_drop]

theorem length_of_mem_chunks (h : bs.length = size * n) :
    ∀ r ∈ chunks size n bs, r.length = size := by
  induction n generalizing bs with
  | zero => simp [chunks]
  | succ n ih =>
    have hrest : (bs.drop size).length = size * n := by
      rw [length_drop, h, Nat.mul_succ, Nat.add_sub_cancel]
    intro r hr
    rcases mem_cons.mp hr with rfl | hr
    · rw [length_take, h, Nat.mul_succ]
      exact Nat.min_eq_left (Nat.le_add_left _ _)
    · exact ih hrest r hr

theorem row_of_chunks {ns : List Int} (h : ns.map u32 = chunks 4 n bs) (hlen : bs.length = 4 * n) :
    row ns = bs := by
  rw [row, flatMap_def, h, flatten_chunks hlen]

end

theorem packs_readKey (r : Bytes) : (readKey r).Packs := by
  refine ⟨?_, ?_⟩
  · simp only [readKey, forall_mem_cons]
    simp [fitsUnsigned_wordAt]
  · simp only [readKey, forall_mem_cons]
    simp [fitsSigned_signedAt]

/-- **A key frame that was read is written as it was.** -/
theorem row_words_readKey {r : Bytes} (h : r.length = 44) : row (readKey r).words = r := by
  refine row_of_chunks (n := 11) ?_ h
  simp [Key.words, readKey, chunks, u32_wordAt, u32_signedAt, h, drop_drop]

/-! ### Well-formed files -/

/-- A table entry that is complete, with a name in UTF-8 of at most 31 bytes, none of them zero,
that only zeros follow, and with a size that can be read with and without a sign. -/
structure IsEntry (entry : Bytes) : Prop where
  complete : entry.length = 64
  name : ∃ name bs, Utf8.encode? name = some bs ∧ bs.length ≤ 31 ∧ 0 ∉ bs ∧
    entry.take 32 = bs ++ replicate (32 - bs.length) 0
  size : ∀ i ∈ [48, 52], Word.u32At entry i < 0x80000000

/-- A key block that is complete, with its key frames in the order of their times. -/
structure IsBlock (block : Bytes) : Prop where
  complete : block.length = 8 + 44 * Word.u32At block 4
  ordered : (chunks 44 (Word.u32At block 4) (block.drop 8)).Pairwise fun r s => Word.u32At r 0 ≤ Word.u32At s 0

/-- Entries of the same name have the same size. -/
def AgreeOnSizes (entries : List Bytes) : Prop :=
  ∀ e ∈ entries, ∀ f ∈ entries, e.take 32 = f.take 32 → (e.drop 48).take 8 = (f.drop 48).take 8

/-- A file with a mark, a rate that is not zero, a complete table, a key block for each entry of the
table, and nothing more. -/
structure WellFormed (file : Bytes) : Prop where
  header : 24 ≤ file.length
  mark : file.take 4 = magic
  rate : Word.u32At file 4 ≠ 0
  body : ∃ parts : List (Bytes × Bytes),
    file.drop 24 = (parts.map (·.1)).flatten ++ (parts.map (·.2)).flatten ∧ parts.length = Word.u32At file 20 ∧
      (∀ p ∈ parts, IsEntry p.1 ∧ IsBlock p.2) ∧ AgreeOnSizes (parts.map (·.1))

/-! ### Entries and blocks written again -/

theorem IsEntry.nameFits (h : IsEntry entry) :
    NameFits (entryName entry) ∧ nameField (entryName entry) = entry.take 32 := by
  obtain ⟨name, bs, hencode, hshort, hzero, hbytes⟩ := h.name
  obtain ⟨hwhole, rfl⟩ := Utf8.encode?_eq_some_iff.mp hencode
  have hfits : NameFits name := ⟨hwhole, Utf8.zero_notMem_of_encode hzero, hshort⟩
  have hfield : nameField name = entry.take 32 := by rw [nameField_eq hfits, hbytes]
  have hname : entryName entry = name := by
    rw [← take_append_drop 32 entry, ← hfield]
    exact entryName_nameField hfits _
  rw [hname]
  exact ⟨hfits, hfield⟩

def entryPicture (entry : Bytes) : Picture :=
  ⟨entryName entry, wordAt entry 48, wordAt entry 52, none⟩

/-- **A table entry that was read is written as it was**, if its picture has the size that it gives.
-/
theorem entry_readLayer (h : IsEntry entry)
    (hsize : pictureSize pictures (entryName entry) = (wordAt entry 48, wordAt entry 52))
    (ps : List Picture) (id : Int) (keys : List Key) :
    (readLayer ps entry id keys).entry pictures = entry := by
  have hwords : row [signedAt entry 32, wordAt entry 36, wordAt entry 40, wordAt entry 44, wordAt entry 48,
      wordAt entry 52, wordAt entry 56, wordAt entry 60] = entry.drop 32 := by
    refine row_of_chunks (n := 8) ?_ (by rw [length_drop, h.complete])
    simp [chunks, u32_wordAt, u32_signedAt, h.complete, drop_drop]
  simp only [Layer.entry, Layer.words, readLayer, hsize]
  rw [hwords, h.nameFits.2, take_append_drop]

def blockKeys (block : Bytes) : List Key :=
  (chunks 44 (Word.u32At block 4) (block.drop 8)).map readKey

section

variable {block : Bytes} (h : IsBlock block)
include h

theorem IsBlock.inOrder_blockKeys : inOrder (blockKeys block) = blockKeys block := by
  refine mergeSort_of_pairwise (pairwise_map.mpr (h.ordered.imp fun hle => ?_))
  exact decide_eq_true (Int.ofNat_le.mpr hle)

/-- **A key block that was read is written as it was.** -/
theorem block_readLayer (ps : List Picture) (entry : Bytes) :
    (readLayer ps entry (wordAt block 0) (blockKeys block)).block = block := by
  have hcount : ((blockKeys block).length : Int) = wordAt block 4 := by
    rw [blockKeys, length_map, length_chunks]
    rfl
  have hbody : (block.drop 8).length = 44 * u32At block 4 := by
    rw [length_drop, h.complete, Nat.add_sub_cancel_left]
  have hhead : row [wordAt block 0, wordAt block 4] = block.take 8 := by
    have hlong : 8 ≤ block.length := by rw [h.complete]; omega
    have hfirst : 0 + 4 ≤ block.length := by omega
    refine row_of_chunks (n := 2) ?_ (by rw [length_take, Nat.min_eq_left hlong])
    simp [chunks, u32_wordAt hfirst, u32_wordAt hlong, take_take, drop_take]
  have hkeys : (blockKeys block).map (fun k => row k.words) = chunks 44 (u32At block 4) (block.drop 8) := by
    rw [blockKeys, map_map]
    refine (map_congr_left fun r hr => ?_).trans (map_id _)
    exact row_words_readKey (length_of_mem_chunks hbody r hr)
  simp only [Layer.block, readLayer]
  rw [h.inOrder_blockKeys, hcount, hhead, hkeys, flatten_chunks hbody, take_append_drop]

end

theorem packs_readLayer {block : Bytes} (hentry : IsEntry entry) (ps : List Picture) :
    (readLayer ps entry (wordAt block 0) (blockKeys block)).Packs := by
  have hcount : ((blockKeys block).length : Int) = wordAt block 4 := by
    rw [blockKeys, length_map, length_chunks]
    rfl
  refine ⟨?_, fitsSigned_signedAt entry 32, hentry.nameFits.1, ?_⟩
  · simp only [readLayer, hcount, forall_mem_cons]
    simp [fitsUnsigned_wordAt]
  · intro k hk
    obtain ⟨r, -, rfl⟩ := mem_map.mp hk
    exact packs_readKey r

/-! ### Files written again -/

theorem pictureSize_eq {name : Text} {size : Int × Int} (hexists : ∃ p ∈ pictures, p.name = name)
    (hsize : ∀ p ∈ pictures, p.name = name → (p.width, p.height) = size) :
    pictureSize pictures name = size := by
  have hfound : (pictures.reverse.find? fun p => p.name = name).isSome = true := by
    obtain ⟨p, hp, hname⟩ := hexists
    rw [find?_isSome]
    exact ⟨p, mem_reverse.mpr hp, decide_eq_true hname⟩
  obtain ⟨p, hp⟩ := Option.isSome_iff_exists.mp hfound
  have hname : p.name = name := by simpa using find?_some hp
  rw [pictureSize, hp]
  exact hsize p (mem_reverse.mp (mem_of_find?_eq_some hp)) hname

section

variable {entries : List Bytes} (hentries : ∀ e ∈ entries, IsEntry e)
include hentries

theorem pictureSize_entries (hagree : AgreeOnSizes entries) (hmem : entry ∈ entries) :
    pictureSize (entries.map entryPicture) (entryName entry) =
      (wordAt entry 48, wordAt entry 52) := by
  refine pictureSize_eq ⟨entryPicture entry, mem_map_of_mem hmem, rfl⟩ fun p hp hname => ?_
  obtain ⟨e, he, rfl⟩ := mem_map.mp hp
  have hfield : e.take 32 = entry.take 32 := by
    rw [← (hentries e he).nameFits.2, ← (hentries entry hmem).nameFits.2, show entryName e = entryName entry from hname]
  have hword : ∀ b : Bytes, u32At b 48 = u32At ((b.drop 48).take 8) 0 ∧
      u32At b 52 = u32At ((b.drop 48).take 8) 4 := by
    simp [u32At, drop_take, take_take, drop_drop]
  simp only [entryPicture, wordAt, hword e, hword entry, hagree e he entry hmem hfield]

theorem sizesFit_entries : SizesFit (entries.map entryPicture) := by
  intro p hp n hn
  obtain ⟨e, he, rfl⟩ := mem_map.mp hp
  have hsize := (hentries e he).size
  simp only [entryPicture, mem_cons, not_mem_nil, or_false] at hn
  rcases hn with rfl | rfl
  · exact ⟨Int.natCast_nonneg _, Int.ofNat_lt.mpr (hsize 48 (by simp))⟩
  · exact ⟨Int.natCast_nonneg _, Int.ofNat_lt.mpr (hsize 52 (by simp))⟩

end

def partLayer (p : Bytes × Bytes) : Layer := readLayer [] p.1 (wordAt p.2 0) (blockKeys p.2)

/-- The animation that the header of a file has with table entries and key blocks. -/
def ofParts (file : Bytes) (parts : List (Bytes × Bytes)) : Animation where
  tickRate := wordAt file 4
  totalFrames := wordAt file 8
  markerA := wordAt file 12 % 0x10000
  markerB := wordAt file 12 / 0x10000
  headerFlags := wordAt file 16
  pictures := (parts.map (·.1)).map entryPicture
  layers := parts.map partLayer

section

variable {file : Bytes} {parts : List (Bytes × Bytes)} (hparts : ∀ p ∈ parts, IsEntry p.1 ∧ IsBlock p.2)
  (hcount : parts.length = u32At file 20)
include hparts

theorem isEntry_of_mem_parts : ∀ e ∈ parts.map (·.1), IsEntry e := by
  intro e he
  obtain ⟨p, hp, rfl⟩ := mem_map.mp he
  exact (hparts p hp).1

include hcount

theorem packs_ofParts : (ofParts file parts).Packs := by
  refine ⟨?_, ?_, sizesFit_entries (isEntry_of_mem_parts hparts), ?_⟩
  · have hlayers : ((ofParts file parts).layers.length : Int) = wordAt file 20 := by
      rw [ofParts, length_map, hcount]
      rfl
    simp only [hlayers, forall_mem_cons]
    simp [ofParts, fitsUnsigned_wordAt]
  · obtain ⟨hlow, hhigh⟩ := fitsUnsigned_wordAt file 12
    simp only [ofParts, forall_mem_cons]
    simp only [not_mem_nil, false_imp_iff, implies_true, and_true]
    omega
  · intro l hl
    obtain ⟨p, hp, rfl⟩ := mem_map.mp hl
    exact packs_readLayer (hparts p hp).1 []

theorem file_ofParts (hmark : file.take 4 = magic) (hheader : 24 ≤ file.length)
    (hbody : file.drop 24 = (parts.map (·.1)).flatten ++ (parts.map (·.2)).flatten)
    (hagree : AgreeOnSizes (parts.map (·.1))) : (ofParts file parts).file = file := by
  have hentries := isEntry_of_mem_parts hparts
  have hmarks : wordAt file 12 / 0x10000 * 0x10000 + wordAt file 12 % 0x10000 = wordAt file 12 := by omega
  have hlayers : ((parts.map partLayer).length : Int) = wordAt file 20 := by
    rw [length_map, hcount]
    rfl
  have hwords : row (ofParts file parts).words = (file.drop 4).take 20 := by
    have hlen : ((file.drop 4).take 20).length = 4 * 5 := by
      rw [length_take, length_drop]
      omega
    have hword : ∀ i, i + 4 ≤ 24 → u32 (wordAt file i) = (file.drop i).take 4 := fun i hi =>
      u32_wordAt (hi.trans hheader)
    refine row_of_chunks (n := 5) ?_ hlen
    simp only [words, ofParts, hmarks, hlayers]
    simp [chunks, hword, take_take, drop_take, drop_drop]
  have htable : (ofParts file parts).layers.map (·.entry (ofParts file parts).pictures) = parts.map (·.1) := by
    rw [ofParts, map_map]
    refine map_congr_left fun p hp => ?_
    exact entry_readLayer (hparts p hp).1 (pictureSize_entries hentries hagree (mem_map_of_mem hp)) _ _ _
  have hblocks : (ofParts file parts).layers.map Layer.block = parts.map (·.2) := by
    rw [ofParts, map_map]
    exact map_congr_left fun p hp => block_readLayer (hparts p hp).2 _ _
  rw [Animation.file, hwords, htable, hblocks, ← hbody, ← hmark, show 24 = 4 + 20 from rfl, ← drop_drop,
    take_append_drop, take_append_drop]

end

/-- **A well-formed file is the file of an animation.** -/
theorem exists_file_eq {file : Bytes} (h : WellFormed file) :
    ∃ a : Animation, 0 < a.tickRate ∧ a.Packs ∧ a.file = file := by
  obtain ⟨parts, hbody, hcount, hparts, hagree⟩ := h.body
  have hrate : 0 < wordAt file 4 := Int.natCast_pos.mpr (Nat.pos_of_ne_zero h.rate)
  exact ⟨ofParts file parts, hrate, packs_ofParts hparts hcount,
    file_ofParts hparts hcount h.mark h.header hbody hagree⟩

/-! ### Files read and written -/

section

variable (pictures : List Picture) {names : List Text} {name : Text}

theorem pictureSize_storedPictures (h : name ∈ names) :
    pictureSize (storedPictures pictures names) name = pictureSize pictures name := by
  refine pictureSize_eq ⟨storedPicture pictures name, mem_map_of_mem (mem_eraseDups.mpr h), rfl⟩ ?_
  rintro p hp rfl
  obtain ⟨n, -, rfl⟩ := mem_map.mp hp
  rfl

end

theorem inOrder_inOrder (ks : List Key) : inOrder (inOrder ks) = inOrder ks := by
  refine mergeSort_of_pairwise ((stablySorted_inOrder ks).ordered.imp fun hle => ?_)
  exact decide_eq_true hle

theorem file_stored (a : Animation) : a.stored.file = a.file := by
  have hwords : a.stored.words = a.words := by simp [words, stored]
  have htable : a.stored.layers.map (·.entry a.stored.pictures) = a.layers.map (·.entry a.pictures) := by
    rw [stored, map_map]
    refine map_congr_left fun l hl => ?_
    have hsize := pictureSize_storedPictures a.pictures (mem_map_of_mem (f := (·.name)) hl)
    simp [storedLayer, Layer.entry, Layer.words, hsize]
  have hblocks : a.stored.layers.map Layer.block = a.layers.map Layer.block := by
    rw [stored, map_map]
    refine map_congr_left fun l _ => ?_
    simp [storedLayer, Layer.block, inOrder_inOrder, (inOrder_perm l.keys).length_eq]
  rw [file, file, hwords, htable, hblocks]

theorem Packs.stored (h : a.Packs) : a.stored.Packs := by
  refine ⟨?_, h.markers, ?_, ?_⟩
  · have hcount : a.stored.layers.length = a.layers.length := length_map _
    rw [hcount]
    exact h.unsigned
  · intro p hp n hn
    obtain ⟨name, -, rfl⟩ := mem_map.mp hp
    exact pictureSize_fits h.sizes name n hn
  · intro l hl
    obtain ⟨m, hm, rfl⟩ := mem_map.mp hl
    have hp := h.layers m hm
    refine ⟨?_, hp.parent, hp.name, fun k hk => packs_of_mem_inOrder hp hk⟩
    simpa [storedLayer, (inOrder_perm m.keys).length_eq] using hp.unsigned

theorem encode_stored (h : a.Packs) (hrate : 0 < a.tickRate) : encode a.stored = .ok a.file := by
  rw [encode_eq_file h.stored hrate, file_stored]

/-- **Reading a well-formed file and writing what was read gives the file again.** -/
theorem encode_decode {file : Bytes} (h : WellFormed file) :
    ∃ a, decode file = .ok a ∧ encode a = .ok file := by
  obtain ⟨a, hrate, hpacks, rfl⟩ := exists_file_eq h
  exact ⟨a.stored, decode_file hpacks, encode_stored hpacks hrate⟩

/-- The entry and the block of a star that stands still twice at the same time. -/
def brightStar : Bytes × Bytes :=
  (Utf8.encode "星.png" ++ replicate 25 0 ++ Word.row [-1, 5, 0, 0xFFFFFFFF, 64, 0x7FFFFFFF, 0, 3],
    Word.row [0xFFFFFFFF, 2] ++ Word.row [9, 0xFF000000, 0, 0, -0x80000000, 100, 100, 0, -1, 0, 0] ++
      Word.row [9, 0, 0, 0, 90, 50, 50, 0xFFFFFFFF, 0, 0, 0x7FFFFFFF])

/-- The entry and the block of a star of the same picture that is never shown. -/
def darkStar : Bytes × Bytes :=
  (Utf8.encode "星.png" ++ replicate 25 0 ++ Word.row [0, 0, 0, 0, 64, 0x7FFFFFFF, 0, 0], Word.row [1, 0])

def twoStars : Bytes :=
  magic ++ Word.row [60, 120, 0xFFFF001E, 0x80000000, 2] ++ (brightStar.1 ++ darkStar.1) ++ (brightStar.2 ++ darkStar.2)

theorem encode_decode_twoStars :
    WellFormed twoStars ∧ ∃ a, decode twoStars = .ok a ∧ encode a = .ok twoStars := by
  have hbright : IsEntry brightStar.1 ∧ IsBlock brightStar.2 :=
    ⟨⟨by decide, ⟨"星.png", _, rfl, by decide, by decide, by decide⟩, by decide⟩, by decide, by decide⟩
  have hdark : IsEntry darkStar.1 ∧ IsBlock darkStar.2 :=
    ⟨⟨by decide, ⟨"星.png", _, rfl, by decide, by decide, by decide⟩, by decide⟩, by decide, by decide⟩
  have hparts : ∀ p ∈ [brightStar, darkStar], IsEntry p.1 ∧ IsBlock p.2 := by
    simp only [List.forall_mem_cons, List.not_mem_nil, false_imp_iff, implies_true, and_true]
    exact ⟨hbright, hdark⟩
  have hagree : AgreeOnSizes [brightStar.1, darkStar.1] := by
    unfold AgreeOnSizes
    decide
  have hlength : 24 ≤ twoStars.length := by simp [twoStars, magic]
  have hbody : twoStars.drop 24 = [brightStar.1, darkStar.1].flatten ++ [brightStar.2, darkStar.2].flatten := by
    rw [twoStars, List.append_assoc]
    refine (List.drop_left' (by decide)).trans ?_
    simp
  have hformed : WellFormed twoStars :=
    ⟨hlength, by decide, by decide, [brightStar, darkStar], hbody, by decide, hparts, hagree⟩
  exact ⟨hformed, encode_decode hformed⟩

/-! ## Files that end early

A file that is cut off behind its header can still be read, and loses only a tail: its layers are
the first ones of the whole file, and the last of them may have lost key frames at its end. Every
layer is read from the table entry and the block that belong to its place, so cutting a file off
never moves what is read. -/

open Nat

variable {bs : Bytes} {i : Nat} {l : Layer} (pictures : List Picture) (entries : List Bytes)

/-! ### Records -/

section

variable {size n m k : Nat}

theorem getElem?_chunks (size n i : Nat) (bs : Bytes) :
    (chunks size n bs)[i]? = if i < n then some ((bs.drop (size * i)).take size) else none := by
  induction n generalizing bs i with
  | zero => rfl
  | succ n ih =>
    cases i with
    | zero => rfl
    | succ i =>
      rw [chunks, getElem?_cons_succ, ih, drop_drop, mul_succ, add_comm size]
      simp only [add_lt_add_iff_right]

theorem chunks_take (h : size * n ≤ k) : chunks size n (bs.take k) = chunks size n bs := by
  refine ext_getElem? fun i => ?_
  rw [getElem?_chunks, getElem?_chunks]
  split
  · next hi =>
    have hend : size * i + size ≤ k := (mul_le_mul_left size hi).trans h
    rw [drop_take, take_take, min_eq_left (by omega)]
  · rfl

theorem take_chunks (h : m ≤ n) : (chunks size n bs).take m = chunks size m bs := by
  refine ext_getElem? fun i => ?_
  rw [getElem?_take, getElem?_chunks, getElem?_chunks]
  split
  · next hi => rw [if_pos (hi.trans_le h)]
  · rfl

/-- **Records that are cut off**: all of them and a part of what follows, or the first of them and
nothing more. -/
theorem records_take (hsize : 0 < size) (n k : Nat) (bs : Bytes) :
    records size n (bs.take k) = ((records size n bs).1, (records size n bs).2.take (k - size * n)) ∨
      ∃ m, records size n (bs.take k) = ((records size n bs).1.take m, []) := by
  have hcount (j : Nat) : j ≤ (bs.take k).length / size ↔ size * j ≤ k ∧ size * j ≤ bs.length := by
    rw [Nat.le_div_iff_mul_le hsize, length_take, Nat.mul_comm, Nat.le_min]
  have hwhole (j : Nat) : j ≤ bs.length / size ↔ size * j ≤ bs.length := by
    rw [le_div_iff_mul_le hsize, mul_comm]
  by_cases hn : n ≤ (bs.take k).length / size
  · left
    obtain ⟨hk, hlen⟩ := (hcount n).mp hn
    rw [records, records, min_eq_left hn, min_eq_left ((hwhole n).mpr hlen), chunks_take hk, if_pos rfl,
      if_pos rfl, drop_take]
  · right
    refine ⟨(bs.take k).length / size, ?_⟩
    obtain ⟨hk, hlen⟩ := (hcount _).mp le_rfl
    have hle := (hwhole _).mpr hlen
    rw [records, records, min_eq_right (by omega), chunks_take hk, take_chunks (by omega), if_neg (by omega)]

end

/-! ### Layers -/

/-- The second list of layers is the first up to some layer, of which it may have the first key
frames. -/
def LosesTail (ls ls' : List Layer) : Prop :=
  ∃ n, ls' = ls.take n ∨ ∃ l m, ls[n]? = some l ∧ ls' = ls.take n ++ [{ l with keys := l.keys.take m }]

theorem LosesTail.cons {ls ls' : List Layer} (l : Layer) (h : LosesTail ls ls') :
    LosesTail (l :: ls) (l :: ls') := by
  obtain ⟨n, rfl | ⟨last, m, hlast, rfl⟩⟩ := h
  · exact ⟨n + 1, .inl rfl⟩
  · exact ⟨n + 1, .inr ⟨last, m, hlast, rfl⟩⟩

theorem layers_readBlocks_nil : (readBlocks pictures entries []).2 = [] := by
  cases entries with
  | nil
  | cons entry entries => rfl

theorem u32At_take {offset k : Nat} (h : offset + 4 ≤ k) :
    u32At (bs.take k) offset = u32At bs offset := by
  rw [u32At, drop_take, take_take, min_eq_left (by omega), u32At]

theorem readBlocks_cons (h : 8 ≤ bs.length) (pictures : List Picture) (entry : Bytes) (entries : List Bytes) :
    (readBlocks pictures (entry :: entries) bs).2 =
      readLayer (addPicture pictures entry) entry (wordAt bs 0)
          ((records 44 (u32At bs 4) (bs.drop 8)).1.map readKey) ::
        (readBlocks (addPicture pictures entry) entries (records 44 (u32At bs 4) (bs.drop 8)).2).2 := by
  rw [readBlocks, if_neg (by omega)]

/-- Blocks that are cut off lose a tail of the layers. By induction on the table entries: a block is
whole, and what follows it is cut off, or it loses key frames, and nothing follows it. -/
theorem losesTail_readBlocks (bs : Bytes) (k : Nat) :
    LosesTail (readBlocks pictures entries bs).2 (readBlocks pictures entries (bs.take k)).2 := by
  induction entries generalizing pictures bs k with
  | nil => exact ⟨0, .inl rfl⟩
  | cons entry entries ih =>
    by_cases hshort : (bs.take k).length < 8
    · refine ⟨0, .inl ?_⟩
      rw [readBlocks, if_pos hshort]
      rfl
    · obtain ⟨hk, hlen⟩ : 8 ≤ k ∧ 8 ≤ bs.length := by rw [length_take] at hshort; omega
      rw [readBlocks_cons hlen, readBlocks_cons (by omega), wordAt, wordAt, u32At_take (by omega), u32At_take hk,
        drop_take]
      rcases records_take (by decide : 0 < 44) (u32At bs 4) (k - 8) (bs.drop 8) with heq | ⟨m, heq⟩
      · rw [heq]
        exact (ih _ _ _).cons _
      · rw [heq, layers_readBlocks_nil, map_take]
        exact ⟨0, .inr ⟨_, m, rfl, rfl⟩⟩

/-! ### Places -/

/-- Where the block of the layer at a place starts: behind the table and the blocks before, each as
long as it says. -/
def blockStart (bs : Bytes) : Nat → Nat
  | 0 => 24 + 64 * u32At bs 20
  | i + 1 => blockStart bs i + 8 + 44 * u32At bs (blockStart bs i + 4)

/-- A layer was read from the table entry, the head of the block and the first key frames that
belong to its place, all of which the file has. -/
structure StandsAt (bs : Bytes) (i : Nat) (l : Layer) : Prop where
  entry : i < u32At bs 20
  head : blockStart bs i + 8 ≤ bs.length
  fields : ∃ pictures, l = readLayer pictures ((bs.drop (24 + 64 * i)).take 64) (wordAt bs (blockStart bs i)) l.keys
  keys : l.keys = (chunks 44 l.keys.length (bs.drop (blockStart bs i + 8))).map readKey
  count : l.keys.length ≤ u32At bs (blockStart bs i + 4)
  last : blockStart bs i + 8 + 44 * l.keys.length ≤ bs.length

theorem u32At_drop (bs : Bytes) (i j : Nat) : u32At (bs.drop i) j = u32At bs (i + j) := by
  rw [u32At, drop_drop, u32At]

theorem standsAt_readLayer (hi : i < u32At bs 20) (hhead : blockStart bs i + 8 ≤ bs.length)
    (pictures : List Picture) :
    StandsAt bs i (readLayer pictures ((bs.drop (24 + 64 * i)).take 64) (wordAt bs (blockStart bs i))
      ((records 44 (u32At bs (blockStart bs i + 4)) (bs.drop (blockStart bs i + 8))).1.map readKey)) := by
  set n := u32At bs (blockStart bs i + 4)
  set ks := (records 44 n (bs.drop (blockStart bs i + 8))).1.map readKey
  have hlen : ks.length = min n ((bs.length - (blockStart bs i + 8)) / 44) := by
    simp [ks, records, length_chunks]
  refine ⟨hi, hhead, ⟨pictures, rfl⟩, ?_, ?_, ?_⟩
  · change ks = (chunks 44 ks.length _).map readKey
    rw [hlen, ← length_drop]
    rfl
  · exact hlen.trans_le (min_le_left _ _)
  · change blockStart bs i + 8 + 44 * ks.length ≤ bs.length
    omega

/-- Every layer stands at its place, by induction on the table entries from place `i` on. -/
theorem standsAt_readBlocks {entries : List Bytes}
    (h : ∀ j entry, entries[j]? = some entry → i + j < u32At bs 20 ∧ entry = (bs.drop (24 + 64 * (i + j))).take 64)
    (pictures : List Picture) {j : Nat}
    (hl : (readBlocks pictures entries (bs.drop (blockStart bs i))).2[j]? = some l) : StandsAt bs (i + j) l := by
  induction entries generalizing i j pictures with
  | nil => cases hl
  | cons entry entries ih =>
    by_cases hshort : (bs.drop (blockStart bs i)).length < 8
    · rw [readBlocks, if_pos hshort] at hl
      cases hl
    rw [readBlocks_cons (by omega), wordAt, u32At_drop, u32At_drop, drop_drop] at hl
    rw [length_drop] at hshort
    cases j with
    | zero =>
      obtain ⟨hi, rfl⟩ := h 0 entry rfl
      cases hl
      exact standsAt_readLayer (i := i) hi (by omega) _
    | succ j =>
      rw [getElem?_cons_succ, records] at hl
      -- Either all key frames are there, and the next block starts behind them, or nothing is left to read.
      split at hl
      · rw [drop_drop, ← blockStart] at hl
        have hplace (j' : Nat) : i + 1 + j' = i + (j' + 1) := by omega
        rw [← hplace]
        refine ih (fun j' entry' he => ?_) _ hl
        rw [hplace]
        exact h (j' + 1) entry' he
      · simp [layers_readBlocks_nil] at hl

/-! ### Files -/

theorem exists_decode (hmagic : bs.take 4 = magic) (hlen : 24 ≤ bs.length) :
    ∃ a, decode bs = .ok a := by
  rw [decode, if_neg (not_not.mpr hmagic), if_neg (by omega)]
  exact ⟨_, rfl⟩

theorem layers_of_decode (h : decode bs = .ok a) : (bs.take 4 = magic ∧ 24 ≤ bs.length) ∧
    a.layers = (readBlocks [] (records 64 (u32At bs 20) (bs.drop 24)).1
      (records 64 (u32At bs 20) (bs.drop 24)).2).2 := by
  unfold decode at h
  split at h
  · cases h
  · next hmagic =>
    split at h
    · cases h
    · cases h
      exact ⟨⟨not_not.mp hmagic, by omega⟩, rfl⟩

theorem standsAt_of_decode (h : decode bs = .ok a) (hl : a.layers[i]? = some l) :
    StandsAt bs i l := by
  rw [(layers_of_decode h).2, records] at hl
  split at hl
  · rw [drop_drop] at hl
    have hplace := standsAt_readBlocks (i := 0) (fun j entry he => ?_) [] hl
    · rwa [zero_add] at hplace
    · rw [getElem?_chunks] at he
      split at he
      · next hj =>
        rw [zero_add, ← Option.some.inj he, drop_drop]
        exact ⟨hj.trans_le (min_le_left _ _), rfl⟩
      · cases he
  · simp [layers_readBlocks_nil] at hl

/-- **A file that ends early loses only a tail.** Cut off anywhere behind its header, it can still
be read, its layers are the first ones of the whole file, but for key frames at the end of the last
one, and every layer and every key frame stands at its place. -/
theorem decode_take {bs : Bytes} {a : Animation} (h : decode bs = .ok a) {k : Nat} (hlow : 24 ≤ k)
    (hhigh : k ≤ bs.length) :
    ∃ b, decode (bs.take k) = .ok b ∧ LosesTail a.layers b.layers ∧
      ∀ i l, b.layers[i]? = some l → StandsAt (bs.take k) i l := by
  obtain ⟨⟨hmagic, -⟩, hlayers⟩ := layers_of_decode h
  have hcut : (bs.take k).take 4 = magic := by rw [take_take, min_eq_left (by omega), hmagic]
  obtain ⟨b, hb⟩ := exists_decode hcut (by rw [length_take]; omega)
  refine ⟨b, hb, ?_, fun i l hl => standsAt_of_decode hb hl⟩
  rw [hlayers, (layers_of_decode hb).2, u32At_take (by omega), drop_take]
  rcases records_take (by decide : 0 < 64) (Word.u32At bs 20) (k - 24) (bs.drop 24) with heq | ⟨m, heq⟩
  · rw [heq]
    exact losesTail_readBlocks ..
  · rw [heq, layers_readBlocks_nil]
    exact ⟨0, .inl rfl⟩

/-- The file of two stars, cut off in the second key frame of the first one. -/
theorem decode_take_twoStars : ∃ a b, decode twoStars = .ok a ∧ decode (twoStars.take 210) = .ok b ∧
    LosesTail a.layers b.layers := by
  have hlength : 210 ≤ twoStars.length := by
    simp [twoStars, brightStar, darkStar, magic]
    omega
  obtain ⟨a, ha⟩ := exists_decode (by decide : twoStars.take 4 = magic) (by omega)
  obtain ⟨b, hb, hloses, -⟩ := decode_take ha (by decide : 24 ≤ 210) (by omega)
  exact ⟨a, b, ha, hb, hloses⟩

end Localizer.Animation
