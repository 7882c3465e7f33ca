import Localizer.Proofs.Animation.Record

/-!
# Animations stored and read

The file of an animation is read as the same animation, but for three things that a file does not
keep: the key frames of a layer come back in the order of their times, the pictures come back as the
distinct names of the layers, and the number of a layer's picture is its place among these. The
table and the key blocks are read in step, with the pictures of the names so far as what one step
hands to the next.
-/

namespace Localizer.Animation

open List Text Except Word

/-! ### Pictures by name -/

/-- The pictures that a file has for names: one for each name, in the order in which they first
appear. -/
def storedPictures (pictures : List Picture) (names : List Text) : List Picture :=
  names.eraseDups.map (storedPicture pictures)

section

variable {pictures : List Picture} {names : List Text} {name : Text}

theorem pictureIndex?_storedPictures :
    pictureIndex? (storedPictures pictures names) name =
      if name ∈ names then some (names.eraseDups.idxOf name) else none := by
  have hname : (fun p : Picture => decide (p.name = name)) ∘ storedPicture pictures = (· == name) := by
    funext n
    exact (beq_eq_decide n name).symm
  rw [pictureIndex?, storedPictures, findIdx?_map, hname]
  split
  · next hmem =>
    exact findIdx?_eq_some_iff_findIdx_eq.mpr
      ⟨idxOf_lt_length_iff.mpr (mem_eraseDups.mpr hmem), rfl⟩
  · next hmem =>
    refine findIdx?_eq_none_iff.mpr fun n hn => beq_eq_false_iff_ne.mpr ?_
    rintro rfl
    exact hmem (mem_eraseDups.mp hn)

theorem storedPictures_append_singleton :
    storedPictures pictures (names ++ [name]) =
      if name ∈ names then storedPictures pictures names
      else storedPictures pictures names ++ [storedPicture pictures name] := by
  rw [storedPictures, eraseDups_append, map_append, ← storedPictures]
  by_cases hmem : name ∈ names
  · simp [removeAll, hmem]
  · simp [removeAll, eraseDups_cons, hmem]

theorem idxOf_eraseDups_append {later : List Text} (h : name ∈ names) :
    (names ++ later).eraseDups.idxOf name = names.eraseDups.idxOf name := by
  rw [eraseDups_append, idxOf_append_of_mem (mem_eraseDups.mpr h)]

end

/-! ### Layers -/

/-- The layer that a file has for a layer, with the pictures of `names`. -/
def storedLayer (names : List Text) (l : Layer) : Layer :=
  { l with picture := (names.eraseDups.idxOf l.name : Nat), keys := inOrder l.keys }

section

variable {pictures : List Picture} (hsizes : SizesFit pictures)
include hsizes

theorem addPicture_storedPictures {l : Layer} (h : l.Packs) (names : List Text) :
    addPicture (storedPictures pictures names) (l.entry pictures) =
      storedPictures pictures (names ++ [l.name]) := by
  rw [addPicture_entry hsizes h, pictureIndex?_storedPictures, storedPictures_append_singleton]
  by_cases hmem : l.name ∈ names
  · simp [hmem]
  · simp [hmem]

/-- **The layers are read as they were written.** By induction on them, where the pictures read so
far are those of the names before. -/
theorem readBlocks_entries {ls : List Layer} (h : ∀ l ∈ ls, l.Packs) (names : List Text) :
    readBlocks (storedPictures pictures names) (ls.map (·.entry pictures)) (ls.map Layer.block).flatten =
      (storedPictures pictures (names ++ ls.map (·.name)), ls.map (storedLayer (names ++ ls.map (·.name)))) := by
  induction ls generalizing names with
  | nil => simp [readBlocks]
  | cons l ls ih =>
    have hl := h l mem_cons_self
    have hlayer : readLayer (storedPictures pictures (names ++ [l.name])) (l.entry pictures) l.id (inOrder l.keys) =
        storedLayer ((names ++ [l.name]) ++ ls.map (·.name)) l := by
      have hmem : l.name ∈ names ++ [l.name] := by simp
      rw [readLayer_entry hl, pictureIndex?_storedPictures, if_pos hmem, storedLayer, idxOf_eraseDups_append hmem]
      rfl
    rw [map_cons, map_cons, flatten_cons, readBlocks_block hl, addPicture_storedPictures hsizes hl,
      ih (fun l hl => h l (mem_cons_of_mem _ hl)), hlayer, map_cons, map_cons, append_assoc,
      singleton_append]

end

/-! ### Files -/

/-- Every field of an animation fits in a file. -/
structure Packs (a : Animation) : Prop where
  unsigned : ∀ n ∈ [a.tickRate, a.totalFrames, a.headerFlags, a.layers.length], FitsUnsigned n
  markers : ∀ m ∈ [a.markerA, a.markerB], 0 ≤ m ∧ m < 0x10000
  sizes : SizesFit a.pictures
  layers : ∀ l ∈ a.layers, l.Packs

instance (a : Animation) : Decidable a.Packs :=
  decidable_of_iff (_ ∧ _ ∧ _ ∧ _)
    ⟨fun ⟨hu, hm, hs, hl⟩ => ⟨hu, hm, hs, hl⟩, fun ⟨hu, hm, hs, hl⟩ => ⟨hu, hm, hs, hl⟩⟩

def words (a : Animation) : List Int :=
  [a.tickRate, a.totalFrames, a.markerB * 0x10000 + a.markerA, a.headerFlags, a.layers.length]

def file (a : Animation) : Bytes :=
  magic ++ (row a.words ++
    ((a.layers.map (·.entry a.pictures)).flatten ++ (a.layers.map Layer.block).flatten))

def stored (a : Animation) : Animation :=
  { a with
    pictures := storedPictures a.pictures (a.layers.map (·.name))
    layers := a.layers.map (storedLayer (a.layers.map (·.name)))
    actions := a.ownActions
    layerCount := a.layers.length
    pictureCount := (a.layers.map (·.name)).eraseDups.length }

section

variable {a : Animation} (h : a.Packs)
include h

theorem fitsUnsigned_of_mem_words : ∀ n ∈ a.words, FitsUnsigned n := by
  obtain ⟨hlowA, hhighA⟩ := h.markers a.markerA (by simp)
  obtain ⟨hlowB, hhighB⟩ := h.markers a.markerB (by simp)
  have hmarks : FitsUnsigned (a.markerB * 0x10000 + a.markerA) := ⟨by omega, by omega⟩
  intro n hn
  simp only [words, mem_cons, not_mem_nil, or_false] at hn
  rcases hn with rfl | rfl | rfl | rfl | rfl
  · exact h.unsigned _ (by simp)
  · exact h.unsigned _ (by simp)
  · exact hmarks
  · exact h.unsigned _ (by simp)
  · exact h.unsigned _ (by simp)

theorem headerBytes_eq (hrate : 0 < a.tickRate) : headerBytes a = .ok (magic ++ row a.words) := by
  obtain ⟨hlow, hhigh⟩ := h.markers a.markerA (by simp)
  have hword : ∀ n ∈ a.words, unsignedWord n = .ok (u32 n) := fun n hn =>
    unsignedWord_eq (fitsUnsigned_of_mem_words h n hn)
  rw [headerBytes, if_pos hrate, Int.emod_eq_of_lt hlow hhigh, hword a.tickRate (by simp [words]),
    hword a.totalFrames (by simp [words]), hword (a.markerB * 0x10000 + a.markerA) (by simp [words]),
    hword a.headerFlags (by simp [words]), hword a.layers.length (by simp [words])]
  change ok _ = ok _
  simp [row, words]

theorem encode_eq_file (hrate : 0 < a.tickRate) : encode a = .ok a.file := by
  have hentries := mapM_eq_ok fun l hl => entryBytes_eq h.sizes (h.layers l hl)
  have hblocks := mapM_eq_ok fun l hl => blockBytes_eq (h.layers l hl)
  rw [encode, headerBytes_eq h hrate, hentries, hblocks]
  change ok _ = ok _
  simp [file]

/-- **A file is read as the animation that it was written for.** -/
theorem decode_file : decode a.file = .ok a.stored := by
  set entries := a.layers.map (·.entry a.pictures) with hentries
  set body := entries.flatten ++ (a.layers.map Layer.block).flatten with hbody
  have hmagic : a.file.take 4 = magic := rfl
  have hlong : ¬ a.file.length < 24 := by
    simp [file, magic, words]
  have hword : ∀ i n, a.words[i]? = some n → wordAt a.file (4 + 4 * i) = n := by
    intro i n hi
    exact wordAt_row magic body hi (fitsUnsigned_of_mem_words h n (mem_of_getElem? hi)) rfl
  have hrest : a.file.drop 24 = body := by
    rw [file, ← append_assoc]
    exact drop_left' (by simp [magic, words])
  have hcount : u32At a.file 20 = entries.length := by
    rw [hentries, length_map]
    exact Int.ofNat.inj (hword 4 _ rfl)
  have hentry : ∀ e ∈ entries, e.length = 64 := by
    intro e he
    obtain ⟨l, -, rfl⟩ := mem_map.mp he
    exact length_entry a.pictures l
  have hblocks : readBlocks [] entries (a.layers.map Layer.block).flatten = (a.stored.pictures, a.stored.layers) :=
    readBlocks_entries h.sizes h.layers []
  obtain ⟨hlowA, hhighA⟩ := h.markers a.markerA (by simp)
  have hmarks : wordAt a.file 12 = a.markerB * 0x10000 + a.markerA := hword 2 _ rfl
  have hmarkA : wordAt a.file 12 % 0x10000 = a.markerA := by omega
  have hmarkB : wordAt a.file 12 / 0x10000 = a.markerB := by omega
  rw [decode, if_neg (not_not.mpr hmagic), if_neg hlong, hcount, hrest, records_flatten (by decide) hentry]
  simp only [hblocks, hmarkA, hmarkB]
  rw [hword 0 _ rfl, hword 1 _ rfl, hword 3 _ rfl]
  simp [stored, storedPictures, ownActions]

end

/-! ### What a file keeps -/

/-- The second list is the first in the order of the times, key frames of the same time in the order
they were in. -/
structure StablySorted (ks sorted : List Key) : Prop where
  ordered : sorted.Pairwise fun k l => k.time ≤ l.time
  same_time : ∀ t, sorted.filter (fun k => k.time = t) = ks.filter (fun k => k.time = t)

theorem stablySorted_inOrder (ks : List Key) : StablySorted ks (inOrder ks) := by
  have htrans : ∀ a b c : Key, decide (a.time ≤ b.time) = true → decide (b.time ≤ c.time) = true →
      decide (a.time ≤ c.time) = true := by
    intro a b c hab hbc
    exact decide_eq_true (le_trans (of_decide_eq_true hab) (of_decide_eq_true hbc))
  have htotal : ∀ a b : Key, (decide (a.time ≤ b.time) || decide (b.time ≤ a.time)) = true := by
    intro a b
    rcases le_total a.time b.time with hle | hle <;> simp [hle]
  refine ⟨(pairwise_mergeSort htrans htotal ks).imp of_decide_eq_true, fun t => ?_⟩
  -- the key frames of one time are in order, so sorting keeps them as a part of the list
  have hordered : (ks.filter fun k => k.time = t).Pairwise fun k l => decide (k.time ≤ l.time) = true := by
    refine pairwise_of_forall_mem_list fun k hk l hl => decide_eq_true ?_
    rw [of_decide_eq_true (mem_filter.mp hk).2, of_decide_eq_true (mem_filter.mp hl).2]
  have hsub := (sublist_mergeSort htrans htotal hordered filter_sublist).filter fun k => decide (k.time = t)
  simp only [filter_filter, Bool.and_self] at hsub
  refine (hsub.eq_of_length ?_).symm
  exact ((inOrder_perm ks).filter _).length_eq.symm

/-- The picture has the size that the picture of its name has among the given ones, zero if there is
none. -/
structure HasSizeIn (pictures : List Picture) (p : Picture) : Prop where
  of_mem : ∀ q ∈ pictures, q.name = p.name → p.width = q.width ∧ p.height = q.height
  of_not_mem : (∀ q ∈ pictures, q.name ≠ p.name) → p.width = 0 ∧ p.height = 0

theorem hasSizeIn_storedPicture {pictures : List Picture} (h : (pictures.map (·.name)).Nodup)
    (name : Text) : HasSizeIn pictures (storedPicture pictures name) := by
  cases hfind : pictures.reverse.find? fun p => p.name = name with
  | none =>
    have hsize : pictureSize pictures name = (0, 0) := by rw [pictureSize, hfind]
    have hnone : ∀ q ∈ pictures, q.name ≠ name := by simpa using hfind
    refine ⟨fun q hq hname => absurd hname (hnone q hq), fun _ => ?_⟩
    simp [storedPicture, hsize]
  | some p =>
    have hsize : pictureSize pictures name = (p.width, p.height) := by rw [pictureSize, hfind]
    have hp : p ∈ pictures := mem_reverse.mp (mem_of_find?_eq_some hfind)
    have hname : p.name = name := by simpa using find?_some hfind
    refine ⟨fun q hq hqname => ?_, fun hnone => absurd hname (hnone p hp)⟩
    have hqp : q = p := inj_on_of_nodup_map h hq hp (hqname.trans hname.symm)
    simp [storedPicture, hsize, hqp]

/-- A layer of `a` came back as a layer of `b`. -/
structure Returns (a b : Animation) (l l' : Layer) : Prop where
  fields : l' = { l with picture := l'.picture, keys := l'.keys }
  keys : StablySorted l.keys l'.keys
  picture : ∃ (i : Nat) (p : Picture), l'.picture = i ∧ b.pictures[i]? = some p ∧ p.name = l.name ∧
    HasSizeIn a.pictures p

theorem returns_storedLayer {a : Animation} (h : (a.pictures.map (·.name)).Nodup) {l : Layer}
    (hl : l ∈ a.layers) : Returns a a.stored l (storedLayer (a.layers.map (·.name)) l) := by
  have hmem : l.name ∈ (a.layers.map (·.name)).eraseDups := mem_eraseDups.mpr (mem_map_of_mem hl)
  refine ⟨rfl, stablySorted_inOrder l.keys, _, storedPicture a.pictures l.name, rfl, ?_, rfl,
    hasSizeIn_storedPicture h l.name⟩
  simp [stored, storedPictures, getElem?_idxOf hmem]

/-- **Reading undoes writing.** -/
theorem decode_encode {a : Animation} (hrate : 0 < a.tickRate) (h : a.Packs)
    (hnames : (a.pictures.map (·.name)).Nodup) :
    ∃ bs b, encode a = .ok bs ∧ decode bs = .ok b ∧ b.tickRate = a.tickRate ∧ b.totalFrames = a.totalFrames ∧
      b.markerA = a.markerA ∧ b.markerB = a.markerB ∧ b.headerFlags = a.headerFlags ∧
      b.pictures.map (·.name) = (a.layers.map (·.name)).eraseDups ∧ List.Forall₂ (Returns a b) a.layers b.layers := by
  have hpictures : a.stored.pictures.map (·.name) = (a.layers.map (·.name)).eraseDups := by
    rw [stored, storedPictures, List.map_map]
    exact List.map_id _
  have hlayers : List.Forall₂ (Returns a a.stored) a.layers a.stored.layers :=
    List.forall₂_map_right_iff.mpr (List.forall₂_same.mpr fun l hl => returns_storedLayer hnames hl)
  exact ⟨a.file, a.stored, encode_eq_file h hrate, decode_file h, rfl, rfl, rfl, rfl, rfl, hpictures, hlayers⟩

/-- Two stars of one picture, and the night, which has none. -/
def starryNight : Animation where
  tickRate := 60
  totalFrames := 120
  markerA := 30
  markerB := 0xFFFF
  pictures := [⟨"moon", 1, 1, none⟩, ⟨"星.png", 64, 0x7FFFFFFF, none⟩]
  layers :=
    [{ id := 0xFFFFFFFF, picture := 1, name := "星.png", flags := 3,
       keys := [⟨9, 0, 0, 0, 90, 100, 100, 0, -1, 0, 0⟩, ⟨0, 0xFF000000, 0, 0, 0, 50, 50, 0, 0, 0, 0⟩,
         ⟨9, 1, 0, 0, -0x80000000, 100, 100, 0, 0, 0, 0⟩] },
      { id := 0, picture := 0, name := "夜", parent := 0 },
      { id := 1, picture := 1, name := "星.png", unk36 := 5 }]

theorem decode_encode_starryNight :
    0 < starryNight.tickRate ∧ starryNight.Packs ∧ (starryNight.pictures.map (·.name)).Nodup ∧
      ∃ bs b, encode starryNight = .ok bs ∧ decode bs = .ok b ∧ b.pictures.map (·.name) = ["星.png", "夜"] ∧
        List.Forall₂ (Returns starryNight b) starryNight.layers b.layers := by
  have hrate : 0 < starryNight.tickRate := by decide
  have hpacks : starryNight.Packs := by decide
  have hnames : (starryNight.pictures.map (·.name)).Nodup := by decide
  obtain ⟨bs, b, henc, hdec, -, -, -, -, -, hpictures, hlayers⟩ := decode_encode hrate hpacks hnames
  have hdistinct : (starryNight.layers.map (·.name)).eraseDups = ["星.png", "夜"] := by decide
  exact ⟨hrate, hpacks, hnames, bs, b, henc, hdec, hpictures.trans hdistinct, hlayers⟩

end Localizer.Animation
