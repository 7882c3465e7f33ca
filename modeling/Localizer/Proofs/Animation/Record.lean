import Localizer.Animation.Timeline
import Localizer.Proofs.Encoding.Utf8
import Localizer.Proofs.Word

/-!
# The records of animation files

Key frames, table entries and key blocks are rows of words, an entry with a name in front of it.
Each of them is written when its numbers fit in words, and read as what was written. Records of one
size that stand in a row are taken apart again by that size.
-/

namespace Localizer.Animation

open List Text Encoding Word Nat Except

variable {n : Int} {k : Key} {name : Text} {pictures : List Picture}

/-! ## Words -/

theorem unsignedWord_eq (h : FitsUnsigned n) : unsignedWord n = .ok (u32 n) := by
  obtain ⟨hlow, hhigh⟩ := h
  rw [unsignedWord, decide_eq_true hlow, decide_eq_true hhigh]
  rfl

theorem signedWord_eq (h : FitsSigned n) : signedWord n = .ok (u32 n) := by
  obtain ⟨hlow, hhigh⟩ := h
  rw [signedWord, decide_eq_true hlow, decide_eq_true hhigh]
  rfl

theorem mapM_eq_ok {α β : Type} {f : α → Except Fault β} {g : α → β} {as : List α}
    (h : ∀ a ∈ as, f a = .ok (g a)) : as.mapM f = .ok (as.map g) := by
  induction as with
  | nil => rfl
  | cons a as ih =>
    rw [mapM_cons, h a mem_cons_self, ih fun a ha => h a (mem_cons_of_mem _ ha)]
    rfl

section

variable (pre rest : Bytes) {ns : List Int} {k offset : Nat}

theorem wordAt_row (hn : ns[k]? = some n) (h : FitsUnsigned n) (ho : offset = pre.length + 4 * k) :
    wordAt (pre ++ (row ns ++ rest)) offset = n := by
  rw [wordAt, u32At_row hn ho, wrap_of_fitsUnsigned h]

theorem signedAt_row (hn : ns[k]? = some n) (h : FitsSigned n) (ho : offset = pre.length + 4 * k) :
    signedAt (pre ++ (row ns ++ rest)) offset = n := by
  rw [signedAt, u32At_row hn ho, signed_wrap_of_fitsSigned h]

end

/-! ## Key frames -/

/-- The numbers of a key frame fit in words. -/
structure Key.Packs (k : Key) : Prop where
  unsigned : ∀ n ∈ [k.time, k.color1, k.color2], FitsUnsigned n
  signed : ∀ n ∈ [k.rotX, k.rotY, k.rotZ, k.scaleX, k.scaleY, k.posX, k.posY, k.posZ], FitsSigned n

instance (k : Key) : Decidable k.Packs :=
  decidable_of_iff (_ ∧ _) ⟨fun ⟨hu, hs⟩ => ⟨hu, hs⟩, fun ⟨hu, hs⟩ => ⟨hu, hs⟩⟩

def Key.words (k : Key) : List Int :=
  [k.time, k.color1, k.rotX, k.rotY, k.rotZ, k.scaleX, k.scaleY, k.color2, k.posX, k.posY, k.posZ]

theorem keyBytes_eq (h : k.Packs) : keyBytes k = .ok (row k.words) := by
  have hmiddle : [k.rotX, k.rotY, k.rotZ, k.scaleX, k.scaleY].mapM signedWord =
      .ok ([k.rotX, k.rotY, k.rotZ, k.scaleX, k.scaleY].map u32) :=
    mapM_eq_ok fun n hn => signedWord_eq (h.signed n (mem_append_left [k.posX, k.posY, k.posZ] hn))
  have hposition : [k.posX, k.posY, k.posZ].mapM signedWord = .ok ([k.posX, k.posY, k.posZ].map u32) :=
    mapM_eq_ok fun n hn => signedWord_eq
      (h.signed n (mem_append_right [k.rotX, k.rotY, k.rotZ, k.scaleX, k.scaleY] hn))
  rw [keyBytes, payload, unsignedWord_eq (h.unsigned k.time (by simp)), unsignedWord_eq (h.unsigned k.color1 (by simp)),
    hmiddle, unsignedWord_eq (h.unsigned k.color2 (by simp)), hposition]
  change ok _ = ok _
  simp [row, Key.words]

theorem length_row_words (k : Key) : (row k.words).length = 44 := length_row _

/-- **A key frame is read as it was written.** -/
theorem readKey_row_words (h : k.Packs) : readKey (row k.words) = k := by
  have hword : ∀ i n, k.words[i]? = some n → n ∈ [k.time, k.color1, k.color2] →
      wordAt (row k.words) (4 * i) = n := by
    intro i n hi hn
    have := wordAt_row [] [] hi (h.unsigned n hn) (zero_add _).symm
    rwa [append_nil] at this
  have hsigned : ∀ i n, k.words[i]? = some n →
      n ∈ [k.rotX, k.rotY, k.rotZ, k.scaleX, k.scaleY, k.posX, k.posY, k.posZ] →
      signedAt (row k.words) (4 * i) = n := by
    intro i n hi hn
    have := signedAt_row [] [] hi (h.signed n hn) (zero_add _).symm
    rwa [append_nil] at this
  rw [readKey, hword 0 _ rfl (by simp), hword 1 _ rfl (by simp), hsigned 2 _ rfl (by simp), hsigned 3 _ rfl (by simp),
    hsigned 4 _ rfl (by simp), hsigned 5 _ rfl (by simp), hsigned 6 _ rfl (by simp), hword 7 _ rfl (by simp),
    hsigned 8 _ rfl (by simp), hsigned 9 _ rfl (by simp), hsigned 10 _ rfl (by simp)]

/-! ### Names -/

/-- A name fits in the field of a table entry, with a zero behind it. -/
structure NameFits (name : Text) : Prop where
  whole : name.any isHalf = false
  no_zero : '\x00' ∉ name
  short : (Utf8.encode name).length ≤ 31

instance (name : Text) : Decidable (NameFits name) :=
  decidable_of_iff (_ ∧ _ ∧ _) ⟨fun ⟨hw, hz, hs⟩ => ⟨hw, hz, hs⟩, fun ⟨hw, hz, hs⟩ => ⟨hw, hz, hs⟩⟩

theorem length_nameField (name : Text) : (nameField name).length = 32 := by
  have hle := length_take_le 31 (Utf8.encodeLossy name)
  simp only [nameField, length_append, length_replicate]
  omega

theorem nameField_eq (h : NameFits name) :
    nameField name = Utf8.encode name ++ replicate (32 - (Utf8.encode name).length) 0 := by
  rw [nameField, Utf8.encodeLossy_eq h.whole, take_of_length_le h.short]

/-- **A name is read as it was written.** -/
theorem entryName_nameField (h : NameFits name) (rest : Bytes) :
    entryName (nameField name ++ rest) = name := by
  have hbytes : ∀ b ∈ Utf8.encode name, decide (b ≠ 0) = true := by
    intro b hb
    exact decide_eq_true fun hzero => Utf8.zero_notMem_encode h.no_zero (hzero ▸ hb)
  rw [entryName, take_left' (length_nameField name), nameField_eq h, upTo, takeWhile_append_of_pos hbytes,
    takeWhile_replicate, if_neg (by simp), append_nil, Utf8.decodeLossy_encode]

/-! ### Table entries -/

/-- The numbers, the name and the key frames of a layer fit in a file. -/
structure Layer.Packs (l : Layer) : Prop where
  unsigned : ∀ n ∈ [l.id, l.keys.length, l.unk36, l.unk40, l.unk44, l.unk56, l.flags], FitsUnsigned n
  parent : FitsSigned l.parent
  name : NameFits l.name
  keys : ∀ k ∈ l.keys, k.Packs

instance (l : Layer) : Decidable l.Packs :=
  decidable_of_iff (_ ∧ _ ∧ _ ∧ _)
    ⟨fun ⟨hu, hp, hn, hk⟩ => ⟨hu, hp, hn, hk⟩, fun ⟨hu, hp, hn, hk⟩ => ⟨hu, hp, hn, hk⟩⟩

/-- The size of every picture can be read with and without a sign. -/
def SizesFit (pictures : List Picture) : Prop :=
  ∀ p ∈ pictures, ∀ n ∈ [p.width, p.height], 0 ≤ n ∧ n < 0x80000000

instance (pictures : List Picture) : Decidable (SizesFit pictures) :=
  inferInstanceAs (Decidable (∀ p ∈ pictures, ∀ n ∈ [p.width, p.height], 0 ≤ n ∧ n < 0x80000000))

def Layer.words (size : Int × Int) (l : Layer) : List Int :=
  [l.parent, l.unk36, l.unk40, l.unk44, size.1, size.2, l.unk56, l.flags]

def Layer.entry (pictures : List Picture) (l : Layer) : Bytes :=
  nameField l.name ++ row (l.words (pictureSize pictures l.name))

theorem length_entry (pictures : List Picture) (l : Layer) : (l.entry pictures).length = 64 := by
  rw [Layer.entry, length_append, length_nameField, length_row]
  rfl

theorem pictureSize_fits (h : SizesFit pictures) (name : Text) :
    ∀ n ∈ [(pictureSize pictures name).1, (pictureSize pictures name).2], 0 ≤ n ∧
      n < 0x80000000 := by
  unfold pictureSize
  split
  · next p hp => exact h p (mem_reverse.mp (mem_of_find?_eq_some hp))
  · decide

theorem entryBytes_eq {l : Layer} (hsizes : SizesFit pictures) (h : l.Packs) :
    entryBytes pictures l = .ok (l.entry pictures) := by
  have hsize : ∀ n ∈ [(pictureSize pictures l.name).1, (pictureSize pictures l.name).2], FitsSigned n := by
    intro n hn
    obtain ⟨hlow, hhigh⟩ := pictureSize_fits hsizes l.name n hn
    exact ⟨by omega, hhigh⟩
  rw [entryBytes, signedWord_eq h.parent, unsignedWord_eq (h.unsigned l.unk36 (by simp)),
    unsignedWord_eq (h.unsigned l.unk40 (by simp)), unsignedWord_eq (h.unsigned l.unk44 (by simp)),
    unsignedWord_eq (h.unsigned l.unk56 (by simp)), unsignedWord_eq (h.unsigned l.flags (by simp))]
  simp only
  rw [signedWord_eq (hsize _ (by simp)), signedWord_eq (hsize _ (by simp))]
  change ok _ = ok _
  simp [Layer.entry, Layer.words, row]

section

variable {l : Layer}

theorem wordAt_entry {i : Nat} (hi : (l.words (pictureSize pictures l.name))[i]? = some n)
    (hn : FitsUnsigned n) : wordAt (l.entry pictures) (32 + 4 * i) = n := by
  have hword := wordAt_row (nameField l.name) [] hi hn rfl
  rwa [append_nil, length_nameField] at hword

theorem entryName_entry (h : l.Packs) : entryName (l.entry pictures) = l.name :=
  entryName_nameField h.name _

/-- **A table entry is read as it was written.** -/
theorem readLayer_entry (h : l.Packs) (ps : List Picture) (id : Int) (keys : List Key) :
    readLayer ps (l.entry pictures) id keys =
      { l with id := id, picture := (pictureIndex? ps l.name).getD 0, keys := keys } := by
  have hparent : signedAt (l.entry pictures) 32 = l.parent := by
    have hfirst : (l.words (pictureSize pictures l.name))[0]? = some l.parent := rfl
    have hword := signedAt_row (nameField l.name) [] hfirst h.parent rfl
    rwa [append_nil, length_nameField] at hword
  rw [readLayer, entryName_entry h, hparent, wordAt_entry (i := 1) rfl (h.unsigned _ (by simp)),
    wordAt_entry (i := 2) rfl (h.unsigned _ (by simp)), wordAt_entry (i := 3) rfl (h.unsigned _ (by simp)),
    wordAt_entry (i := 6) rfl (h.unsigned _ (by simp)), wordAt_entry (i := 7) rfl (h.unsigned _ (by simp))]

def storedPicture (pictures : List Picture) (name : Text) : Picture :=
  ⟨name, (pictureSize pictures name).1, (pictureSize pictures name).2, none⟩

theorem addPicture_entry (hsizes : SizesFit pictures) (h : l.Packs) (ps : List Picture) :
    addPicture ps (l.entry pictures) =
      if (pictureIndex? ps l.name).isSome then ps else ps ++ [storedPicture pictures l.name] := by
  have hsize : ∀ n ∈ [(pictureSize pictures l.name).1, (pictureSize pictures l.name).2], FitsUnsigned n := by
    intro n hn
    obtain ⟨hlow, hhigh⟩ := pictureSize_fits hsizes l.name n hn
    exact ⟨hlow, by omega⟩
  rw [addPicture, entryName_entry h, wordAt_entry (i := 4) rfl (hsize _ (by simp)),
    wordAt_entry (i := 5) rfl (hsize _ (by simp))]
  rfl

end

/-! ### Records in a row -/

section

variable {size : Nat} {rs : List Bytes}

theorem length_flatten_of_forall (h : ∀ r ∈ rs, r.length = size) :
    rs.flatten.length = size * rs.length := by
  induction rs with
  | nil => rfl
  | cons r rs ih =>
    rw [flatten_cons, length_append, h r mem_cons_self, ih fun r hr => h r (mem_cons_of_mem _ hr),
      length_cons, mul_succ, add_comm]

theorem chunks_flatten (h : ∀ r ∈ rs, r.length = size) (rest : Bytes) :
    chunks size rs.length (rs.flatten ++ rest) = rs := by
  induction rs with
  | nil => rfl
  | cons r rs ih =>
    have hr := h r mem_cons_self
    rw [length_cons, chunks, flatten_cons, append_assoc, take_left' hr, drop_left' hr,
      ih fun r hr => h r (mem_cons_of_mem _ hr)]

/-- **Records are taken apart as they were put together**, and what follows them is left. -/
theorem records_flatten (hsize : 0 < size) (h : ∀ r ∈ rs, r.length = size) (rest : Bytes) :
    records size rs.length (rs.flatten ++ rest) = (rs, rest) := by
  have hlen := length_flatten_of_forall h
  have hcount : min rs.length ((rs.flatten ++ rest).length / size) = rs.length := by
    rw [length_append, hlen]
    exact min_eq_left ((le_div_iff_mul_le hsize).mpr (by rw [mul_comm]; omega))
  rw [records, hcount, chunks_flatten h, if_pos rfl, ← hlen, drop_left]

end

/-! ### Key blocks -/

theorem inOrder_perm (ks : List Key) : (inOrder ks).Perm ks := mergeSort_perm _ _

def Layer.block (l : Layer) : Bytes :=
  row [l.id, l.keys.length] ++ ((inOrder l.keys).map fun k => row k.words).flatten

section

variable {l : Layer} (h : l.Packs)
include h

theorem packs_of_mem_inOrder (hk : k ∈ inOrder l.keys) : k.Packs :=
  h.keys k ((inOrder_perm l.keys).mem_iff.mp hk)

theorem blockBytes_eq : blockBytes l = .ok l.block := by
  have hkeys := mapM_eq_ok fun k hk => keyBytes_eq (packs_of_mem_inOrder h hk)
  rw [blockBytes, unsignedWord_eq (h.unsigned l.id (by simp)), unsignedWord_eq (h.unsigned l.keys.length (by simp)),
    hkeys]
  change ok _ = ok _
  simp [Layer.block, row]

/-- **A key block is read as it was written.** The step of reading a file: the first entry and its
block are read, and what follows the block is left for the other entries. -/
theorem readBlocks_block (pictures : List Picture) (entry : Bytes) (entries : List Bytes)
    (rest : Bytes) :
    readBlocks pictures (entry :: entries) (l.block ++ rest) =
      ((readBlocks (addPicture pictures entry) entries rest).1,
        readLayer (addPicture pictures entry) entry l.id (inOrder l.keys) ::
          (readBlocks (addPicture pictures entry) entries rest).2) := by
  set rows := (inOrder l.keys).map fun k => row k.words with hrows
  have hblock : l.block ++ rest = row [l.id, l.keys.length] ++ (rows.flatten ++ rest) := append_assoc _ _ _
  have hrow : ∀ r ∈ rows, r.length = 44 := by
    intro r hr
    obtain ⟨k, -, rfl⟩ := mem_map.mp hr
    exact length_row_words k
  have hword : ∀ i n, [l.id, (l.keys.length : Int)][i]? = some n → FitsUnsigned n →
      wordAt (l.block ++ rest) (4 * i) = n := by
    intro i n hi hn
    exact wordAt_row [] _ hi hn (zero_add _).symm
  have hid : wordAt (l.block ++ rest) 0 = l.id := hword 0 _ rfl (h.unsigned _ (by simp))
  have hcount : u32At (l.block ++ rest) 4 = rows.length := by
    rw [hrows, length_map, (inOrder_perm l.keys).length_eq]
    exact Int.ofNat.inj (hword 1 _ rfl (h.unsigned _ (by simp)))
  have hlong : ¬ (l.block ++ rest).length < 8 := by
    rw [hblock, length_append, length_row]
    simp
  have hbody : (l.block ++ rest).drop 8 = rows.flatten ++ rest := by
    rw [hblock]
    exact drop_left' (length_row _)
  have hkeys : rows.map readKey = inOrder l.keys := by
    rw [hrows, map_map]
    exact (map_congr_left fun k hk => readKey_row_words (packs_of_mem_inOrder h hk)).trans (map_id _)
  rw [readBlocks, if_neg hlong, hid, hcount, hbody, records_flatten (by decide) hrow]
  simp only [hkeys]

end

/-! ## When an animation can be written

An animation can be written exactly if every number that goes into the file fits in its word.
Nothing else can go wrong, and nothing is forgiven: one key frame that does not fit is enough. -/

variable {l : Layer}

section

variable {α β : Type}

def Succeeds (x : Except Fault α) : Prop := ∃ a, x = .ok a

theorem succeeds_pure (a : α) : Succeeds (pure a) := ⟨a, rfl⟩

theorem succeeds_bind {x : Except Fault α} {f : α → Except Fault β} :
    Succeeds (x >>= f) ↔ ∃ a, x = .ok a ∧ Succeeds (f a) := by
  cases x with
  | ok a =>
    refine ⟨fun h => ⟨a, rfl, h⟩, ?_⟩
    rintro ⟨b, hb, h⟩
    rwa [ok.inj hb]
  | error g => exact ⟨fun ⟨_, h⟩ => (nomatch h), fun ⟨_, h, _⟩ => (nomatch h)⟩

theorem succeeds_mapM {f : α → Except Fault β} {as : List α} :
    Succeeds (as.mapM f) ↔ ∀ a ∈ as, Succeeds (f a) := by
  induction as with
  | nil => exact ⟨fun _ _ h => (nomatch h), fun _ => ⟨[], rfl⟩⟩
  | cons a as ih =>
    rw [mapM_cons, succeeds_bind, forall_mem_cons, ← ih]
    simp only [succeeds_bind, succeeds_pure, and_true, exists_and_right]
    rfl

end

theorem succeeds_unsignedWord : Succeeds (unsignedWord n) ↔ FitsUnsigned n := by
  constructor
  · rintro ⟨bs, h⟩
    unfold unsignedWord at h
    split at h
    · next hfits => simpa [FitsUnsigned] using hfits
    · cases h
  · exact fun h => ⟨_, unsignedWord_eq h⟩

theorem succeeds_signedWord : Succeeds (signedWord n) ↔ FitsSigned n := by
  constructor
  · rintro ⟨bs, h⟩
    unfold signedWord at h
    split at h
    · next hfits => simpa [FitsSigned] using hfits
    · cases h
  · exact fun h => ⟨_, signedWord_eq h⟩

/-- The numbers of a key frame other than its time fit in words. -/
structure Key.Fits (k : Key) : Prop where
  unsigned : ∀ n ∈ [k.color1, k.color2], FitsUnsigned n
  signed : ∀ n ∈ [k.rotX, k.rotY, k.rotZ, k.scaleX, k.scaleY, k.posX, k.posY, k.posZ], FitsSigned n

theorem succeeds_payload : Succeeds (payload k) ↔ k.Fits := by
  unfold payload
  simp only [succeeds_bind, succeeds_pure, and_true, exists_and_right]
  change Succeeds _ ∧ Succeeds _ ∧ Succeeds _ ∧ Succeeds _ ↔ _
  rw [succeeds_unsignedWord, succeeds_mapM, succeeds_unsignedWord, succeeds_mapM]
  simp only [succeeds_signedWord]
  constructor
  · rintro ⟨hc1, hmiddle, hc2, hposition⟩
    exact ⟨by simp [hc1, hc2], forall_mem_append.mpr ⟨hmiddle, hposition⟩⟩
  · intro h
    have hsigned : ∀ n ∈ [k.rotX, k.rotY, k.rotZ, k.scaleX, k.scaleY] ++ [k.posX, k.posY, k.posZ],
        FitsSigned n := h.signed
    obtain ⟨hmiddle, hposition⟩ := forall_mem_append.mp hsigned
    exact ⟨h.unsigned _ (by simp), hmiddle, h.unsigned _ (by simp), hposition⟩

theorem fits_iff : k.fits = true ↔ k.Fits := by
  rw [← succeeds_payload, Key.fits]
  cases payload k with
  | ok bs => exact ⟨fun _ => ⟨bs, rfl⟩, fun _ => rfl⟩
  | error g => exact ⟨fun h => (nomatch h), fun ⟨_, h⟩ => (nomatch h)⟩

theorem packs_iff : k.Packs ↔ FitsUnsigned k.time ∧ k.Fits := by
  constructor
  · intro h
    exact ⟨h.unsigned _ (by simp), fun n hn => h.unsigned n (mem_cons_of_mem _ hn), h.signed⟩
  · rintro ⟨htime, h⟩
    exact ⟨forall_mem_cons.mpr ⟨htime, h.unsigned⟩, h.signed⟩

theorem succeeds_keyBytes : Succeeds (keyBytes k) ↔ k.Packs := by
  unfold keyBytes
  simp only [succeeds_bind, succeeds_pure, and_true, exists_and_right]
  rw [packs_iff, ← succeeds_payload, ← succeeds_unsignedWord]
  rfl

/-- The numbers of the table entry of a layer, for a picture of some size, and of its key block fit
in words. -/
structure Layer.Fits (pictures : List Picture) (l : Layer) : Prop where
  signed : ∀ n ∈ [l.parent, (pictureSize pictures l.name).1, (pictureSize pictures l.name).2], FitsSigned n
  unsigned : ∀ n ∈ [l.unk36, l.unk40, l.unk44, l.unk56, l.flags, l.id, (l.keys.length : Int)], FitsUnsigned n
  keys : ∀ k ∈ l.keys, k.Packs

theorem succeeds_entryBytes : Succeeds (entryBytes pictures l) ↔
      (∀ n ∈ [l.parent, (pictureSize pictures l.name).1, (pictureSize pictures l.name).2], FitsSigned n) ∧
        ∀ n ∈ [l.unk36, l.unk40, l.unk44, l.unk56, l.flags], FitsUnsigned n := by
  unfold entryBytes
  simp only [succeeds_bind, succeeds_pure, and_true, exists_and_right]
  change Succeeds _ ∧ Succeeds _ ∧ Succeeds _ ∧ Succeeds _ ∧ Succeeds _ ∧ Succeeds _ ∧ Succeeds _ ∧ Succeeds _ ↔ _
  simp only [succeeds_signedWord, succeeds_unsignedWord, forall_mem_cons, not_mem_nil, IsEmpty.forall_iff,
    implies_true]
  tauto

theorem succeeds_blockBytes : Succeeds (blockBytes l) ↔
      (∀ n ∈ [l.id, (l.keys.length : Int)], FitsUnsigned n) ∧ ∀ k ∈ l.keys, k.Packs := by
  unfold blockBytes
  simp only [succeeds_bind, succeeds_pure, and_true, exists_and_right]
  change Succeeds _ ∧ Succeeds _ ∧ Succeeds _ ↔ _
  simp only [succeeds_unsignedWord, succeeds_mapM, succeeds_keyBytes, forall_mem_cons, not_mem_nil,
    IsEmpty.forall_iff, implies_true, (inOrder_perm l.keys).mem_iff, and_assoc, true_and]

theorem layer_fits_iff :
    Succeeds (entryBytes pictures l) ∧ Succeeds (blockBytes l) ↔ l.Fits pictures := by
  rw [succeeds_entryBytes, succeeds_blockBytes]
  constructor
  · rintro ⟨⟨hsigned, hentry⟩, hblock, hkeys⟩
    exact ⟨hsigned, forall_mem_append.mpr ⟨hentry, hblock⟩, hkeys⟩
  · intro h
    have hunsigned : ∀ n ∈ [l.unk36, l.unk40, l.unk44, l.unk56, l.flags] ++ [l.id, (l.keys.length : Int)],
        FitsUnsigned n := h.unsigned
    obtain ⟨hentry, hblock⟩ := forall_mem_append.mp hunsigned
    exact ⟨⟨h.signed, hentry⟩, hblock, h.keys⟩

def headerNumbers (a : Animation) : List Int :=
  [if a.tickRate > 0 then a.tickRate else 60, a.totalFrames, a.markerB * 0x10000 + a.markerA % 0x10000, a.headerFlags,
    a.layers.length]

/-- **An animation can be written exactly if its numbers fit.** -/
theorem succeeds_encode {a : Animation} :
    Succeeds (encode a) ↔
      (∀ n ∈ headerNumbers a, FitsUnsigned n) ∧ ∀ l ∈ a.layers, l.Fits a.pictures := by
  have hheader : Succeeds (headerBytes a) ↔ ∀ n ∈ headerNumbers a, FitsUnsigned n := by
    unfold headerBytes headerNumbers
    simp only [succeeds_bind, succeeds_pure, and_true, exists_and_right]
    change Succeeds _ ∧ Succeeds _ ∧ Succeeds _ ∧ Succeeds _ ∧ Succeeds _ ↔ _
    simp only [succeeds_unsignedWord, forall_mem_cons, not_mem_nil, IsEmpty.forall_iff, implies_true,
      and_true]
  unfold encode
  simp only [succeeds_bind, succeeds_pure, and_true, exists_and_right]
  change Succeeds _ ∧ Succeeds _ ∧ Succeeds _ ↔ _
  rw [hheader, succeeds_mapM, succeeds_mapM]
  simp only [← layer_fits_iff, forall_and]

end Localizer.Animation
