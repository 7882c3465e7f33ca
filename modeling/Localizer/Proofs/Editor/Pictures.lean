import Localizer.Proofs.Editor.Save

/-!
# Layers and their pictures

A layer refers to its picture twice, by place and by name. Reading a file makes both the same,
although a file may end after a picture has been listed and before its layer; and whatever the user
does to the layers, both stay the same. All that changes the list of pictures is asking for one by
its name (`requirePicture`), which appends it unless it is there.
-/

namespace Localizer.Animation

open List Text

def names (ps : List Picture) : List Text := ps.map (·.name)

/-- The place and the name by which a layer refers to its picture agree. -/
def Shows (ps : List Picture) (l : Layer) : Prop :=
  ∃ (i : Nat) (p : Picture), l.picture = i ∧ ps[i]? = some p ∧ p.name = l.name

/-- An animation whose layers and pictures fit together. -/
structure Consistent (a : Animation) : Prop where
  distinct : (names a.pictures).Nodup
  shows : ∀ l ∈ a.layers, Shows a.pictures l
  layerCount : a.layerCount = a.layers.length
  pictureCount : a.pictureCount = a.pictures.length

theorem shows_iff {ps : List Picture} {l : Layer} :
    Shows ps l ↔ ∃ i : Nat, l.picture = i ∧ (names ps)[i]? = some l.name := by
  simp only [Shows, names, getElem?_map, Option.map_eq_some_iff]
  constructor
  · rintro ⟨i, p, hi, hp, hname⟩
    exact ⟨i, hi, p, hp, hname⟩
  · rintro ⟨i, hi, p, hp, hname⟩
    exact ⟨i, p, hi, hp, hname⟩

theorem Shows.mono {ps qs : List Picture} {l : Layer} (hpre : ps <+: qs) (h : Shows ps l) :
    Shows qs l := by
  obtain ⟨i, p, hi, hp, hname⟩ := h
  obtain ⟨rest, rfl⟩ := hpre
  exact ⟨i, p, hi, getElem?_append_left (List.getElem?_eq_some_iff.mp hp).1 ▸ hp, hname⟩

/-! ### Asking for a picture -/

section

variable (name : Text) (size : Int × Int) (ps : List Picture)

theorem isPrefix_requirePicture : ps <+: (requirePicture name size ps).2 := by
  unfold requirePicture
  split
  · exact prefix_rfl
  · exact prefix_append _ _

theorem getElem?_requirePicture :
    ∃ p, (requirePicture name size ps).2[(requirePicture name size ps).1]? = some p ∧
      p.name = name := by
  unfold requirePicture
  split
  · next i hi =>
    obtain ⟨hlt, hname, -⟩ := findIdx?_eq_some_iff_getElem.mp hi
    exact ⟨ps[i], getElem?_eq_getElem hlt, of_decide_eq_true hname⟩
  · exact ⟨_, getElem?_concat_length, rfl⟩

theorem nodup_requirePicture {ps : List Picture} (h : (names ps).Nodup) :
    (names (requirePicture name size ps).2).Nodup := by
  unfold requirePicture
  split
  · exact h
  · next hnone =>
    have hnew : name ∉ names ps := by
      intro hmem
      obtain ⟨p, hp, hname⟩ := mem_map.mp hmem
      have hother := findIdx?_eq_none_iff.mp hnone p hp
      exact of_decide_eq_false hother hname
    rw [names, map_append, map_singleton, ← concat_eq_append]
    exact Nodup.concat hnew h

theorem shows_requirePicture (l : Layer) :
    Shows (requirePicture name size ps).2 { l with name := name, picture := (requirePicture name size ps).1 } := by
  obtain ⟨p, hp, hname⟩ := getElem?_requirePicture name size ps
  exact ⟨_, p, rfl, hp, hname⟩

end

/-! ### Files -/

theorem addPicture_eq (ps : List Picture) (entry : Bytes) :
    addPicture ps entry =
      (requirePicture (entryName entry) (wordAt entry 48, wordAt entry 52) ps).2 := by
  unfold addPicture requirePicture
  cases pictureIndex? ps (entryName entry) <;> rfl

theorem shows_readLayer (ps : List Picture) (entry : Bytes) (id : Int) (keys : List Key) :
    Shows (addPicture ps entry) (readLayer (addPicture ps entry) entry id keys) := by
  rw [addPicture_eq]
  obtain ⟨p, hp, hname⟩ := getElem?_requirePicture (entryName entry) (wordAt entry 48, wordAt entry 52) ps
  generalize (requirePicture (entryName entry) (wordAt entry 48, wordAt entry 52) ps).2 = qs at hp
  cases hi : pictureIndex? qs (entryName entry) with
  | none =>
    have hother := findIdx?_eq_none_iff.mp hi p (mem_of_getElem? hp)
    exact absurd hname (of_decide_eq_false hother)
  | some i =>
    obtain ⟨hlt, hname, -⟩ := findIdx?_eq_some_iff_getElem.mp hi
    refine ⟨i, qs[i], ?_, getElem?_eq_getElem hlt, of_decide_eq_true hname⟩
    simp [readLayer, hi]

/-- Blocks are read one after another. Pictures that later entries list do not move the earlier
ones. -/
theorem readBlocks_spec (ps : List Picture) (entries : List Bytes) (bs : Bytes)
    (h : (names ps).Nodup) :
    ps <+: (readBlocks ps entries bs).1 ∧ (names (readBlocks ps entries bs).1).Nodup ∧
      ∀ l ∈ (readBlocks ps entries bs).2, Shows (readBlocks ps entries bs).1 l := by
  induction entries generalizing ps bs with
  | nil => exact ⟨prefix_rfl, h, fun _ hl => absurd hl not_mem_nil⟩
  | cons entry entries ih =>
    have hpre : ps <+: addPicture ps entry := addPicture_eq ps entry ▸ isPrefix_requirePicture _ _ ps
    have hadd : (names (addPicture ps entry)).Nodup := addPicture_eq ps entry ▸ nodup_requirePicture _ _ h
    rw [readBlocks]
    split
    · exact ⟨hpre, hadd, fun _ hl => absurd hl not_mem_nil⟩
    · obtain ⟨hpre', hnodup, hshows⟩ := ih (addPicture ps entry) _ hadd
      refine ⟨hpre.trans hpre', hnodup, fun l hl => ?_⟩
      rcases mem_cons.mp hl with rfl | hl
      · exact (shows_readLayer ps entry _ _).mono hpre'
      · exact hshows l hl

theorem consistent_of_decode {bs : Bytes} {a : Animation} (h : decode bs = .ok a) : a.Consistent := by
  unfold decode at h
  split at h
  · cases h
  · split at h
    · cases h
    · obtain ⟨-, hnodup, hshows⟩ := readBlocks_spec [] (records 64 (Word.u32At bs 20) (bs.drop 24)).1
        (records 64 (Word.u32At bs 20) (bs.drop 24)).2 nodup_nil
      exact Except.ok.inj h ▸ ⟨hnodup, hshows, rfl, rfl⟩

/-! ### Edits -/

namespace Consistent

variable {a : Animation}

variable (h : a.Consistent)
include h

theorem loadedFrom (ws : Workspace) (dir : Text) : (Editor.loadedFrom ws dir a).Consistent := by
  have hunloaded := Editor.unloaded_loadPictures ws dir a.pictures
  have hnames : names (Editor.loadedFrom ws dir a).pictures = names a.pictures := by
    have hmap := congrArg (List.map (·.name)) hunloaded
    rwa [map_map, map_map] at hmap
  refine ⟨hnames ▸ h.distinct, fun l hl => ?_, h.layerCount, h.pictureCount.trans ?_⟩
  · have hshows := h.shows l hl
    rw [shows_iff] at hshows ⊢
    rwa [hnames]
  · have hlength := congrArg List.length hunloaded.symm
    rwa [length_map, length_map] at hlength

theorem renameLayer (i : Nat) (name : Text) (size : Int × Int) :
    (renameLayer i name size a).Consistent where
  distinct := nodup_requirePicture name size h.distinct
  shows := forall_mem_modify (fun l hl => (h.shows l hl).mono (isPrefix_requirePicture name size a.pictures))
    fun l _ => shows_requirePicture name size a.pictures l
  layerCount := h.layerCount.trans (length_modify ..).symm
  pictureCount := rfl

theorem addStatic (name : Text) (size : Int × Int) (x y : Int) :
    (addStatic name size x y a).Consistent where
  distinct := nodup_requirePicture name size h.distinct
  shows := by
    refine forall_mem_append.mpr ⟨fun l hl => ?_, forall_mem_singleton.mpr ?_⟩
    · exact (h.shows l hl).mono (isPrefix_requirePicture name size a.pictures)
    · exact shows_requirePicture name size a.pictures (staticLayer a.nextId 0 name x y)
  layerCount := rfl
  pictureCount := rfl

theorem removeLayer (i : Nat) : (removeLayer i a).Consistent where
  distinct := h.distinct
  shows l hl := by
    obtain ⟨l, hmem, rfl⟩ := mem_map.mp hl
    exact h.shows l (mem_of_mem_eraseIdx hmem)
  layerCount := rfl
  pictureCount := h.pictureCount

theorem modifyKeys (i : Nat) (f : List Key → List Key) : (modifyKeys i f a).Consistent where
  distinct := h.distinct
  shows := forall_mem_modify h.shows fun l hl => h.shows l (mem_of_getElem? hl)
  layerCount := h.layerCount.trans (length_modify ..).symm
  pictureCount := h.pictureCount

end Consistent

end Localizer.Animation

namespace Localizer.Editor

open List Text Animation

/-- Layers and pictures of all animations fit together. -/
def consistency : Rule where
  anim _ := Consistent
  frame _ := True
  time _ := True
  place _ _ := True

theorem lawful_consistency : consistency.Lawful where
  toOrderly := Rule.orderly_of_forall (fun _ => trivial) fun _ => trivial
  mono h := h
  total _ := trivial
  action _ _ := ⟨trivial, trivial⟩
  pose _ _ _ _ _ := trivial
  reload h := h.loadedFrom _ _
  rename _ h := h.renameLayer _ _ _
  add _ _ h := h.addStatic _ _ _ _
  remove h := h.removeLayer _
  keys h _ _ := h.modifyKeys _ _

/-- **Layers and pictures fit together.** After a file has been loaded and the user has done
anything else, every document, whether it is shown, was put aside or was taken back, has an
animation in which no two pictures have the same name, every layer refers to a picture of its own
name, and layers and pictures are counted. -/
theorem layers_show_their_pictures {files : Workspace} {w h : Int} {p : Text} {f : File}
    {a : Animation} (hread : files.read p = .ok f) (hdecode : decode f.bytes = .ok a)
    {is : List Input} (his : ∀ i ∈ is, ∀ place picture, i ≠ .setPicture place picture) :
    let e := ran is (after (load p) (start files w h))
    ∀ d ∈ e.doc :: (e.undos ++ e.redos), ∃ b, d.anim? = some b ∧ b.Consistent := by
  intro e d hd
  have hallows : ∀ i ∈ is, consistency.Allows i := fun i hi =>
    ⟨his i hi, fun _ _ bs a ha => consistent_of_decode ha, Rule.covers_of_forall (fun _ => trivial) i, fun _ _ _ => trivial⟩
  have hloaded : consistency.Holds 0 (after (load p) (start files w h)) :=
    lawful_consistency.loaded hread hdecode (consistent_of_decode hdecode)
  have hran := lawful_consistency.ran hallows hloaded
  have hadmits : consistency.Admits (0 + is.length) d := by
    rcases List.mem_cons.mp hd with rfl | hd
    · exact hran.shown
    · exact hran.aside d hd
  obtain ⟨b, hb⟩ := Option.isSome_iff_exists.mp hadmits.isSome
  exact ⟨b, hb, hadmits.anim b hb⟩

/-- A layer is removed and brought back, one is added, and another file is loaded. -/
theorem layers_show_their_pictures_pair :
    let is : List Input :=
      [.pickLayer (some 0), .delete, .move .undo, .add (some ⟨"star", .ok 8, .ok 8⟩), .load "/film"]
    let e := ran is (after (load "/pair") (start desk 640 480))
    ∀ d ∈ e.doc :: (e.undos ++ e.redos), ∃ b, d.anim? = some b ∧ b.Consistent :=
  layers_show_their_pictures (f := { data := blankPair.file }) rfl decode_blankPair (by simp)

end Localizer.Editor
