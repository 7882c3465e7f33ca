import Localizer.Proofs.Editor.History

/-!
# Deletions, and how they are taken back

Layers are referred to by their places: by the layers that are attached to them, by the adjustments
and by the list of hidden layers. A deletion moves the layers above the deleted one, and all
references with them.

Before a layer is deleted the document is put aside, so undoing brings the animation, the
adjustments and the frame back. The places of the hidden layers and the range of frames are not
brought back.
-/

namespace Localizer.Editor

open Text Animation List

variable {e : Editor} {a : Animation} {place k k' : Nat} {more : List Nat} {i : Int} {hidden : List Int}

/-! ### Deleting -/

/-- Deleting changes what the user works on as `withoutLayer` says, after the document was put
aside. -/
theorem work_deleteChosen (ha : e.doc.anim? = some a)
    (hchoice : e.layerChoice = place :: more) (hplace : place < a.layers.length) :
    (after deleteChosen e).work = (withoutLayer place (pushed e)).work := by
  rw [deleteChosen, after_get_bind, ha, hchoice]
  simp only [if_pos hplace, pushUndo, after_modify_bind]
  exact (Keeps.bind keeps_fillLayers fun _ => keeps_render) _ rfl

theorem work_withoutLayer (place : Nat) (ha : e.doc.anim? = some a) :
    ∃ d, (withoutLayer place (pushed e)).work = ⟨e.files, d, (e.doc :: e.undos).take historyLimit, [], e.baseDir,
      e.path, e.hidden.filterMap (shiftPlace? place)⟩ := by
  rw [pushed_of_isSome (by rw [ha]; rfl), withoutLayer]
  simp only [ha]
  exact ⟨_, rfl⟩

theorem work_undo_deleteChosen (ha : e.doc.anim? = some a) (hchoice : e.layerChoice = place :: more)
    (hplace : place < a.layers.length) (hload : Loadable e a) :
    (after undo (after deleteChosen e)).doc = (e.reloadedDoc e.doc).withRange (firstRange e.doc) ∧
      (after undo (after deleteChosen e)).hidden = e.hidden.filterMap (shiftPlace? place) := by
  obtain ⟨d, hd⟩ := work_withoutLayer place ha
  have hwork := (work_deleteChosen ha hchoice hplace).trans hd
  generalize after deleteChosen e = e₁ at hwork ⊢
  have hfiles : e₁.files = e.files := congrArg Work.files hwork
  have hbase : e₁.baseDir = e.baseDir := congrArg Work.baseDir hwork
  have hundos : e₁.undos = e.doc :: e.undos.take 49 := congrArg Work.undos hwork
  have hhidden : e₁.hidden = e.hidden.filterMap (shiftPlace? place) := congrArg Work.hidden hwork
  have hload₁ : Loadable e₁ a := by rwa [Loadable, hfiles, hbase]
  have hundo := work_undo_of_loadable hundos ha hload₁
  have hreloaded : e₁.reloadedDoc e.doc = e.reloadedDoc e.doc := by
    have hpictures : e₁.reloaded = e.reloaded := by
      funext a
      rw [reloaded, reloaded, hfiles, hbase]
    rw [reloadedDoc, reloadedDoc, hpictures]
  exact ⟨hreloaded ▸ congrArg Work.doc hundo, (congrArg Work.hidden hundo).trans hhidden⟩

/-! ### Places that move -/

/-- The layer at the place `k` comes to be at `k'` when the one at `i` is deleted. -/
def Comes (i k k' : Int) : Prop := (k = k' ∧ k < i) ∨ (k = k' + 1 ∧ i < k)

theorem shiftPlace?_eq_some_iff {k k' : Int} : shiftPlace? i k = some k' ↔ Comes i k k' := by
  unfold shiftPlace? Comes
  split_ifs with hdeleted habove
  · simp only [false_iff]
    omega
  all_goals
    simp only [Option.some.injEq]
    omega

theorem mem_filterMap_shiftPlace? {place : Int} :
    i ∈ hidden.filterMap (shiftPlace? place) ↔
      (i ∈ hidden ∧ i < place) ∨ (i + 1 ∈ hidden ∧ place ≤ i) := by
  simp only [mem_filterMap, shiftPlace?_eq_some_iff]
  constructor
  · rintro ⟨k, hk, ⟨rfl, hlt⟩ | ⟨rfl, hlt⟩⟩
    · exact .inl ⟨hk, hlt⟩
    · exact .inr ⟨hk, by omega⟩
  · rintro (⟨hi, hlt⟩ | ⟨hi, hle⟩)
    · exact ⟨i, hi, .inl ⟨rfl, hlt⟩⟩
    · exact ⟨i + 1, hi, .inr ⟨rfl, by omega⟩⟩

theorem getElem?_removeLayer {i : Nat} (h : Comes i k k') (a : Animation) :
    (removeLayer i a).layers[k']? =
      (a.layers[k]?).map fun l => { l with parent := shiftParent i l.parent } := by
  have hlayers : (removeLayer i a).layers = (a.layers.eraseIdx i).map fun l => { l with parent := shiftParent i l.parent } :=
    rfl
  rw [hlayers, getElem?_map, getElem?_eraseIdx]
  rcases h with ⟨hk, hlt⟩ | ⟨hk, hlt⟩
  · obtain rfl : k = k' := by omega
    rw [if_pos (by omega)]
  · obtain rfl : k = k' + 1 := by omega
    rw [if_neg (by omega)]

theorem get?_filterMap_shiftPlace? {i : Nat} (h : Comes i k k') (adjust : List (Nat × Text)) :
    Assoc.get? k' (adjust.filterMap fun entry => (shiftPlace? i entry.1).map (·.toNat, entry.2)) =
      Assoc.get? k adjust := by
  induction adjust with
  | nil => rfl
  | cons entry adjust ih =>
    obtain ⟨j, v⟩ := entry
    rw [Assoc.get?]
    cases hj : shiftPlace? i j with
    | none =>
      have hdeleted : (j : Int) = i := by
        unfold shiftPlace? at hj
        split_ifs at hj with hdeleted
        exact hdeleted
      rw [filterMap_cons_none (by rw [hj]; rfl), ih, if_neg (by unfold Comes at h; omega)]
    | some j' =>
      have hsame : j'.toNat = k' ↔ j = k := by
        have hj' := shiftPlace?_eq_some_iff.mp hj
        unfold Comes at h hj'
        omega
      rw [filterMap_cons_some (by rw [hj]; rfl), Assoc.get?, ih]
      simp only [hsame]

/-- **A deletion keeps references on their layers.** The layers that remain are the old ones in
their order, apart from their parents. A layer that was attached to the deleted one is attached to
none, and every other one to the layer that it was attached to before. The adjustments and the
hidden layers are those that remain of the old ones. -/
theorem deleteChosen_keeps_references {e : Editor} {a : Animation} {place : Nat} {more : List Nat}
    (ha : e.doc.anim? = some a) (hchoice : e.layerChoice = place :: more)
    (hplace : place < a.layers.length) : let e' := after deleteChosen e
    ∃ b, e'.doc.anim? = some b ∧ b.layers.length + 1 = a.layers.length ∧
      (∀ (k k' : Nat) (l : Layer), Comes place k k' → a.layers[k]? = some l →
        ∃ parent, b.layers[k']? = some { l with parent := parent } ∧ (l.parent = place → parent = -1) ∧
          (l.parent < 0 → parent = l.parent) ∧ (0 ≤ l.parent → l.parent ≠ place → Comes place l.parent parent)) ∧
      (∀ k k' : Nat, Comes place k k' → Assoc.get? k' e'.doc.adjust = Assoc.get? k e.doc.adjust) ∧
      ∀ k' : Int, k' ∈ e'.hidden ↔ ∃ k ∈ e.hidden, Comes place k k' := by
  intro e'
  have hwork := work_deleteChosen ha hchoice hplace
  rw [pushed_of_isSome (by rw [ha]; rfl), withoutLayer] at hwork
  simp only [ha] at hwork
  have hdoc : e'.doc.anim? = some (removeLayer place a) := congrArg (·.doc.anim?) hwork
  have hadjust : e'.doc.adjust = _ := congrArg (·.doc.adjust) hwork
  have hhidden : e'.hidden = e.hidden.filterMap (shiftPlace? place) := congrArg Work.hidden hwork
  refine ⟨_, hdoc, ?_, fun k k' l hk hl => ?_, fun k k' hk => ?_, fun k' => ?_⟩
  · have hlength : (removeLayer place a).layers.length = (a.layers.eraseIdx place).length := length_map ..
    rw [hlength, length_eraseIdx_of_lt hplace]
    omega
  · refine ⟨shiftParent place l.parent, by rw [getElem?_removeLayer hk, hl, Option.map_some], ?_⟩
    unfold shiftParent Comes
    split_ifs <;> omega
  · rw [hadjust]
    exact get?_filterMap_shiftPlace? hk e.doc.adjust
  · simp [hhidden, shiftPlace?_eq_some_iff]

/-- An animation of four layers, each attached to the one below it. -/
def chain : Animation where
  tickRate := 30
  totalFrames := 20
  markerA := 0
  markerB := 0
  layers := [-1, 0, 1, 2].map fun parent => { id := 0, picture := 0, name := [], parent := parent }

/-- The second layer is deleted while the top one is centred and hidden. The layer above the deleted
one is attached to none, and the top one to that layer still. -/
theorem deleteChosen_keeps_references_chain :
    let e : Editor :=
      { files := { cwd := "/" }, canvas := ⟨640, 480, [], none, []⟩, layerChoice := [1], hidden := [3],
        doc := { anim? := some chain, adjust := [(1, "关"), (3, "中心")] } }
    let e' := after deleteChosen e
    ∃ b, e'.doc.anim? = some b ∧ b.layers[1]?.map (·.parent) = some (-1) ∧ b.layers[2]?.map (·.parent) = some 1 ∧
      Assoc.get? 2 e'.doc.adjust = some "中心".toList ∧ 2 ∈ e'.hidden := by
  intro e e'
  obtain ⟨b, hb, -, hlayers, hadjust, hhidden⟩ := @deleteChosen_keeps_references e chain 1 [] rfl rfl (by decide)
  obtain ⟨p, hp, hdeleted, -⟩ := hlayers 2 1 _ (.inr (by decide)) rfl
  obtain ⟨q, hq, -, -, hother⟩ := hlayers 3 2 _ (.inr (by decide)) rfl
  have hbelow : Comes 1 2 q := hother (by decide) (by decide)
  obtain rfl : q = 1 := by
    unfold Comes at hbelow
    omega
  refine ⟨b, hb, by rw [hp, hdeleted rfl]; rfl, by rw [hq]; rfl, hadjust 3 2 (.inr (by decide)), ?_⟩
  exact (hhidden 2).mpr ⟨3, mem_singleton_self 3, .inr (by decide)⟩

/-- The places are those they were before exactly if none is at or above the deleted one: otherwise
each such place would have a next one. -/
theorem filterMap_shiftPlace?_iff {place : Int} :
    (∀ i, i ∈ hidden.filterMap (shiftPlace? place) ↔ i ∈ hidden) ↔ ∀ i ∈ hidden, i < place := by
  simp only [mem_filterMap_shiftPlace?]
  constructor
  · intro h i hi
    by_contra hle
    have hnext : ∀ j ∈ hidden, place ≤ j → j + 1 ∈ hidden := fun j hj hle =>
      ((h j).mpr hj).elim (fun hlt => absurd hlt.2 (by omega)) And.left
    have hall : ∀ n : Nat, i + n ∈ hidden := by
      intro n
      induction n with
      | zero => simpa using hi
      | succ n ih =>
        have := hnext (i + n) ih (by omega)
        rwa [add_assoc] at this
    obtain ⟨top, htop⟩ := (finite_toSet hidden).bddAbove
    have := htop (hall (top - i + 1).toNat)
    omega
  · intro h i
    constructor
    · rintro (⟨hi, -⟩ | ⟨hi, hle⟩)
      · exact hi
      · exact absurd (h _ hi) (by omega)
    · exact fun hi => .inl ⟨hi, h i hi⟩

/-- **What an undo brings back of a deletion.** The animation comes back with its pictures loaded
again, and so do the adjustments and the frame. The range of frames becomes that of the first
action, and the set of hidden layers comes back exactly if no hidden layer was the deleted one or
above it. -/
theorem undo_deleteChosen {e : Editor} {a : Animation} {place : Nat} {more : List Nat}
    (ha : e.doc.anim? = some a) (hchoice : e.layerChoice = place :: more)
    (hplace : place < a.layers.length) (hload : Loadable e a) :
    let e' := after undo (after deleteChosen e)
    e'.doc.anim? = some (e.reloaded a) ∧ e'.doc.content = e.doc.content ∧ e'.doc.range = firstRange e.doc ∧
      e'.hidden = e.hidden.filterMap (shiftPlace? place) ∧
      ((∀ i, i ∈ e'.hidden ↔ i ∈ e.hidden) ↔ ∀ i ∈ e.hidden, i < place) := by
  obtain ⟨hdoc, hhidden⟩ := work_undo_deleteChosen ha hchoice hplace hload
  refine ⟨?_, ?_, ?_, hhidden, ?_⟩
  · rw [hdoc, Document.withRange, reloadedDoc, ha]
    rfl
  · rw [hdoc, content_withRange, content_reloadedDoc]
  · rw [hdoc]
    rfl
  · rw [hhidden]
    exact filterMap_shiftPlace?_iff

/-- An animation of two actions and two layers whose pictures are missing. -/
def twoActs : Animation where
  tickRate := 30
  totalFrames := 20
  markerA := 10
  markerB := 10
  layers := [{ id := 0, picture := 0, name := [] }, { id := 1, picture := 0, name := [] }]
  actions := [⟨1, 0, 10⟩, ⟨2, 10, 20⟩]
  layerCount := 2

/-- An editor that shows a range of frames of it, where a layer is chosen and others are hidden. -/
def showingActs (range : Int × Int) (place : Nat) (hidden : List Int) : Editor where
  files := { cwd := "/" }
  canvas := ⟨640, 480, [], none, []⟩
  doc := { anim? := some twoActs, range := range }
  layerChoice := [place]
  hidden := hidden

theorem undo_deleteChosen_upper :
    let e := showingActs (0, 10) 1 [0]
    let e' := after undo (after deleteChosen e)
    e'.doc.content = e.doc.content ∧ e'.doc.range = e.doc.range ∧ ∀ i, i ∈ e'.hidden ↔ i ∈ e.hidden := by
  intro e e'
  have hanim : e.doc.anim? = some twoActs := rfl
  have hchoice : e.layerChoice = [1] := rfl
  obtain ⟨-, hcontent, hrange, -, hhidden⟩ := undo_deleteChosen hanim hchoice (by decide) fun p hp => nomatch hp
  exact ⟨hcontent, hrange, hhidden.mpr (by decide)⟩

/-- The lower layer is deleted while the second action is shown and the upper layer is hidden. After
the undo the first action is shown and the lower layer is hidden. -/
theorem undo_deleteChosen_lower :
    let e := showingActs (10, 20) 0 [1]
    let e' := after undo (after deleteChosen e)
    e.doc.range = (10, 20) ∧ e.hidden = [1] ∧ e'.doc.range = (0, 10) ∧ e'.hidden = [0] := by
  intro e e'
  have hanim : e.doc.anim? = some twoActs := rfl
  have hchoice : e.layerChoice = [0] := rfl
  obtain ⟨hdoc, hhidden⟩ := work_undo_deleteChosen hanim hchoice (by decide) fun p hp => nomatch hp
  exact ⟨rfl, rfl, congrArg Document.range hdoc, hhidden⟩

end Localizer.Editor
