import Localizer.Editor.Command
import Localizer.Proofs.Editor.Edit

/-!
# Undo and redo as a walk along a timeline

The documents that were put aside, the one that is shown and those that were taken back form a
*timeline*, from the oldest to the latest. Undoing and redoing keep the timeline and only move the
place on it that is shown, by one and not beyond its ends. What a document says is its *content*:
the sizes of the pictures that are loaded belong to the files, and the range of frames is chosen
anew whenever a document is shown.
-/

namespace Localizer.Animation

open List

def Picture.unloaded (p : Picture) : Picture := { p with loaded? := none }

/-- An animation apart from the pictures that are loaded for it. -/
def unloaded (a : Animation) : Animation := { a with pictures := a.pictures.map Picture.unloaded }

end Localizer.Animation

namespace Localizer.Editor

open List Text Animation

variable {e : Editor} {d : Document} {ds : List Document}
variable {k length i : Nat}

/-! ### Contents -/

/-- What a document says: the animation apart from the pictures that are loaded, the adjustments and
the frame. -/
structure Content where
  anim? : Option Animation
  adjust : List (Nat × Text)
  frame : Float

def Document.content (d : Document) : Content := ⟨d.anim?.map unloaded, d.adjust, d.frame⟩

@[simp] theorem isSome_content (d : Document) : d.content.anim?.isSome = d.anim?.isSome :=
  Option.isSome_map

@[simp] theorem content_withRange (d : Document) (r : Int × Int) :
    (d.withRange r).content = d.content := rfl

theorem unloaded_loadPictures (ws : Workspace) (dir : Text) (ps : List Picture) :
    (loadPictures ws dir ps).1.map Picture.unloaded = ps.map Picture.unloaded := by
  induction ps with
  | nil => rfl
  | cons p ps ih =>
    rw [loadPictures]
    split
    · rfl
    · next q hq =>
      obtain ⟨size, rfl⟩ := eq_of_loadPicture hq
      simp only [map_cons, ih]
      rfl

theorem unloaded_loadedFrom (ws : Workspace) (dir : Text) (a : Animation) :
    (loadedFrom ws dir a).unloaded = a.unloaded := by
  simp only [unloaded, loadedFrom, unloaded_loadPictures]

@[simp] theorem content_reloadedDoc (e : Editor) (d : Document) :
    (e.reloadedDoc d).content = d.content := by
  have hmap : (d.anim?.map e.reloaded).map unloaded = d.anim?.map unloaded := by
    rw [Option.map_map]
    exact Option.map_congr fun a _ => unloaded_loadedFrom e.files e.baseDir a
  unfold Document.content reloadedDoc
  rw [hmap]

/-! ### One step -/

/-- A step along the history. -/
inductive Move where
  | undo
  | redo

def Move.work : Move → Edit Unit
  | undo => Editor.undo
  | redo => Editor.redo

/-- The documents to which a move can lead, the next one first. -/
def Move.ahead (e : Editor) : Move → List Document
  | undo => e.undos
  | redo => e.redos

/-- A move shows a document that was put aside or taken back and keeps the present one on the other
side. The documents that are then put aside and those that are then taken back come last. -/
inductive Turns (e : Editor) : Move → Document → List Document → List Document → Prop where
  | undo {d : Document} {ds : List Document} (h : e.undos = d :: ds) :
    Turns e .undo d ds ((snapshot? e).toList ++ e.redos)
  | redo {d : Document} {ds : List Document} (h : e.redos = d :: ds) :
    Turns e .redo d ((snapshot? e).toList ++ e.undos) ds

theorem snapshot?_of_isSome (h : e.doc.anim?.isSome) : snapshot? e = some e.doc := if_pos h

theorem turns_cases (m : Move) (e : Editor) :
    m.ahead e = [] ∧ after m.work e = e ∨ ∃ d us rs, Turns e m d us rs := by
  cases m with
  | undo =>
    cases h : e.undos with
    | nil => exact .inl ⟨h, by rw [Move.work, undo, after_get_bind, h]; rfl⟩
    | cons d ds => exact .inr ⟨d, _, _, .undo h⟩
  | redo =>
    cases h : e.redos with
    | nil => exact .inl ⟨h, by rw [Move.work, redo, after_get_bind, h]; rfl⟩
    | cons d ds => exact .inr ⟨d, _, _, .redo h⟩

namespace Turns

variable {m : Move} {us rs : List Document} (h : Turns e m d us rs)
include h

theorem after_eq : after m.work e = after (restore d) { e with undos := us, redos := rs } := by
  cases h with
  | undo h =>
    rw [Move.work, Editor.undo, after_get_bind, h]
    rfl
  | redo h =>
    rw [Move.work, Editor.redo, after_get_bind, h]
    rfl

theorem mem : d ∈ e.undos ++ e.redos := by
  cases h with
  | undo h
  | redo h => simp [h]

theorem of_mem {d' : Document} (hd' : d' ∈ us ++ rs) :
    snapshot? e = some d' ∨ d' ∈ e.undos ++ e.redos := by
  cases h with
  | undo h =>
    simp only [h, mem_append, mem_cons, Option.mem_toList] at hd' ⊢
    tauto
  | redo h =>
    simp only [h, mem_append, mem_cons, Option.mem_toList] at hd' ⊢
    tauto

theorem work_eq : ∃ r, (after m.work e).work =
    Work.withDoc { e.work with undos := us, redos := rs } ((e.reloadedDoc d).withRange r) := by
  rw [h.after_eq]
  exact work_refresh { e with doc := d, screen := [], undos := us, redos := rs }

theorem history : (after m.work e).undos = us ∧ (after m.work e).redos = rs ∧
    (after m.work e).doc.content = d.content := by
  obtain ⟨r, hr⟩ := h.work_eq
  have hdoc : (after m.work e).doc = (e.reloadedDoc d).withRange r := congrArg Work.doc hr
  refine ⟨congrArg Work.undos hr, congrArg Work.redos hr, ?_⟩
  rw [hdoc, content_withRange, content_reloadedDoc]

end Turns

theorem work_undo_of_loadable {a : Animation} (h : e.undos = d :: ds) (hd : d.anim? = some a) (hload : Loadable e a) :
    (after undo e).work = Work.withDoc { e.work with undos := ds, redos := (snapshot? e).toList ++ e.redos }
      ((e.reloadedDoc d).withRange (firstRange d)) := by
  rw [undo, after_get_bind, h]
  exact work_refresh_of_loadable
    (e := { e with doc := d, screen := [], undos := ds, redos := (snapshot? e).toList ++ e.redos }) hd hload

/-! ### The timeline -/

/-- What the documents of the history say, from the oldest that was put aside to the first that was
taken back. -/
def timeline (e : Editor) : List Content :=
  (e.undos.map Document.content).reverse ++ e.doc.content :: e.redos.map Document.content

theorem length_timeline (e : Editor) : e.timeline.length = e.undos.length + (e.redos.length + 1) := by
  simp [timeline]

theorem getElem?_timeline (e : Editor) : e.timeline[e.undos.length]? = some e.doc.content := by
  simp [timeline]

/-- What the document that is shown and the older ones say, the latest first. -/
def past (e : Editor) : List Content := (e.doc :: e.undos).map Document.content

theorem length_past (e : Editor) : e.past.length = e.undos.length + 1 := by simp [past]

theorem getElem?_timeline_sub (h : k ≤ e.undos.length) :
    e.timeline[e.undos.length - k]? = e.past[k]? := by
  cases k with
  | zero => exact getElem?_timeline e
  | succ k =>
    have hlt : e.undos.length - (k + 1) < (e.undos.map Document.content).reverse.length := by
      rw [length_reverse, length_map]
      omega
    rw [timeline, past, getElem?_append_left hlt, map_cons, getElem?_cons_succ, getElem?_reverse']
    rw [length_map]
    omega

/-- Every document of the history has an animation. -/
structure Complete (e : Editor) : Prop where
  shown : e.doc.anim?.isSome
  aside : ∀ d ∈ e.undos ++ e.redos, d.anim?.isSome

theorem complete_iff : e.Complete ↔ ∀ c ∈ e.timeline, c.anim?.isSome := by
  constructor
  · intro h c hc
    simp only [timeline, mem_append, mem_reverse, mem_cons, mem_map] at hc
    obtain ⟨d, hd, rfl⟩ | rfl | ⟨d, hd, rfl⟩ := hc
    · exact (isSome_content d).trans (h.aside d (mem_append_left _ hd))
    · exact (isSome_content e.doc).trans h.shown
    · exact (isSome_content d).trans (h.aside d (mem_append_right _ hd))
  · intro h
    refine ⟨(isSome_content e.doc).symm.trans (h _ (by simp [timeline])), fun d hd => ?_⟩
    refine (isSome_content d).symm.trans (h _ ?_)
    rcases mem_append.mp hd with hu | hr
    · exact mem_append_left _ (mem_reverse.mpr (mem_map_of_mem hu))
    · exact mem_append_right _ (mem_cons_of_mem _ (mem_map_of_mem hr))

/-! ### Walks -/

/-- The place where a move leads on a timeline of some length. -/
def Move.next (length : Nat) : Move → Nat → Nat
  | undo, i => i - 1
  | redo, i => min (i + 1) (length - 1)

def moved (ms : List Move) (e : Editor) : Editor := ms.foldl (fun e m => after m.work e) e

/-- The place where moves lead on a timeline of some length. -/
def walk (length : Nat) (ms : List Move) (i : Nat) : Nat := ms.foldl (fun i m => m.next length i) i

theorem walk_lt (ms : List Move) (h : i < length) : walk length ms i < length := by
  induction ms generalizing i with
  | nil => exact h
  | cons m ms ih =>
    refine ih ?_
    cases m with
    | undo => exact (Nat.sub_le i 1).trans_lt h
    | redo =>
      change min (i + 1) (length - 1) < length
      omega

theorem timeline_move (h : e.doc.anim?.isSome) (m : Move) :
    (after m.work e).timeline = e.timeline := by
  rcases turns_cases m e with ⟨-, hsame⟩ | ⟨d, us, rs, hturns⟩
  · rw [hsame]
  · obtain ⟨hundos, hredos, hdoc⟩ := hturns.history
    cases hturns with
    | undo hu => simp [timeline, hundos, hredos, hdoc, hu, snapshot?_of_isSome h]
    | redo hr => simp [timeline, hundos, hredos, hdoc, hr, snapshot?_of_isSome h]

theorem place_move (h : e.doc.anim?.isSome) (m : Move) :
    (after m.work e).undos.length = m.next e.timeline.length e.undos.length := by
  rw [length_timeline]
  rcases turns_cases m e with ⟨hnil, hsame⟩ | ⟨d, us, rs, hturns⟩
  · rw [hsame]
    cases m with
    | undo => simp [Move.next, show e.undos = [] from hnil]
    | redo => simp [Move.next, show e.redos = [] from hnil]
  · rw [hturns.history.1]
    cases hturns with
    | undo hu => simp [Move.next, hu]
    | redo hr => simp [Move.next, hr, snapshot?_of_isSome h]

/-- **Moves keep the timeline** and lead to the place that a walk along it reaches. -/
theorem timeline_moved (h : e.Complete) (ms : List Move) :
    (moved ms e).timeline = e.timeline ∧
      (moved ms e).undos.length = walk e.timeline.length ms e.undos.length := by
  induction ms generalizing e with
  | nil => exact ⟨rfl, rfl⟩
  | cons m ms ih =>
    have hm := timeline_move h.shown m
    have hcomplete : (after m.work e).Complete := complete_iff.mpr (hm ▸ complete_iff.mp h)
    obtain ⟨htime, hplace⟩ := ih hcomplete
    rw [hm, place_move h.shown m] at hplace
    exact ⟨htime.trans hm, hplace⟩

theorem complete_moved (h : e.Complete) (ms : List Move) : (moved ms e).Complete :=
  complete_iff.mpr ((timeline_moved h ms).1 ▸ complete_iff.mp h)

theorem content_moved (h : e.Complete) (ms : List Move) :
    e.timeline[walk e.timeline.length ms e.undos.length]? = some (moved ms e).doc.content := by
  obtain ⟨htime, hplace⟩ := timeline_moved h ms
  rw [← hplace, ← htime]
  exact getElem?_timeline (moved ms e)

theorem walk_append (length : Nat) (ms ms' : List Move) (i : Nat) :
    walk length (ms ++ ms') i = walk length ms' (walk length ms i) :=
  foldl_append

theorem walk_replicate_undo (length k i : Nat) : walk length (replicate k .undo) i = i - k := by
  induction k generalizing i with
  | zero => rfl
  | succ k ih =>
    have hstep : walk length (replicate (k + 1) .undo) i = walk length (replicate k .undo) (i - 1) := rfl
    rw [hstep, ih]
    omega

theorem walk_replicate_redo (h : i + k < length) : walk length (replicate k .redo) i = i + k := by
  induction k generalizing i with
  | zero => rfl
  | succ k ih =>
    have hnext : min (i + 1) (length - 1) = i + 1 := by omega
    have hstep : walk length (replicate (k + 1) .redo) i =
        walk length (replicate k .redo) (min (i + 1) (length - 1)) := rfl
    rw [hstep, hnext, ih (by omega)]
    omega

/-! ### Edits -/

/-- A change of the editor, after which there is an animation if there was one. What was put aside
is not its business. -/
structure Change where
  apply : Editor → Editor
  isSome : ∀ e, e.doc.anim?.isSome → (apply e).doc.anim?.isSome
  undos : ∀ e, (apply e).undos = e.undos
  redos : ∀ e, (apply e).redos = e.redos

/-- An edit: the document is put aside, and then changed. -/
def Change.edit (c : Change) : Edit Unit := do
  pushUndo
  modify c.apply

def edited (cs : List Change) (e : Editor) : Editor := cs.foldl (fun e c => after c.edit e) e

variable {cs : List Change}

theorem edited_append (cs : List Change) (c : Change) (e : Editor) :
    edited (cs ++ [c]) e = c.apply (pushed (edited cs e)) := by
  rw [edited, foldl_append]
  rfl

theorem pushed_of_isSome (h : e.doc.anim?.isSome) :
    pushed e = { e with undos := (e.doc :: e.undos).take historyLimit, redos := [] } := by
  rw [pushed, snapshot?_of_isSome h]

theorem complete_edited (h : e.Complete) (cs : List Change) : (edited cs e).Complete := by
  induction cs using reverseRecOn with
  | nil => exact h
  | append_singleton cs c ih =>
    rw [edited_append]
    have hpushed := pushed_of_isSome ih.shown
    refine ⟨c.isSome _ (hpushed ▸ ih.shown), fun d hd => ?_⟩
    rw [c.undos, c.redos, hpushed, append_nil] at hd
    rcases mem_cons.mp (mem_of_mem_take hd) with rfl | hd
    · exact ih.shown
    · exact ih.aside d (mem_append_left _ hd)

theorem past_edit (h : e.doc.anim?.isSome) (c : Change) :
    (c.apply (pushed e)).past = (c.apply (pushed e)).doc.content :: e.past.take historyLimit := by
  rw [past, map_cons, c.undos, pushed_of_isSome h, map_take]
  rfl

theorem past_edited (h : e.Complete) (hlimit : cs.length ≤ historyLimit) (hk : k ≤ cs.length) :
    (edited cs e).past[k]? = some (edited (cs.take (cs.length - k)) e).doc.content := by
  induction cs using reverseRecOn generalizing k with
  | nil =>
    obtain rfl : k = 0 := by simpa using hk
    rfl
  | append_singleton cs c ih =>
    rw [length_append, length_singleton] at hlimit hk ⊢
    rw [edited_append, past_edit (complete_edited h cs).shown]
    -- The last edit puts aside what the edits before it left; the limit cuts off only what is older than all of them.
    cases k with
    | zero =>
      rw [getElem?_cons_zero, Nat.sub_zero, take_of_length_le (by simp), edited_append]
    | succ k =>
      rw [getElem?_cons_succ, getElem?_take_of_lt (by omega), ih (by omega) (by omega),
        Nat.add_sub_add_right, take_append_of_le_length (by omega)]

theorem length_le_undos_edited (h : e.Complete) (hlimit : cs.length ≤ historyLimit) :
    cs.length ≤ (edited cs e).undos.length := by
  obtain ⟨hlt, -⟩ := List.getElem?_eq_some_iff.mp (past_edited h hlimit le_rfl)
  rw [length_past] at hlt
  omega

/-- **Undoing takes the latest edits back.** -/
theorem content_undone (h : e.Complete) (hlimit : cs.length ≤ historyLimit) (hk : k ≤ cs.length) :
    (moved (replicate k .undo) (edited cs e)).doc.content =
      (edited (cs.take (cs.length - k)) e).doc.content := by
  have hlen := length_le_undos_edited h hlimit
  have hmoved := content_moved (complete_edited h cs) (replicate k .undo)
  rw [walk_replicate_undo, getElem?_timeline_sub (hk.trans hlen), past_edited h hlimit hk] at hmoved
  exact (Option.some.inj hmoved).symm

/-- **Redoing as often brings them back.** -/
theorem content_redone (h : e.Complete) (hlimit : cs.length ≤ historyLimit) (hk : k ≤ cs.length) :
    (moved (replicate k .undo ++ replicate k .redo) (edited cs e)).doc.content =
      (edited cs e).doc.content := by
  have hlen := length_le_undos_edited h hlimit
  have hmoved := content_moved (complete_edited h cs) (replicate k .undo ++ replicate k .redo)
  have hback : (edited cs e).undos.length - k + k = (edited cs e).undos.length := by omega
  rw [walk_append, walk_replicate_undo, walk_replicate_redo, hback, getElem?_timeline] at hmoved
  · exact (Option.some.inj hmoved).symm
  · rw [hback, length_timeline]
    omega

end Localizer.Editor
