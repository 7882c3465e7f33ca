import Localizer.Proofs.Editor.Save

/-!
# Files that cannot be loaded

A file that cannot be read as an animation changes nothing but what is said to the user. The same is
said where the animation can be read but its pictures cannot be loaded or shown. Then it is too
late: the animation has already taken the place of the one before (`load_keeps_or_replaces`).
-/

namespace Localizer.Editor

open Text Animation

variable {e : Editor} {p : Text}

/-! ### Showing anew -/

/-- The layer that the user has chosen, and what was said to the user. -/
def told (e : Editor) : Option Nat × List Message := (e.selected?, e.messages)

theorem Draws.told {x : Edit Unit} (hx : Draws x) {u : Option Nat × List Message} :
    Keeps (·.told = u) x := fun e he =>
  (hx.same (f := Editor.told) (fun _ => rfl) e).trans he

theorem told_refresh (e : Editor) : (after refresh e).told = e.told := by
  have hload : Keeps (·.told = e.told) loadAll := by
    refine .bind .get fun e => ?_
    split
    · exact .pure
    · exact .seq (.modify fun _ h => h) .check
  have hframes : Keeps (·.told = e.told) fillFrames := by
    refine .seq (.modify fun _ h => h) (.bind .get fun e => ?_)
    split
    · exact .pure
    · exact .seq (.modify fun _ h => h) (.bind .ofExcept fun i => (draws_chooseFrame i).told)
  have hactions : Keeps (·.told = e.told) fillActions := by
    refine .seq (.modify fun _ h => h) (.bind .get fun e => ?_)
    split
    · exact .pure
    · refine .seq (.modify fun _ h => h) ?_
      split
      · exact hframes
      · exact .seq (.modify fun _ h => h) hframes
  exact Keeps.bind hload (fun _ => .seq draws_fillLayers.told (.seq hactions draws_render.told)) e rfl

theorem outcome_refresh_of_fault {a : Animation} {g : Fault} (ha : e.doc.anim? = some a)
    (hg : (loadPictures e.files e.baseDir a.pictures).2 = some g) : outcome refresh e = .error g := by
  have hload : loadAll.run.run e = (.error g, after loadAll e) := by
    refine Prod.ext ?_ rfl
    change outcome loadAll e = .error g
    rw [loadAll, outcome_get_bind, ha]
    simp only [modifyAnim, outcome_modify_bind, hg]
    rfl
  rw [outcome, refresh, run_bind, hload]

/-! ### Loading -/

/-- What is said of a file that cannot be loaded. -/
def loadFault : Message := ⟨.error, "错误", "解析文件失败: "⟩

def readAnimation (ws : Workspace) (p : Text) : Except Fault Animation :=
  do decode (← ws.read p).bytes

/-- The editor with an animation that was just read. -/
def turnedTo (e : Editor) (p : Text) (b : Animation) : Editor :=
  { e with
    doc := { e.doc with anim? := some b, frame := 0, adjust := [] }
    baseDir := Path.directory p
    path := p
    playing := false
    hidden := []
    selected? := none
    screen := [] }

theorem run_openAnimation (e : Editor) (p : Text) :
    (openAnimation p).run.run e =
      (ofExcept (readAnimation e.files p) >>= fun b => modify (·.turnedTo p b) >>= fun _ => refresh).run.run e := by
  have hget : (openAnimation p).run.run e = (ofExcept (e.files.read p) >>= fun f => ofExcept (decode f.bytes) >>=
      fun b => modify (·.turnedTo p b) >>= fun _ => refresh).run.run e := rfl
  rw [hget, readAnimation]
  cases e.files.read p with
  | error g
  | ok f => rfl

theorem load_of_read {f : File} {b : Animation} (hread : e.files.read p = .ok f) (hb : decode f.bytes = .ok b) :
    (∃ r, (after (load p) e).work = e.opened p b r) ∧
      ((after (load p) e).told = (none, e.messages ++ [loadFault]) ∨
        (after (load p) e).told = (none, e.messages) ∧ (loadPictures e.files (Path.directory p) b.pictures).2 = none) := by
  refine ⟨work_load hread hb, ?_⟩
  have h : readAnimation e.files p = .ok b := by
    rwa [readAnimation, hread]
  have hrun : (openAnimation p).run.run e = refresh.run.run (e.turnedTo p b) := by
    rw [run_openAnimation, h]
    rfl
  have htold : (after refresh (e.turnedTo p b)).told = (none, e.messages) := told_refresh _
  rw [after, load, orSay, run_tryCatch, hrun]
  cases hend : outcome refresh (e.turnedTo p b) with
  | ok u =>
    rw [show refresh.run.run (e.turnedTo p b) = (.ok u, after refresh (e.turnedTo p b)) from Prod.ext hend rfl]
    refine .inr ⟨htold, Option.eq_none_iff_forall_ne_some.mpr fun g hg => ?_⟩
    cases hend.symm.trans (outcome_refresh_of_fault (e := e.turnedTo p b) rfl hg)
  | error g =>
    rw [show refresh.run.run (e.turnedTo p b) = (.error g, after refresh (e.turnedTo p b)) from Prod.ext hend rfl]
    exact .inl (congrArg (fun u => (u.1, u.2 ++ [loadFault])) htold)

/-- **Loading keeps what is shown or replaces it.** A file that cannot be read as an animation
changes nothing apart from what is said. One that can be read is shown from its first frame, with no
layer chosen, also if it is said that it cannot be loaded; and this goes unsaid only if its pictures
can be loaded. -/
theorem load_keeps_or_replaces (e : Editor) (p : Text) :
    (∀ g, readAnimation e.files p = .error g → after (load p) e = { e with messages := e.messages ++ [loadFault] }) ∧
    ∀ b, readAnimation e.files p = .ok b → (∃ r, (after (load p) e).work = e.opened p b r) ∧
      ((after (load p) e).told = (none, e.messages ++ [loadFault]) ∨
        (after (load p) e).told = (none, e.messages) ∧
          (loadPictures e.files (Path.directory p) b.pictures).2 = none) := by
  refine ⟨fun g h => ?_, fun b h => ?_⟩
  · have hrun : (openAnimation p).run.run e = (.error g, e) := by
      rw [run_openAnimation, h]
      rfl
    rw [after, load, orSay, run_tryCatch, hrun]
    rfl
  · obtain ⟨f, hread, hb⟩ := exists_of_bind_ok h
    exact load_of_read hread hb

theorem load_keeps_or_replaces_missing :
    ∃ g, readAnimation desk "/none" = .error g ∧ after (load "/none") (start desk 640 480) =
      { start desk 640 480 with messages := (start desk 640 480).messages ++ [loadFault] } := by
  obtain ⟨g, hg⟩ : ∃ g, readAnimation desk "/none" = .error g := ⟨_, rfl⟩
  refine ⟨g, hg, (load_keeps_or_replaces (start desk 640 480) "/none").1 g ?_⟩
  rw [show (start desk 640 480).files = desk from congrArg Work.files (work_start desk 640 480), hg]

/-! ### A picture that cannot be loaded -/

/-- The files of the two animations, and a file that is none in the place of the picture of the
pair. -/
def spoiledDesk : Workspace :=
  { desk with files := desk.files ++ [([".agi.png".toList], { data := [0] })] }

def filmShown : Editor := after (load "/film") (start spoiledDesk 640 480)

/-- It is said that the pair cannot be loaded, because of its picture, and yet the pair is shown in
the place of the film. -/
theorem load_pair_spoiled :
    Reachable filmShown ∧ (after (load "/pair") filmShown).messages = filmShown.messages ++ [loadFault] ∧
    filmShown.path = "/film" ∧ (after (load "/pair") filmShown).path = "/pair" ∧
    filmShown.doc.anim?.map (·.layers.length) = some 0 ∧
    (after (load "/pair") filmShown).doc.anim?.map (·.layers.length) = some 2 := by
  have hstart : (start spoiledDesk 640 480).files = spoiledDesk := congrArg Work.files (work_start spoiledDesk 640 480)
  obtain ⟨r, hr⟩ := work_load (e := start spoiledDesk 640 480) (p := "/film") (f := { data := blankFilm.file })
    (by rw [hstart]; rfl) decode_blankFilm
  have hfiles : filmShown.files = spoiledDesk := (congrArg Work.files hr).trans hstart
  obtain ⟨⟨r', hr'⟩, hsaid⟩ := load_of_read (e := filmShown) (p := "/pair") (f := { data := blankPair.file })
    (by rw [hfiles]; rfl) decode_blankPair
  obtain ⟨g, hg⟩ : ∃ g, (loadPictures spoiledDesk (Path.directory "/pair") blankPair.stored.pictures).2 = some g :=
    ⟨_, rfl⟩
  refine ⟨.step (.start spoiledDesk 640 480) (.load "/film"), congrArg Prod.snd (hsaid.resolve_right fun hpictures => ?_),
    congrArg Work.path hr, congrArg Work.path hr', ?_, ?_⟩
  · rw [hfiles, hg] at hpictures
    cases hpictures.2
  · exact congrArg (fun w : Work => w.doc.anim?.map (·.layers.length)) hr
  · exact congrArg (fun w : Work => w.doc.anim?.map (·.layers.length)) hr'

end Localizer.Editor
