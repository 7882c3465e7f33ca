import Localizer.Editor.Show
import Mathlib

/-!
# Work on the editor

Work on the editor leaves it changed whether it ends well or not. What a piece of work keeps is said
of the editor that it leaves, and a sequence keeps what each of its steps keeps, wherever it may
stop.
-/

namespace Localizer.Editor

variable {α β : Type}
variable {e : Editor} {c : Prop} {a : α} {handle : Fault → Edit α} {r : Except Fault α} (g : Editor → Editor)

/-- The editor that work leaves, also where it fails. -/
def after (x : Edit α) (e : Editor) : Editor := (x.run.run e).2

def outcome (x : Edit α) (e : Editor) : Except Fault α := (x.run.run e).1

/-- The work keeps a property of the editor, also where it fails. -/
def Keeps (p : Editor → Prop) (x : Edit α) : Prop := ∀ e, p e → p (after x e)

/-! ### Sequences -/

theorem run_bind (x : Edit α) (f : α → Edit β) (e : Editor) :
    (x >>= f).run.run e = match x.run.run e with
      | (.ok a, e₁) => (f a).run.run e₁
      | (.error g, e₁) => (.error g, e₁) := by
  rw [ExceptT.run_bind, StateT.run_bind]
  obtain ⟨r, e₁⟩ := x.run.run e
  cases r <;> rfl

theorem after_bind_of_ok {x : Edit α} (h : outcome x e = .ok a) (f : α → Edit β) :
    after (x >>= f) e = after (f a) (after x e) := by
  have hrun : x.run.run e = (.ok a, after x e) := Prod.ext h rfl
  rw [after, run_bind, hrun]
  rfl

@[simp] theorem after_get_bind (f : Editor → Edit β) (e : Editor) :
    after (get >>= f) e = after (f e) e := rfl

@[simp] theorem after_modify_bind (f : Unit → Edit β) (e : Editor) :
    after (modify g >>= f) e = after (f ()) (g e) :=
  rfl

@[simp] theorem after_ofExcept_bind (a : α) (f : α → Edit β) (e : Editor) :
    after (ofExcept (.ok a) >>= f) e = after (f a) e :=
  rfl

@[simp] theorem after_pure (a : α) (e : Editor) : after (pure a) e = e := rfl

@[simp] theorem after_check (f? : Option Fault) (e : Editor) : after (check f?) e = e := by
  cases f? with
  | none
  | some g => rfl

@[simp] theorem outcome_get_bind (f : Editor → Edit β) (e : Editor) :
    outcome (get >>= f) e = outcome (f e) e := rfl

@[simp] theorem outcome_modify_bind (f : Unit → Edit β) (e : Editor) :
    outcome (modify g >>= f) e = outcome (f ()) (g e) :=
  rfl

theorem run_tryCatch (x : Edit α) (handle : Fault → Edit α) (e : Editor) :
    (tryCatch x handle).run.run e = match x.run.run e with
      | (.ok a, e₁) => (.ok a, e₁)
      | (.error g, e₁) => (handle g).run.run e₁ := by
  unfold ExceptT.run StateT.run
  simp only [MonadExcept.tryCatch, tryCatchThe, MonadExceptOf.tryCatch, ExceptT.tryCatch, ExceptT.mk, bind, StateT.bind]
  cases x e with
  | mk r e₁ => cases r <;> rfl

section

variable {p : Editor → Prop} {x : Edit α} {f : α → Edit β}

theorem of_after_bind (hx : p (after x e)) (hf : ∀ a, Keeps p (f a)) : p (after (x >>= f) e) := by
  unfold after at hx ⊢
  rw [run_bind]
  generalize x.run.run e = r at hx ⊢
  obtain ⟨r, e₁⟩ := r
  cases r with
  | ok a => exact hf a e₁ hx
  | error g => exact hx

theorem of_after_tryCatch (hx : p (after x e))
    (hhandle : ∀ g, Keeps p (handle g)) : p (after (tryCatch x handle) e) := by
  unfold after at hx ⊢
  rw [run_tryCatch]
  generalize x.run.run e = r at hx ⊢
  obtain ⟨r, e₁⟩ := r
  cases r with
  | ok a => exact hx
  | error g => exact hhandle g e₁ hx

end

namespace Keeps

variable {p : Editor → Prop} {x y : Edit α}

theorem bind {f : α → Edit β} (hx : Keeps p x) (hf : ∀ a, Keeps p (f a)) :
    Keeps p (x >>= f) := fun e he =>
  of_after_bind (hx e he) hf

theorem seq {f : α → Edit β} (hx : Keeps p x) (hf : ∀ {a}, Keeps p (f a)) : Keeps p (x >>= f) :=
  bind hx fun _ => hf

theorem pure : Keeps p (pure a : Edit α) := fun _ he => he

theorem throw {g : Fault} : Keeps p (throw g : Edit α) := fun _ he => he

theorem get : Keeps p (get : Edit Editor) := fun _ he => he

theorem modify {f : Editor → Editor} (h : ∀ e, p e → p (f e)) : Keeps p (modify f : Edit Unit) := h

theorem ite [Decidable c] (hx : Keeps p x) (hy : Keeps p y) : Keeps p (if c then x else y) := by
  split
  · exact hx
  · exact hy

theorem ite_of [Decidable c] (hx : c → Keeps p x) (hy : ¬c → Keeps p y) :
    Keeps p (if c then x else y) := by
  split
  · next h => exact hx h
  · next h => exact hy h

theorem exists_ {ι : Type} {q : ι → Editor → Prop} (hx : ∀ i, Keeps (q i) x) :
    Keeps (fun e => ∃ i, q i e) x :=
  fun e ⟨i, hi⟩ => ⟨i, hx i e hi⟩

theorem ofExcept : Keeps p (ofExcept r) := by
  cases r with
  | ok a => exact pure
  | error g => exact throw

theorem get_bind {f : Editor → Edit β} (hf : ∀ e, p e → Keeps p (f e)) :
    Keeps p (MonadState.get >>= f) := fun e he =>
  hf e he e he

theorem ofExcept_bind {f : α → Edit β} (hf : ∀ a, r = .ok a → Keeps p (f a)) :
    Keeps p (Editor.ofExcept r >>= f) := by
  cases r with
  | ok a => exact hf a rfl
  | error g => exact fun _ he => he

theorem bind_of {f : α → Edit β} (hx : Keeps p x)
    (hf : ∀ e a, p e → outcome x e = .ok a → Keeps p (f a)) : Keeps p (x >>= f) := by
  intro e he
  have hafter := hx e he
  cases ha : outcome x e with
  | ok a =>
    rw [after_bind_of_ok ha]
    exact hf e a he ha _ hafter
  | error g =>
    have hrun : x.run.run e = (.error g, after x e) := Prod.ext ha rfl
    rwa [after, run_bind, hrun]

theorem tryCatch (hx : Keeps p x) (hhandle : ∀ g, Keeps p (handle g)) :
    Keeps p (tryCatch x handle) := fun e he =>
  of_after_tryCatch (hx e he) hhandle

theorem discard (hx : Keeps p x) : Keeps p (Functor.discard x) := hx.seq pure

theorem check {f? : Option Fault} : Keeps p (check f?) := by
  cases f? with
  | none => exact pure
  | some g => exact throw

end Keeps

/-- The work leads from one property of the editor to another, also where it fails. -/
def Leads (p q : Editor → Prop) (x : Edit α) : Prop := ∀ e, p e → q (after x e)

section

variable {p q : Editor → Prop} {x : Edit α} {f : α → Edit β}

theorem Keeps.leads (hx : Keeps p x) (hpq : ∀ e, p e → q e) :
    Leads p q x := fun e he => hpq _ (hx e he)

theorem Leads.ite [Decidable c] {y : Edit α} (hx : Leads p q x) (hy : Leads p q y) :
    Leads p q (if c then x else y) := by
  split
  · exact hx
  · exact hy

theorem Leads.bind_keeps (hx : Leads p q x) (hf : ∀ a, Keeps q (f a)) :
    Leads p q (x >>= f) := fun e he =>
  of_after_bind (hx e he) hf

/-- The step that leads to the other property comes later. Where the first step fails, that property
must hold too. -/
theorem Leads.keeps_bind (hpq : ∀ e, p e → q e) (hx : Keeps p x) (hf : ∀ a, Leads p q (f a)) :
    Leads p q (x >>= f) := by
  intro e he
  have hafter := hx e he
  unfold after at hafter ⊢
  rw [run_bind]
  generalize x.run.run e = r at hafter ⊢
  obtain ⟨r, e₁⟩ := r
  cases r with
  | ok a => exact hf a e₁ hafter
  | error g => exact hpq e₁ hafter

end

/-! ## What showing leaves alone

Most of the editor is what its windows show. Drawing and filling the lists of the window leave alone
what the user works on: the files, the document, the history and the hidden layers. Two of them do
more. Loading the pictures notes their sizes in the animation, and filling the list of actions
chooses the range of the first one. -/

open Text Animation

variable {d : Document} {a : Animation} {ws : Workspace} (i : Int) (dir path : Text) {x : Edit α}

structure Work where
  files : Workspace
  doc : Document
  undos : List Document
  redos : List Document
  baseDir : Text
  path : Text
  hidden : List Int

def Document.withRange (d : Document) (r : Int × Int) : Document := { d with range := r }

def Work.withDoc (w : Work) (d : Document) : Work := { w with doc := d }

def work (e : Editor) : Work := ⟨e.files, e.doc, e.undos, e.redos, e.baseDir, e.path, e.hidden⟩

/-- The editor with nothing drawn: the canvas, the fields and the lists of the window are blank, and
so are the choices in the lists. -/
def undrawn (e : Editor) : Editor :=
  { e with
    canvas := ⟨0, 0, [], none, []⟩
    screen := []
    view := {}
    frameChoice := []
    fileRows := []
    fileChoice := []
    layerRows := []
    layerChoice := []
    xText := []
    yText := []
    alphaText := []
    positionText := []
    busy := {} }

def Draws (x : Edit α) : Prop := ∀ u, Keeps (·.undrawn = u) x

variable {w : Work}

/-- What does not depend on what is drawn stays as it is. -/
theorem Draws.same {β : Type} (hx : Draws x) {f : Editor → β} (hf : ∀ e : Editor, f e.undrawn = f e)
    (e : Editor) : f (after x e) = f e := by
  rw [← hf, hx _ e rfl, hf]

theorem Draws.work (hx : Draws x) : Keeps (·.work = w) x := fun e he =>
  (hx.same (f := Editor.work) (fun _ => rfl) e).trans he

/-! ### Drawing -/

theorem draws_layPlane : Draws layPlane := by
  intro u
  refine .bind .get fun e => .bind .ofExcept fun scale => .seq (.modify fun _ h => h) ?_
  refine .bind .ofExcept fun offX => .bind .ofExcept fun offY => .seq (.modify fun _ h => h) ?_
  exact .bind .ofExcept fun rect => .modify fun _ h => h

theorem draws_drawLayer (a : Animation) (place : Nat) (l : Layer) : Draws (drawLayer a place l) := by
  intro u
  refine .bind .get fun e => .bind .ofExcept fun corner? => ?_
  cases corner? with
  | none => exact .pure
  | some corner =>
    refine .seq (.modify fun _ h => h) (.bind .get fun e => ?_)
    exact .ite (.seq (.modify fun _ h => h) (.seq (.modify fun _ h => h) .pure))
      (.seq (.modify fun _ h => h) .pure)

theorem draws_drawLayers (a : Animation) (ls : List Layer) (place : Nat) :
    Draws (drawLayers a place ls) := by
  intro u
  induction ls generalizing place with
  | nil => exact .pure
  | cons l ls ih => exact .seq (draws_drawLayer a place l u) (.seq (ih (place + 1)) .pure)

theorem draws_render : Draws render := by
  intro u
  refine .seq (.modify fun _ h => h) (.bind .get fun e => ?_)
  split
  · exact .modify fun _ h => h
  · refine .seq (draws_layPlane u) (.seq (draws_drawLayers _ _ _ u) (.bind .get fun e => ?_))
    refine .ite (.seq (.modify fun _ h => h) ?_) ?_
    all_goals exact .bind .get fun e => .bind .ofExcept fun line => .modify fun _ h => h

theorem keeps_render : Keeps (·.work = w) render := draws_render.work

/-! ### Lists -/

theorem draws_fillLayers : Draws fillLayers := by
  intro u
  refine .seq (.modify fun _ h => h) (.bind .get fun e => ?_)
  split
  · exact .pure
  · exact .seq (.modify fun _ h => h) .check

theorem keeps_fillLayers : Keeps (·.work = w) fillLayers := draws_fillLayers.work

theorem draws_chooseRow (place : Int) : Draws (chooseRow place) := fun _ =>
  .seq .get (.ite (.modify fun _ h => h) .throw)

theorem draws_chooseFrame : Draws (chooseFrame i) := by
  intro u
  refine .modify fun e h => ?_
  split
  · exact h
  · exact h

theorem keeps_chooseFrame : Keeps (·.work = w) (chooseFrame i) := (draws_chooseFrame i).work

theorem keeps_fillFrames : Keeps (·.work = w) fillFrames := by
  refine .seq (.modify fun _ h => h) (.bind .get fun e => ?_)
  split
  · exact .pure
  · exact .seq (.modify fun _ h => h) (.bind .ofExcept fun i => keeps_chooseFrame i)

theorem draws_fillFiles : Draws (fillFiles dir path) := fun _ =>
  .seq (.modify fun _ h => h) (.seq .get (.ite (.ite (.modify fun _ h => h) .pure) .pure))

/-! ### The pictures and the first action -/

/-- An animation with its pictures loaded from a directory, as far as they can be. -/
def loadedFrom (ws : Workspace) (dir : Text) (a : Animation) : Animation :=
  { a with pictures := (loadPictures ws dir a.pictures).1 }

def reloaded (e : Editor) (a : Animation) : Animation := loadedFrom e.files e.baseDir a

/-- A document with the pictures of its animation loaded. -/
def reloadedDoc (e : Editor) (d : Document) : Document := { d with anim? := d.anim?.map e.reloaded }

theorem reloadedDoc_of_none (e : Editor) (h : d.anim? = none) : e.reloadedDoc d = d := by
  rw [reloadedDoc, h, Option.map_none, ← h]

theorem work_loadAll (e : Editor) :
    (after loadAll e).work = e.work.withDoc (e.reloadedDoc e.doc) := by
  rw [loadAll, after_get_bind]
  cases h : e.doc.anim? with
  | none =>
    rw [after_pure, reloadedDoc_of_none e h]
    rfl
  | some a =>
    simp [modifyAnim, after_modify_bind, after_check, work, Work.withDoc, reloadedDoc, reloaded, loadedFrom, h]

def firstRange (d : Document) : Int × Int :=
  ((d.anim?.bind (·.actions.head?)).map fun first => (first.start, first.stop)).getD d.range

theorem firstRange_of_action {first : Action} {more : List Action} (hd : d.anim? = some a)
    (ha : a.actions = first :: more) : firstRange d = (first.start, first.stop) := by
  rw [firstRange, hd, Option.bind_some, ha]
  rfl

theorem firstRange_of_none (h : (d.anim?.bind (·.actions.head?)) = none) :
    firstRange d = d.range := by
  rw [firstRange, h]
  rfl

theorem work_fillActions (e : Editor) :
    (after fillActions e).work = e.work.withDoc (e.doc.withRange (firstRange e.doc)) := by
  rw [fillActions, after_modify_bind, after_get_bind]
  cases h : e.doc.anim? with
  | none =>
    rw [firstRange_of_none (by rw [h]; rfl)]
    rfl
  | some a =>
    simp only [after_modify_bind]
    cases ha : a.actions with
    | nil =>
      rw [firstRange_of_none (by rw [h, Option.bind_some, ha]; rfl)]
      exact keeps_fillFrames _ rfl
    | cons first more =>
      rw [firstRange_of_action h ha]
      exact keeps_fillFrames _ rfl

/-! ### Pictures that can be loaded -/

/-- All pictures of an animation can be loaded: what there is of their files can be read. -/
def Loadable (e : Editor) (a : Animation) : Prop :=
  ∀ p ∈ a.pictures, ∃ q, loadPicture e.files e.baseDir p = .ok q

theorem eq_of_loadPicture {dir : Text} {p q : Picture} (h : loadPicture ws dir p = .ok q) :
    ∃ size, q = { p with loaded? := some size } := by
  simp only [loadPicture, bind, Except.bind, pure, Except.pure] at h
  split at h
  · split at h
    · cases h
    · next size _ => exact ⟨size, (Except.ok.inj h).symm⟩
  · split at h
    · cases h
    · next size _ => exact ⟨size, (Except.ok.inj h).symm⟩

theorem loadPictures_of_loadable {dir : Text} {ps : List Picture}
    (h : ∀ p ∈ ps, ∃ q, loadPicture ws dir p = .ok q) :
    (loadPictures ws dir ps).2 = none ∧ ∀ q ∈ (loadPictures ws dir ps).1, q.loaded?.isSome := by
  induction ps with
  | nil => exact ⟨rfl, fun q hq => nomatch hq⟩
  | cons p ps ih =>
    obtain ⟨q, hq⟩ := h p List.mem_cons_self
    obtain ⟨hfault, hloaded⟩ := ih fun r hr => h r (List.mem_cons_of_mem p hr)
    obtain ⟨size, rfl⟩ := eq_of_loadPicture hq
    rw [loadPictures, hq]
    exact ⟨hfault, List.forall_mem_cons.mpr ⟨rfl, hloaded⟩⟩

theorem outcome_loadAll (ha : e.doc.anim? = some a) (hload : Loadable e a) :
    outcome loadAll e = .ok () := by
  rw [loadAll, outcome_get_bind, ha]
  simp only [modifyAnim, outcome_modify_bind, (loadPictures_of_loadable hload).1]
  rfl

theorem layerRowsFrom_of_loaded (h : ∀ p ∈ a.pictures, p.loaded?.isSome) (hidden : List Int)
    (ls : List Layer) (place : Nat) : (layerRowsFrom hidden a place ls).2 = none := by
  induction ls generalizing place with
  | nil => rfl
  | cons l ls ih =>
    rw [layerRowsFrom]
    split
    · exact ih (place + 1)
    · next p hp =>
      have hmem : p ∈ a.pictures := by
        unfold picture? at hp
        split at hp
        · exact List.mem_of_getElem? hp
        · cases hp
      have hloaded : ¬p.loaded?.isNone = true := by
        rw [Option.isNone_iff_eq_none]
        exact Option.isSome_iff_ne_none.mp (h p hmem)
      rw [if_neg hloaded]
      exact ih (place + 1)

theorem outcome_fillLayers (ha : e.doc.anim? = some a)
    (h : ∀ p ∈ a.pictures, p.loaded?.isSome) : outcome fillLayers e = .ok () := by
  rw [fillLayers, outcome_modify_bind, outcome_get_bind, ha]
  simp only [outcome_modify_bind, layerRowsFrom_of_loaded h]
  rfl

/-! ### Showing an animation anew -/

/-- Shows the animation anew: its pictures are loaded, the lists are filled, and the frame is drawn.
-/
def refresh : Edit Unit := do
  loadAll
  fillLayers
  fillActions
  render

theorem work_refresh (e : Editor) :
    ∃ r, (after refresh e).work = e.work.withDoc ((e.reloadedDoc e.doc).withRange r) := by
  refine of_after_bind (p := fun e₁ => ∃ r, e₁.work = e.work.withDoc ((e.reloadedDoc e.doc).withRange r))
    ⟨e.doc.range, ?_⟩ fun _ => ?_
  · rw [work_loadAll]
    rfl
  · refine .seq (.exists_ fun _ => keeps_fillLayers) (.seq ?_ (.exists_ fun _ => keeps_render))
    rintro e₁ ⟨r, hr⟩
    refine ⟨firstRange e₁.doc, ?_⟩
    have hdoc : e₁.doc = (e.reloadedDoc e.doc).withRange r := congrArg Work.doc hr
    rw [work_fillActions, hr, hdoc]
    rfl

theorem work_refresh_of_loadable (ha : e.doc.anim? = some a) (hload : Loadable e a) :
    (after refresh e).work = e.work.withDoc ((e.reloadedDoc e.doc).withRange (firstRange e.doc)) := by
  have hwork := work_loadAll e
  have hdoc : (after loadAll e).doc = e.reloadedDoc e.doc := congrArg Work.doc hwork
  have hanim : (after loadAll e).doc.anim? = some (e.reloaded a) := by
    rw [hdoc, reloadedDoc, ha]
    rfl
  have hfill : (after fillLayers (after loadAll e)).work = e.work.withDoc (e.reloadedDoc e.doc) :=
    keeps_fillLayers _ hwork
  have hfillDoc : (after fillLayers (after loadAll e)).doc = e.reloadedDoc e.doc := congrArg Work.doc hfill
  have hfirst : firstRange (e.reloadedDoc e.doc) = firstRange e.doc := by
    unfold firstRange reloadedDoc
    rw [ha]
    rfl
  rw [refresh, after_bind_of_ok (outcome_loadAll ha hload),
    after_bind_of_ok (outcome_fillLayers hanim (loadPictures_of_loadable hload).2)]
  refine of_after_bind (p := fun e₁ => e₁.work = e.work.withDoc ((e.reloadedDoc e.doc).withRange (firstRange e.doc)))
    ?_ fun _ => keeps_render
  rw [work_fillActions, hfill, hfillDoc, hfirst]
  rfl

end Localizer.Editor
