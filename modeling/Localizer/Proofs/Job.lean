import Localizer.Workspace
import Mathlib

/-!
# Jobs that end well

A job that ends well has a result and leaves a workspace. A sequence of jobs ends well exactly if
each of them does, in the workspace that the one before it has left. What is true of each run of
each step, whether it ends well or not, is true of the runs of a sequence (`Runs`), if it can be
chained.
-/

namespace Localizer.Job

variable {f : Fault} {ws₁ a : Workspace}

/-- The job `x` ends well in the workspace `ws`, with the result `a`, and leaves `ws'`. -/
def Yields {α : Type} (x : Job α) (ws : Workspace) (a : α) (ws' : Workspace) : Prop :=
  x.run.run ws = (.ok a, ws')

variable {α β : Type} {ws ws' : Workspace}

theorem yields_pure {a b : α} : Yields (pure a) ws b ws' ↔ a = b ∧ ws = ws' := by
  change (Except.ok a, ws) = (Except.ok b, ws') ↔ _
  simp

theorem not_yields_throw {a : α} : ¬ Yields (throw f) ws a ws' := by
  change ¬ (Except.error f, ws) = (Except.ok a, ws')
  simp

theorem run_bind (x : Job α) (f : α → Job β) (ws : Workspace) :
    (x >>= f).run.run ws = match x.run.run ws with
      | (.ok a, ws₁) => (f a).run.run ws₁
      | (.error e, ws₁) => (.error e, ws₁) := by
  rw [ExceptT.run_bind, StateT.run_bind]
  obtain ⟨r, ws₁⟩ := x.run.run ws
  cases r <;> rfl

theorem yields_bind {x : Job α} {f : α → Job β} {b : β} :
    Yields (x >>= f) ws b ws' ↔ ∃ a ws₁, Yields x ws a ws₁ ∧ Yields (f a) ws₁ b ws' := by
  unfold Yields
  rw [run_bind]
  obtain ⟨r, ws₁⟩ := x.run.run ws
  cases r with
  | error e =>
    refine ⟨fun h => ?_, fun ⟨a, ws₂, h, _⟩ => ?_⟩
    · cases h
    · cases h
  | ok a =>
    refine ⟨fun h => ⟨a, ws₁, rfl, h⟩, fun ⟨a', ws₂, h, h'⟩ => ?_⟩
    cases h
    exact h'

theorem run_tryCatch (x : Job α) (f : Fault → Job α) (ws : Workspace) :
    (tryCatch x f).run.run ws = match x.run.run ws with
      | (.ok a, ws₁) => (.ok a, ws₁)
      | (.error e, ws₁) => (f e).run.run ws₁ := by
  rcases hx : x.run.run ws with ⟨r, ws₁⟩
  have hx' : StateT.run x ws = (r, ws₁) := hx
  change (ExceptT.tryCatch x f).run.run ws = _
  unfold ExceptT.tryCatch
  rw [ExceptT.run_mk, StateT.run_bind, hx']
  cases r <;> rfl

theorem Yields.unique {x : Job α} {a b : α} {ws₂ : Workspace} (h₁ : Yields x ws a ws₁)
    (h₂ : Yields x ws b ws₂) : a = b ∧ ws₁ = ws₂ := by
  obtain ⟨hvalue, hws⟩ := Prod.mk.inj (h₁.symm.trans h₂)
  exact ⟨Except.ok.inj hvalue, hws⟩

theorem Yields.run_bind {x : Job α} {a : α} (h : Yields x ws a ws₁) (f : α → Job β) :
    (x >>= f).run.run ws = (f a).run.run ws₁ := by
  rw [Job.run_bind, h]

theorem Yields.bind_iff {x : Job α} {f : α → Job β} {a : α} (h : Yields x ws a ws₁) {b : β} :
    Yields (x >>= f) ws b ws' ↔ Yields (f a) ws₁ b ws' := by
  unfold Yields
  rw [h.run_bind]

theorem Yields.bind {x : Job α} {f : α → Job β} {a : α} {b : β} (h : Yields x ws a ws₁)
    (hf : Yields (f a) ws₁ b ws') : Yields (x >>= f) ws b ws' :=
  h.bind_iff.mpr hf

/-! ### Steps -/

theorem yields_get : Yields (get : Job Workspace) ws a ws' ↔ a = ws ∧ ws' = ws := by
  change (Except.ok ws, ws) = (Except.ok a, ws') ↔ _
  simp [eq_comm]

theorem yields_set : Yields (set a : Job Unit) ws () ws' ↔ ws' = a := by
  change (Except.ok (), a) = (Except.ok (), ws') ↔ _
  simp [eq_comm]

theorem yields_ofExcept {x : Except Fault α} {a : α} :
    Yields (ofExcept x) ws a ws' ↔ x = .ok a ∧ ws' = ws := by
  cases x with
  | ok b => exact yields_pure.trans (by simp [eq_comm])
  | error f => exact ⟨fun h => absurd h not_yields_throw, fun h => by cases h.1⟩

theorem yields_require {x : Option α} {a : α} :
    Yields (require f x) ws a ws' ↔ x = some a ∧ ws' = ws := by
  cases x with
  | some b => exact yields_pure.trans (by simp [eq_comm])
  | none => exact ⟨fun h => absurd h not_yields_throw, fun h => by cases h.1⟩

namespace Yields

variable {a b : α}

protected theorem get : Yields (get : Job Workspace) ws ws ws := rfl

protected theorem pure (h : a = b) : Yields (pure a) ws b ws := yields_pure.mpr ⟨h, rfl⟩

theorem ofExcept {x : Except Fault α} (h : x = .ok a) : Yields (Job.ofExcept x) ws a ws :=
  yields_ofExcept.mpr ⟨h, rfl⟩

theorem require {x : Option α} (h : x = some a) : Yields (Job.require f x) ws a ws :=
  yields_require.mpr ⟨h, rfl⟩

end Yields

/-! ### All runs -/

def faultOf : Except Fault α → Option Fault
  | .ok _ => none
  | .error f => some f

/-- Each run of a job is of the kind `R`, which is about what it starts from, the fault it ends in,
and what it leaves. -/
def Runs (R : Workspace → Option Fault → Workspace → Prop) (x : Job α) : Prop :=
  ∀ ws, R ws (faultOf (x.run.run ws).1) (x.run.run ws).2

/-- Runs of a kind make a run of that kind if they follow each other. -/
class Chains (R : Workspace → Option Fault → Workspace → Prop) : Prop where
  refl : ∀ ws, R ws none ws
  trans : ∀ {ws ws' ws'' : Workspace} {f g : Option Fault}, R ws f ws' → R ws' g ws'' → R ws g ws''

variable {R : Workspace → Option Fault → Workspace → Prop}

theorem Runs.throw (h : ∀ ws, R ws (some f) ws) : Runs R (throw f : Job α) := h

theorem Runs.set (h : ∀ ws, R ws none ws') : Runs R (set ws' : Job Unit) := h

theorem Runs.ite {c : Prop} [Decidable c] {x y : Job α} (hx : Runs R x) (hy : Runs R y) :
    Runs R (if c then x else y) := by
  split
  · exact hx
  · exact hy

theorem Runs.of_yields {x : Job α} {a : α} (h : Runs R x) (hx : Yields x ws a ws') :
    R ws none ws' := by
  have hend := h ws
  rwa [hx] at hend

theorem runs_site {p : Text} {x : Workspace → Place → Job α} (hfault : ∀ f ws, R ws (some f) ws)
    (h : ∀ ws q, ws.site p = .ok q → R ws (faultOf ((x ws q).run.run ws).1) ((x ws q).run.run ws).2) :
    Runs R (do let ws ← get; let q ← ofExcept (ws.site p); x ws q) := by
  intro ws
  rw [Yields.get.run_bind]
  cases hq : ws.site p with
  | error e => exact hfault e ws
  | ok q =>
    exact h ws q hq

variable [Chains R]

theorem Runs.pure (a : α) : Runs R (pure a : Job α) := Chains.refl

theorem Runs.get : Runs R (get : Job Workspace) := Chains.refl

theorem Runs.ofExcept {x : Except Fault α} (h : ∀ f, x = .error f → ∀ ws, R ws (some f) ws) :
    Runs R (ofExcept x) := by
  cases x with
  | ok a => exact .pure a
  | error f => exact .throw (h f rfl)

theorem Runs.require {x : Option α} (h : ∀ ws, R ws (some f) ws) : Runs R (require f x) := by
  cases x with
  | some a => exact .pure a
  | none => exact .throw h

theorem Runs.bind {x : Job α} {f : α → Job β} (hx : Runs R x) (hf : ∀ a, Runs R (f a)) :
    Runs R (x >>= f) := by
  intro ws
  have hfirst := hx ws
  rw [run_bind]
  rcases hrun : x.run.run ws with ⟨r, ws₁⟩
  rw [hrun] at hfirst
  cases r with
  | error e => exact hfirst
  | ok a => exact Chains.trans hfirst (hf a ws₁)

theorem Runs.tryCatch {x : Job α} {f : Fault → Job α} (hx : Runs R x)
    (hf : ∀ g, (∃ ws ws', R ws (some g) ws') → Runs R (f g)) : Runs R (tryCatch x f) := by
  intro ws
  have hfirst := hx ws
  rw [run_tryCatch]
  rcases hrun : x.run.run ws with ⟨r, ws₁⟩
  rw [hrun] at hfirst
  cases r with
  | ok a => exact hfirst
  | error g => exact Chains.trans hfirst (hf g ⟨ws, ws₁, hfirst⟩ ws₁)

theorem runs_makeDirs (hmake : ∀ p, Runs R (makeDir p))
    (hfault : ∀ f, (∃ ws ws', R ws (some f) ws') → ∀ ws, R ws (some f) ws) (p : Text) :
    Runs R (makeDirs p) := by
  have hensure : ∀ p, Runs R (ensureDir p) := fun p =>
    (hmake p).tryCatch fun f hf => Runs.get.bind fun _ => .ite (.throw (hfault f hf)) (.pure _)
  have hup : ∀ fuel p, Runs R (makeDirsUp fuel p) := by
    intro fuel
    induction fuel with
    | zero => exact hensure
    | succ fuel ih =>
      exact fun p => (hensure p).tryCatch fun f hf => .ite (.throw (hfault f hf)) ((ih _).bind fun _ => hensure p)
  exact hup _ p

end Localizer.Job
