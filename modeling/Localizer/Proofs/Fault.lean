import Localizer.Fault
import Mathlib

/-!
# Calculations that can fail

A calculation in steps ends well only if each step does. Items that are worked on one after another
all end well, or the work ends with the fault of one of them.
-/

namespace Localizer

variable {α β : Type} {f : α → Except Fault β} {R : α → β → Prop} {as : List α} {bs : List β}

theorem exists_of_bind_ok {x : Except Fault α} {b : β} (h : x >>= f = .ok b) :
    ∃ a, x = .ok a ∧ f a = .ok b := by
  cases x with
  | ok a => exact ⟨a, rfl, h⟩
  | error g => cases h

theorem mapM_ok_of_forall (h : ∀ a ∈ as, ∃ b, f a = .ok b ∧ R a b) :
    ∃ bs, as.mapM f = .ok bs ∧ List.Forall₂ R as bs := by
  induction as with
  | nil => exact ⟨[], rfl, .nil⟩
  | cons a as ih =>
    obtain ⟨b, hb, hR⟩ := h a List.mem_cons_self
    obtain ⟨bs, hbs, hRs⟩ := ih fun a ha => h a (List.mem_cons_of_mem _ ha)
    exact ⟨b :: bs, by rw [List.mapM_cons, hb, hbs]; rfl, .cons hR hRs⟩

theorem mapM_cases (f : α → Except Fault β) (as : List α) :
    (∃ bs, as.mapM f = .ok bs ∧ List.Forall₂ (fun a b => f a = .ok b) as bs) ∨
      ∃ a ∈ as, ∃ e, f a = .error e ∧ as.mapM f = .error e := by
  induction as with
  | nil => exact .inl ⟨[], rfl, .nil⟩
  | cons a as ih =>
    rw [List.mapM_cons]
    cases ha : f a with
    | error e => exact .inr ⟨a, List.mem_cons_self, e, ha, rfl⟩
    | ok b =>
      rcases ih with ⟨bs, hbs, hall⟩ | ⟨c, hc, e, hce, hfail⟩
      · exact .inl ⟨b :: bs, by rw [hbs]; rfl, .cons ha hall⟩
      · exact .inr ⟨c, List.mem_cons_of_mem a hc, e, hce, by rw [hfail]; rfl⟩

theorem forall₂_of_mapM (h : as.mapM f = .ok bs) : List.Forall₂ (fun a b => f a = .ok b) as bs := by
  rcases mapM_cases f as with ⟨bs', hbs, hall⟩ | ⟨_, _, _, _, hfail⟩
  · rwa [Except.ok.inj (h.symm.trans hbs)]
  · simp [hfail] at h

theorem exists_of_forall₂ (h : List.Forall₂ R as bs) {k : Nat} {a : α}
    (ha : as[k]? = some a) : ∃ b, bs[k]? = some b ∧ R a b := by
  induction h generalizing k with
  | nil => simp at ha
  | cons hab _ ih =>
    cases k with
    | zero => exact ⟨_, rfl, Option.some.inj ha ▸ hab⟩
    | succ k => exact ih ha

end Localizer
