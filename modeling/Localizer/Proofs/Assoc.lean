import Localizer.Assoc
import Mathlib

/-!
# Looking a key up

What a look-up says about the entries of a dictionary, for both kinds of dictionary in use: lists of
pairs, and the ordered dictionaries of `Assoc`.
-/

namespace Localizer.Assoc

open List

variable {κ α : Type} {k : κ} {a : α} {d : List (κ × α)} {e : κ × α}

theorem mem_of_lookup [BEq κ] [LawfulBEq κ] (h : d.lookup k = some a) : (k, a) ∈ d := by
  obtain ⟨l₁, l₂, rfl, -⟩ := lookup_eq_some_iff.mp h
  simp

theorem lookup_eq_get? [DecidableEq κ] [BEq κ] [LawfulBEq κ] (k : κ) (d : List (κ × α)) :
    d.lookup k = get? k d := by
  induction d with
  | nil => rfl
  | cons e d ih =>
    rw [lookup_cons, get?, ih]
    by_cases h : e.1 = k
    · simp [h]
    · have hk : (k == e.1) = false := beq_false_of_ne (Ne.symm h)
      simp [h, hk]

variable [DecidableEq κ]

theorem mem_of_get? (h : get? k d = some a) : (k, a) ∈ d :=
  mem_of_lookup ((lookup_eq_get? k d).trans h)

theorem get?_eq_none_iff : get? k d = none ↔ k ∉ d.map Prod.fst := by
  induction d with
  | nil => simp [get?]
  | cons e d ih =>
    rw [get?, map_cons, mem_cons, not_or]
    by_cases h : e.1 = k
    · simp [h]
    · simp [h, ih, Ne.symm h]

theorem get?_eq_some_iff (hd : (d.map Prod.fst).Nodup) : get? k d = some a ↔ (k, a) ∈ d := by
  refine ⟨mem_of_get?, fun h => ?_⟩
  cases hget : get? k d with
  | none => exact absurd (mem_map_of_mem h) (get?_eq_none_iff.mp hget)
  | some b =>
    have hentry := inj_on_of_nodup_map hd (mem_of_get? hget) h rfl
    rw [(Prod.mk.inj hentry).2]

/-! ### After a change -/

theorem get?_insert (k l : κ) (a : α) (d : List (κ × α)) :
    get? k (insert l a d) = if l = k then some a else get? k d := by
  induction d with
  | nil => rfl
  | cons e d ih =>
    rw [insert]
    by_cases he : e.1 = l
    · rw [if_pos he, get?, get?]
      by_cases hk : l = k
      · simp [he, hk]
      · simp [he, hk]
    · rw [if_neg he, get?, ih, get?]
      by_cases hk : l = k
      · have hek : e.1 ≠ k := hk ▸ he
        simp [hek, hk]
      · rw [if_neg hk, if_neg hk]

theorem get?_append (k : κ) (d e : List (κ × α)) : get? k (d ++ e) = (get? k d).or (get? k e) := by
  rw [← lookup_eq_get?, ← lookup_eq_get?, ← lookup_eq_get?, lookup_append]

theorem getD_get?_insertNew (k l : κ) (a : α) (d : List (κ × α)) :
    (get? k (insertNew l a d)).getD a = (get? k d).getD a := by
  unfold insertNew
  split
  · rfl
  · rw [get?_append]
    cases hk : get? k d with
    | some b => rfl
    | none =>
      rw [get?]
      split <;> rfl

theorem getD_get?_modify (k l : κ) (a : α) (f : α → α) (d : List (κ × α)) :
    (get? k (modify l a f d)).getD a =
      if l = k then f ((get? k d).getD a) else (get? k d).getD a := by
  rw [modify, get?_insert]
  by_cases h : l = k
  · simp [h]
  · simp [h]

theorem mem_of_mem_insert (h : e ∈ insert k a d) : e = (k, a) ∨ e ∈ d := by
  induction d with
  | nil => exact .inl (mem_singleton.mp h)
  | cons b d ih =>
    rw [insert] at h
    split_ifs at h with hk
    · rcases mem_cons.mp h with rfl | h
      · exact .inl (by rw [hk])
      · exact .inr (mem_cons_of_mem b h)
    · rcases mem_cons.mp h with rfl | h
      · exact .inr mem_cons_self
      · exact (ih h).imp_right (mem_cons_of_mem b)

theorem mem_of_mem_foldl {γ : Type} {f : List γ → γ → List γ}
    (hf : ∀ d x c, c ∈ f d x → c = x ∨ c ∈ d) {es d : List γ} {c : γ} (h : c ∈ es.foldl f d) :
    c ∈ d ∨ c ∈ es := by
  induction es generalizing d with
  | nil => exact .inl h
  | cons x es ih =>
    rcases ih h with hd | hc
    · exact (hf d x c hd).elim (fun hc => .inr (hc ▸ mem_cons_self)) .inl
    · exact .inr (mem_cons_of_mem x hc)

theorem mem_of_mem_ofList {es : List (κ × α)} (h : e ∈ ofList es) : e ∈ es :=
  (mem_of_mem_foldl (fun _ _ _ hc => mem_of_mem_insert hc) h).resolve_left not_mem_nil

end Localizer.Assoc
