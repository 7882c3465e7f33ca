import Localizer.Dialogue.Wrap
import Localizer.Proofs.Text.Words

/-!
# The tokens of a text

Tokens, one after another, are the text again. A token is a run of white space, a word, or a single
sign, so white space never shares a token with anything else and most signs are tokens of their own.
A text can be cut at any place that no run of white space and no word crosses (`Apart`): its tokens
are then those of the two parts.
-/

namespace Localizer

open List

variable {p : Char → Bool} {a b u t : Text}

namespace Text

/-! ### Runs of characters across a boundary -/

/-- No run of characters of the class crosses the boundary between two texts. -/
def Apart (p : Char → Bool) (a b : Text) : Prop :=
  ∀ d e, a.getLast? = some d → b.head? = some e → p d = true → p e = false

theorem Apart.of_suffix {a' : Text} (h : Apart p a b) (ha : a' <:+ a) : Apart p a' b := by
  obtain ⟨s, rfl⟩ := ha
  intro d e hd
  exact h d e (by rw [getLast?_append, hd, Option.some_or])

theorem Apart.takeWhile_append {c : Char} (h : Apart p (c :: a) b) (hc : p c = true) :
    (a ++ b).takeWhile p = a.takeWhile p := by
  induction a generalizing c with
  | nil =>
    cases b with
    | nil => rfl
    | cons e b =>
      have he : p e = false := h c e rfl rfl hc
      simp [he]
  | cons c' a ih =>
    rw [cons_append, takeWhile_cons, takeWhile_cons]
    by_cases hc' : p c' = true
    · rw [if_pos hc', if_pos hc', ih (h.of_suffix (suffix_cons _ _)) hc']
    · rw [if_neg hc', if_neg hc']

end Text

namespace Dialogue

open Text

variable {c : Char}

/-! ### Characters of a word -/

theorem isWordPart_of_isAlnum (h : isAlnum c = true) : isWordPart c = true := by
  simp [isWordPart, h]

theorem toNat_of_isWordPart (h : isWordPart c = true) : 39 ≤ c.toNat ∧ c.toNat ≤ 122 := by
  have hrange : ∀ {lo hi : Char}, lo ≤ c ∧ c ≤ hi → lo.toNat ≤ c.toNat ∧ c.toNat ≤ hi.toNat := id
  simp only [isWordPart, isAlnum, isBasicLetter, isBasicDigit, Bool.or_eq_true, Bool.and_eq_true,
    decide_eq_true_eq] at h
  rcases h with ((((h | h) | h) | rfl) | rfl) | rfl
  · have hc : 97 ≤ c.toNat ∧ c.toNat ≤ 122 := hrange h
    omega
  · have hc : 65 ≤ c.toNat ∧ c.toNat ≤ 90 := hrange h
    omega
  · have hc : 48 ≤ c.toNat ∧ c.toNat ≤ 57 := hrange h
    omega
  · decide
  · decide
  · decide

theorem isBlank_of_isWordPart (h : isWordPart c = true) : isBlank c = false := by
  obtain ⟨hlo, hhi⟩ := toNat_of_isWordPart h
  exact not_blank_of_range (by decide) hlo hhi

/-! ### What a token is -/

inductive IsToken : Text → Prop
  /-- A run of white space. -/
  | blanks {c : Char} {t : Text} : isBlank c = true → Blanks t → IsToken (c :: t)
  | word {c : Char} {t : Text} : isAlnum c = true → (∀ d ∈ t, isWordPart d = true) → IsToken (c :: t)
  | sign {c : Char} : isBlank c = false → IsToken [c]

theorem IsToken.ne_nil (h : IsToken u) : u ≠ [] := by
  cases h <;> exact cons_ne_nil _ _

theorem IsToken.blanks_or_isWord (h : IsToken u) : Blanks u ∨ IsWord u := by
  cases h with
  | blanks hc ht => exact .inl (forall_mem_cons.mpr ⟨hc, ht⟩)
  | word hc ht =>
    refine .inr ⟨cons_ne_nil _ _, forall_mem_cons.mpr ⟨?_, fun d hd => ?_⟩⟩
    · exact isBlank_of_isWordPart (isWordPart_of_isAlnum hc)
    · exact isBlank_of_isWordPart (ht d hd)
  | sign hc => exact .inr ⟨cons_ne_nil _ _, fun d hd => mem_singleton.mp hd ▸ hc⟩

theorem IsToken.blanks_of_mem (h : IsToken u) (hc : c ∈ u) (hblank : isBlank c = true) :
    Blanks u := by
  rcases h.blanks_or_isWord with hu | hu
  · exact hu
  · exact absurd (hu.not_blank c hc) (by simp [hblank])

theorem IsToken.isWord_of_mem (h : IsToken u) (hc : c ∈ u) (hblank : isBlank c = false) :
    IsWord u := by
  rcases h.blanks_or_isWord with hu | hu
  · exact absurd (hu c hc) (by simp [hblank])
  · exact hu

theorem IsToken.eq_singleton (h : IsToken u) (hc : c ∈ u) (hblank : isBlank c = false)
    (hpart : isWordPart c = false) : u = [c] := by
  cases h with
  | blanks hd ht =>
    have hall : Blanks _ := forall_mem_cons.mpr ⟨hd, ht⟩
    exact absurd (hall c hc) (by simp [hblank])
  | @word d t hd ht =>
    have hall : ∀ e ∈ d :: t, isWordPart e = true := forall_mem_cons.mpr ⟨isWordPart_of_isAlnum hd, ht⟩
    exact absurd (hall c hc) (by simp [hpart])
  | sign _ => rw [mem_singleton.mp hc]

/-! ### The first token -/

theorem take_tokenTail_of_blank (t : Text) (hc : isBlank c = true) :
    t.take (tokenTail c t) = t.takeWhile isBlank := by
  rw [tokenTail, if_pos hc]
  exact Eq.symm <| prefix_iff_eq_take.mp <| takeWhile_prefix _

theorem take_tokenTail_of_isAlnum (t : Text) (hc : isAlnum c = true) :
    t.take (tokenTail c t) = dropEndWhile (fun c => !isAlnum c) (t.takeWhile isWordPart) := by
  have hblank : ¬ isBlank c = true := by simp [isBlank_of_isWordPart (isWordPart_of_isAlnum hc)]
  rw [tokenTail, if_neg hblank, if_pos hc]
  have hpre := (dropEndWhile_isPrefix (p := fun c => !isAlnum c) _).trans <| takeWhile_prefix isWordPart (l := t)
  exact (prefix_iff_eq_take.mp hpre).symm

theorem tokenTail_of_sign (t : Text) (hblank : isBlank c = false) (hc : isAlnum c = false) :
    tokenTail c t = 0 := by
  simp [tokenTail, hblank, hc]

theorem tokenTail_le_length (c : Char) (t : Text) : tokenTail c t ≤ t.length := by
  unfold tokenTail
  split
  · exact (takeWhile_sublist _).length_le
  · split
    · exact (dropEndWhile_isPrefix _).length_le.trans (takeWhile_sublist _).length_le
    · exact Nat.zero_le _

theorem isToken_take_tokenTail (c : Char) (t : Text) : IsToken (c :: t.take (tokenTail c t)) := by
  by_cases hblank : isBlank c = true
  · rw [take_tokenTail_of_blank t hblank]
    exact .blanks hblank fun d hd => mem_takeWhile_imp hd
  · rw [Bool.not_eq_true] at hblank
    by_cases hc : isAlnum c = true
    · rw [take_tokenTail_of_isAlnum t hc]
      exact .word hc fun d hd => mem_takeWhile_imp ((dropEndWhile_isPrefix _).mem hd)
    · rw [Bool.not_eq_true] at hc
      rw [tokenTail_of_sign t hblank hc]
      exact .sign hblank

theorem tokenTail_take_tokenTail (c : Char) (t : Text) :
    tokenTail c (t.take (tokenTail c t)) = tokenTail c t := by
  have hlen : (t.take (tokenTail c t)).length = tokenTail c t :=
    length_take_of_le (tokenTail_le_length c t)
  suffices h : (t.take (tokenTail c t)).take (tokenTail c (t.take (tokenTail c t))) = t.take (tokenTail c t) by
    have := congrArg length h
    rwa [length_take_of_le (tokenTail_le_length c _), hlen] at this
  by_cases hblank : isBlank c = true
  · rw [take_tokenTail_of_blank _ hblank, take_tokenTail_of_blank _ hblank, takeWhile_takeWhile]
    simp
  · rw [Bool.not_eq_true] at hblank
    by_cases hc : isAlnum c = true
    · rw [take_tokenTail_of_isAlnum _ hc, take_tokenTail_of_isAlnum _ hc]
      have hword : ∀ d ∈ dropEndWhile (fun c => !isAlnum c) (t.takeWhile isWordPart), isWordPart d = true :=
        fun d hd => mem_takeWhile_imp ((dropEndWhile_isPrefix _).mem hd)
      rw [takeWhile_eq_self_iff.mpr hword]
      exact dropEndWhile_eq_self fun d => of_getLast?_dropEndWhile
    · rw [Bool.not_eq_true] at hc
      rw [tokenTail_of_sign t hblank hc, take_zero, take_nil]

theorem tokenTail_append (hblank : Apart isBlank (c :: t) b) (hpart : Apart isWordPart (c :: t) b) :
    tokenTail c (t ++ b) = tokenTail c t := by
  unfold tokenTail
  split
  · next hc => rw [hblank.takeWhile_append hc]
  · split
    · next hc => rw [hpart.takeWhile_append (isWordPart_of_isAlnum hc)]
    · rfl

/-! ### All tokens -/

theorem tokensFrom_eq (n : Nat) (t : Text) : tokensFrom n t = tokens (t.drop n) := by
  induction t generalizing n with
  | nil => rw [drop_nil, tokens, tokensFrom, tokensFrom]
  | cons c t ih =>
    cases n with
    | zero => rfl
    | succ n => rw [tokensFrom, ih, drop_succ_cons]

@[simp] theorem tokens_nil : tokens [] = [] := rfl

theorem tokens_cons (c : Char) (t : Text) :
    tokens (c :: t) = (c :: t.take (tokenTail c t)) :: tokens (t.drop (tokenTail c t)) := by
  rw [tokens, tokensFrom, tokensFrom_eq]

theorem tokens_induction {P : Text → Prop} (nil : P [])
    (cons : ∀ c t, P (t.drop (tokenTail c t)) → P (c :: t)) (t : Text) : P t := by
  induction hn : t.length using Nat.strong_induction_on generalizing t with
  | _ n ih =>
    cases t with
    | nil => exact nil
    | cons c t =>
      refine cons c t (ih _ ?_ _ rfl)
      rw [← hn, length_drop, length_cons]
      omega

/-- **A text is its tokens, one after another.** -/
@[simp] theorem flatten_tokens (t : Text) : (tokens t).flatten = t := by
  induction t using tokens_induction with
  | nil => rfl
  | cons c t ih => rw [tokens_cons, flatten_cons, ih, cons_append, take_append_drop]

theorem isToken_of_mem_tokens (h : u ∈ tokens t) : IsToken u := by
  induction t using tokens_induction with
  | nil => cases h
  | cons c t ih =>
    rw [tokens_cons, mem_cons] at h
    rcases h with rfl | h
    · exact isToken_take_tokenTail c t
    · exact ih h

theorem tokens_of_mem_tokens (h : u ∈ tokens t) : tokens u = [u] := by
  induction t using tokens_induction with
  | nil => cases h
  | cons c t ih =>
    rw [tokens_cons, mem_cons] at h
    rcases h with rfl | h
    · rw [tokens_cons, tokenTail_take_tokenTail, take_take, Nat.min_self, drop_take, Nat.sub_self,
        take_zero, tokens_nil]
    · exact ih h

theorem tokens_flatten_right {x y : List Text} (h : tokens t = x ++ y) : tokens y.flatten = y := by
  induction x generalizing t with
  | nil => rw [← nil_append y, ← h, flatten_tokens]
  | cons u x ih =>
    cases t with
    | nil => cases h
    | cons c t =>
      rw [tokens_cons, cons_append] at h
      exact ih (cons.inj h).2

/-- **Parts that no token crosses have their own tokens.** -/
theorem tokens_append (hblank : Apart isBlank a b) (hpart : Apart isWordPart a b) :
    tokens (a ++ b) = tokens a ++ tokens b := by
  induction a using tokens_induction with
  | nil => rfl
  | cons c t ih =>
    have hlen := tokenTail_le_length c t
    have hrest : t.drop (tokenTail c t) <:+ c :: t := (drop_suffix _ t).trans (suffix_cons c t)
    rw [cons_append, tokens_cons, tokenTail_append hblank hpart, take_append_of_le_length hlen,
      drop_append_of_le_length hlen, ih (hblank.of_suffix hrest) (hpart.of_suffix hrest), tokens_cons,
      cons_append]

end Dialogue

end Localizer
