import Localizer.Proofs.Dialogue.Wrap

/-!
# Control codes in wrapped texts

A line is broken between tokens, and the backslash of a control code is a token of its own, so a
line can end inside of a code. This happens only where a line has no white space in it and does not
fit with the next token. Where such a line always has room for the token that carries on its code
(`HasRoom`), the lines have the control codes of the text, each of them whole and in the same order.
-/

namespace Localizer.Dialogue

open List Text

variable {measure : Text → Int}
variable {k a b t s g : Text} {c : Char}

/-! ### One control code -/

inductive IsCode : Text → Prop
  /-- A colour: eight hexadecimal digits. -/
  | colour {t : Text} : t.length = 8 → (∀ c ∈ t, (hexValue? c).isSome = true) → IsCode ('\\' :: 'c' :: t)
  | size {c d : Char} : isDecimal c = true → isDecimal d = true → IsCode ['\\', 's', c, d]
  | wait {t : Text} : t ≠ [] → (∀ c ∈ t, isDecimal c = true) → IsCode ('\\' :: 'v' :: t)

theorem IsCode.length_le (h : IsCode k) (t : Text) : k.length ≤ codeLength (k ++ t) := by
  cases h with
  | @colour k hlen hdigits =>
    have hrun : ((k ++ t).take 8).takeWhile (fun c => (hexValue? c).isSome) = k := by
      rw [take_left' hlen, takeWhile_eq_self_iff.mpr hdigits]
    simp only [cons_append, codeLength, hrun, hlen, if_true, length_cons, le_refl]
  | size hc hd => simp [codeLength, hc, hd]
  | @wait k hne hdigits =>
    have hrun : k.length ≤ ((k ++ t).takeWhile isDecimal).length := by
      rw [takeWhile_append_of_pos hdigits, length_append]
      omega
    have hpos : 0 < k.length := length_pos_of_ne_nil hne
    simp only [cons_append, codeLength, length_cons]
    rw [if_neg (by omega)]
    omega

theorem codeLength_cases (t : Text) :
    codeLength t = 0 ∨ ∃ k r, t = k ++ r ∧ IsCode k ∧ codeLength t = k.length := by
  fun_cases codeLength t with
  | case1 t run hlen =>
    have hrun : run <+: t.take 8 := takeWhile_prefix _
    obtain ⟨r, hr⟩ := hrun.trans <| take_prefix 8 t
    refine .inr ⟨'\\' :: 'c' :: run, r, by rw [← hr]; rfl, .colour hlen ?_, by simp [hlen]⟩
    exact fun c hc => mem_takeWhile_imp (p := fun c => (hexValue? c).isSome) hc
  | case2 => exact .inl rfl
  | case3 c d r hdigits =>
    rw [Bool.and_eq_true] at hdigits
    exact .inr ⟨['\\', 's', c, d], r, rfl, .size hdigits.1 hdigits.2, rfl⟩
  | case4
  | case5 => exact .inl rfl
  | case6 t n hn =>
    obtain ⟨r, hr⟩ := takeWhile_prefix isDecimal (l := t)
    refine .inr ⟨'\\' :: 'v' :: t.takeWhile isDecimal, r, ?_, .wait ?_ ?_, rfl⟩
    · rw [cons_append, cons_append, hr]
    · exact ne_nil_of_length_pos (Nat.pos_of_ne_zero hn)
    · exact fun c hc => mem_takeWhile_imp hc
  | case7 => exact .inl rfl

theorem codeLength_le_length (t : Text) : codeLength t ≤ t.length := by
  rcases codeLength_cases t with h | ⟨k, r, rfl, -, h⟩
  · omega
  · rw [h, length_append]
    omega

theorem codeLength_le_append (a b : Text) : codeLength a ≤ codeLength (a ++ b) := by
  rcases codeLength_cases a with h | ⟨k, r, rfl, hk, h⟩
  · omega
  · rw [h, append_assoc]
    exact hk.length_le _

theorem codeLength_append (h : codeLength (a ++ b) ≤ a.length) :
    codeLength (a ++ b) = codeLength a := by
  refine le_antisymm ?_ (codeLength_le_append a b)
  rcases codeLength_cases (a ++ b) with hzero | ⟨k, r, hsplit, hk, hlen⟩
  · omega
  · have hpre : k <+: a := by
      refine prefix_of_prefix_length_le ⟨r, hsplit.symm⟩ (prefix_append a b) ?_
      omega
    obtain ⟨r', rfl⟩ := hpre
    rw [hlen]
    exact hk.length_le r'

/-! ### Boundaries inside of a code -/

/-- A control code begins in the first text and ends in the second. -/
def CodeCrosses (a b : Text) : Prop := ∃ k, k <:+ a ∧ k ≠ [] ∧ k.length < codeLength (k ++ b)

instance (a b : Text) : Decidable (CodeCrosses a b) :=
  decidable_of_iff (∃ k ∈ a.tails, k ≠ [] ∧ k.length < codeLength (k ++ b)) (by simp [CodeCrosses])

theorem not_codeCrosses_nil (b : Text) : ¬ CodeCrosses [] b := by
  rintro ⟨k, hk, hne, -⟩
  exact hne (suffix_nil.mp hk)

theorem CodeCrosses.of_append {c : Text} (h : CodeCrosses (a ++ b) c) :
    CodeCrosses a (b ++ c) ∨ CodeCrosses b c := by
  obtain ⟨k, ⟨w, hw⟩, hne, hlt⟩ := h
  rcases append_eq_append_iff.mp hw with ⟨a', ha, hk⟩ | ⟨b', -, hb⟩
  · by_cases hnil : a' = []
    · rw [hnil, nil_append] at hk
      exact .inr ⟨k, hk ▸ suffix_rfl, hne, hlt⟩
    · refine .inl ⟨a', ⟨w, ha.symm⟩, hnil, ?_⟩
      rw [hk, append_assoc, length_append] at hlt
      omega
  · exact .inr ⟨k, ⟨b', hb.symm⟩, hne, hlt⟩

/-- A character that a control code can have. -/
def isCodeChar (c : Char) : Bool :=
  c = '\\' || c = 'c' || c = 's' || c = 'v' || (hexValue? c).isSome || isDecimal c

theorem IsCode.isCodeChar (h : IsCode k) : ∀ c ∈ k, isCodeChar c = true := by
  unfold Dialogue.isCodeChar
  cases h with
  | colour hlen hdigits =>
    simp only [forall_mem_cons]
    exact ⟨rfl, rfl, fun c hc => by simp [hdigits c hc]⟩
  | size hc hd => simp [hc, hd]
  | wait hne hdigits =>
    simp only [forall_mem_cons]
    exact ⟨rfl, rfl, fun c hc => by simp [hdigits c hc]⟩

theorem not_codeCrosses_of_apart (h : Apart isCodeChar a b) : ¬ CodeCrosses a b := by
  rintro ⟨k, ⟨w, rfl⟩, hne, hlt⟩
  rcases codeLength_cases (k ++ b) with hzero | ⟨code, r, hsplit, hcode, hlen⟩
  · omega
  · -- the last character before the boundary and the first one behind it are in the code
    obtain ⟨v, rfl⟩ : k <+: code := by
      refine prefix_of_prefix_length_le (prefix_append k b) ⟨r, hsplit.symm⟩ ?_
      omega
    rw [append_assoc] at hsplit
    obtain ⟨d, hd⟩ := Option.isSome_iff_exists.mp (getLast?_isSome.mpr hne)
    cases v with
    | nil =>
      rw [append_nil] at hlen
      omega
    | cons e v =>
      have hlast : (w ++ k).getLast? = some d := by rw [getLast?_append_of_ne_nil _ hne, hd]
      have hhead : b.head? = some e := by
        rw [append_cancel_left hsplit]
        rfl
      have hfalse := h d e hlast hhead (hcode.isCodeChar d (mem_append_left _ (mem_of_getLast? hd)))
      simp [hcode.isCodeChar e (mem_append_right _ mem_cons_self)] at hfalse

/-! ### All control codes of a text -/

/-- The control codes of a text, after `skip` characters of one that is already found. -/
def codesFrom : Nat → Text → List Text
  | _, [] => []
  | skip + 1, _ :: t => codesFrom skip t
  | 0, c :: t =>
    match codeLength (c :: t) with
    | 0 => codesFrom 0 t
    | n + 1 => (c :: t.take n) :: codesFrom n t

/-- The control codes of a text, from left to right. -/
def codes (t : Text) : List Text := codesFrom 0 t

theorem codesFrom_eq (n : Nat) (t : Text) : codesFrom n t = codes (t.drop n) := by
  induction t generalizing n with
  | nil => rw [drop_nil, codes, codesFrom, codesFrom]
  | cons c t ih =>
    cases n with
    | zero => rfl
    | succ n => rw [codesFrom, ih, drop_succ_cons]

@[simp] theorem codes_nil : codes [] = [] := rfl

theorem codes_cons_of_eq_zero (h : codeLength (c :: t) = 0) : codes (c :: t) = codes t := by
  rw [codes, codesFrom, h]
  rfl

theorem codes_of_ne_zero (h : codeLength t ≠ 0) :
    codes t = t.take (codeLength t) :: codes (t.drop (codeLength t)) := by
  cases t with
  | nil => exact absurd rfl h
  | cons c t =>
    obtain ⟨n, hn⟩ := Nat.exists_eq_succ_of_ne_zero h
    rw [codes, codesFrom, hn]
    simp only [codesFrom_eq, take_succ_cons, drop_succ_cons]

theorem codes_induction {P : Text → Prop} (nil : P [])
    (char : ∀ c t, codeLength (c :: t) = 0 → P t → P (c :: t))
    (code : ∀ t, codeLength t ≠ 0 → P (t.drop (codeLength t)) → P t) (t : Text) : P t := by
  induction hn : t.length using Nat.strong_induction_on generalizing t with
  | _ n ih =>
    by_cases h : codeLength t = 0
    · cases t with
      | nil => exact nil
      | cons c t =>
        refine char c t h (ih _ ?_ t rfl)
        rw [← hn, length_cons]
        omega
    · refine code t h (ih _ ?_ _ rfl)
      have hle := codeLength_le_length t
      rw [← hn, length_drop]
      omega

/-- **Parts that no code crosses have their own codes.** -/
theorem codes_append (h : ¬ CodeCrosses a b) : codes (a ++ b) = codes a ++ codes b := by
  have hseen : ∀ k, k <:+ a → k ≠ [] → codeLength (k ++ b) = codeLength k := fun k hk hne =>
    codeLength_append (not_lt.mp fun hlt => h ⟨k, hk, hne, hlt⟩)
  clear h
  induction a using codes_induction with
  | nil => rfl
  | char c t hzero ih =>
    have hzero' := (hseen (c :: t) suffix_rfl (cons_ne_nil c t)).trans hzero
    rw [cons_append] at hzero' ⊢
    rw [codes_cons_of_eq_zero hzero', codes_cons_of_eq_zero hzero]
    exact ih fun k hk => hseen k (hk.trans (suffix_cons c t))
  | code t hpos ih =>
    have hne : t ≠ [] := by
      rintro rfl
      exact hpos rfl
    have hlen := hseen t suffix_rfl hne
    have hle := codeLength_le_length t
    rw [codes_of_ne_zero (hlen ▸ hpos), codes_of_ne_zero hpos, hlen, take_append_of_le_length hle,
      drop_append_of_le_length hle, ih fun k hk => hseen k (hk.trans (drop_suffix _ t)), cons_append]

theorem infix_of_mem_codes (h : k ∈ codes t) : k <:+: t := by
  induction t using codes_induction with
  | nil => cases h
  | char c t hzero ih =>
    rw [codes_cons_of_eq_zero hzero] at h
    exact (ih h).trans (suffix_cons c t).isInfix
  | code t hpos ih =>
    rw [codes_of_ne_zero hpos, mem_cons] at h
    rcases h with rfl | h
    · exact IsPrefix.isInfix <| take_prefix _ t
    · exact (ih h).trans (drop_suffix _ t).isInfix

/-! ### Codes of lines -/

theorem not_isCodeChar_of_isBlank (h : isBlank c = true) : isCodeChar c = false := by
  rw [← Bool.not_eq_true]
  intro hcode
  simp only [isCodeChar, Bool.or_eq_true, decide_eq_true_eq] at hcode
  rcases hcode with ((((rfl | rfl) | rfl) | rfl) | hhex) | hdecimal
  · exact absurd h (by decide)
  · exact absurd h (by decide)
  · exact absurd h (by decide)
  · exact absurd h (by decide)
  · simp [not_blank_of_hexValue? hhex] at h
  · simp [not_blank_of_isDecimal hdecimal] at h

theorem not_isCodeChar_of_mem_noStart (h : c ∈ noStart) : isCodeChar c = false := by
  have hall : (noStart.all fun c => !isCodeChar c) = true := by decide
  simpa using all_eq_true.mp hall c h

/-- A line of the tokens `x`, with `p` before it and `u` and `y` behind it: if it begins outside of
control codes, has no white space in it and ends inside of a code, then it fits with the next token.
-/
def RoomAt (measure : Text → Int) (p x : List Text) (u : Text) (y : List Text) : Prop :=
  ¬ CodeCrosses p.flatten (x ++ u :: y).flatten → (∀ c ∈ x.flatten, isBlank c = false) →
    CodeCrosses x.flatten (u :: y).flatten → width measure (x.flatten ++ u) ≤ lineLimit

/-- Every line that could be taken off the text has room for the code that it ends in. -/
def HasRoom (measure : Text → Int) (s : Text) : Prop :=
  ∀ p x u y, tokens s = p ++ (x ++ u :: y) → RoomAt measure p x u y

instance (measure : Text → Int) (p x : List Text) (u : Text) (y : List Text) :
    Decidable (RoomAt measure p x u y) :=
  decidable_of_iff (¬ CodeCrosses p.flatten (x ++ u :: y).flatten → (x.flatten.all fun c => !isBlank c) = true →
    CodeCrosses x.flatten (u :: y).flatten → width measure (x.flatten ++ u) ≤ lineLimit)
    (by simp only [RoomAt, all_eq_true, Bool.not_eq_true'])

theorem hasRoom_iff : HasRoom measure s ↔ ∀ i ≤ (tokens s).length, ∀ j ≤ (tokens s).length,
    ∀ u ∈ (((tokens s).drop i).drop j).head?,
      RoomAt measure ((tokens s).take i) (((tokens s).drop i).take j) u (((tokens s).drop i).drop (j + 1)) := by
  constructor
  · intro h i _ j _ u hu
    apply h
    rw [← tail_drop, cons_head?_tail hu, take_append_drop, take_append_drop]
  · intro h p x u y htokens
    have hroom := h p.length (by simp [htokens]) x.length (by simp [htokens]; omega) u
    simp only [htokens, drop_left, take_left, head?_cons, Option.mem_some_iff] at hroom
    have hrest : (x ++ u :: y).drop (x.length + 1) = y := by
      rw [← tail_drop, drop_left, tail_cons]
    rw [hrest] at hroom
    exact hroom trivial

instance (measure : Text → Int) (s : Text) : Decidable (HasRoom measure s) :=
  decidable_of_iff _ hasRoom_iff.symm

theorem HasRoom.of_append {rest : Text} {q : List Text} (h : HasRoom measure s)
    (hs : tokens s = q ++ tokens rest) (hq : ¬ CodeCrosses q.flatten rest) :
    HasRoom measure rest := by
  intro p x u y htokens hstart
  rw [htokens, ← append_assoc] at hs
  refine h (q ++ p) x u y hs fun hcross => ?_
  rw [flatten_append] at hcross
  rcases hcross.of_append with hcross | hcross
  · rw [← flatten_append, ← htokens, flatten_tokens] at hcross
    exact hq hcross
  · exact hstart hcross

theorem codes_eq_nil (h : ∀ c ∈ g, isCodeChar c = false) : codes g = [] := by
  induction g with
  | nil => rfl
  | cons c g ih =>
    have hzero : codeLength (c :: g) = 0 := by
      rcases codeLength_cases (c :: g) with hzero | ⟨k, r, hsplit, hk, hlen⟩
      · exact hzero
      · cases k with
        | nil => exact hlen
        | cons d k =>
          have hd := hk.isCodeChar d mem_cons_self
          rw [← (cons.inj hsplit).1, h c mem_cons_self] at hd
          cases hd
    rw [codes_cons_of_eq_zero hzero]
    exact ih fun d hd => h d (mem_cons_of_mem c hd)

theorem codes_append_of_forall (h : ∀ c ∈ g, isCodeChar c = false) : codes (a ++ g) = codes a := by
  have hapart : Apart isCodeChar a g := by
    intro d e _ he _
    exact h e (mem_of_head? he)
  rw [codes_append (not_codeCrosses_of_apart hapart), codes_eq_nil h, append_nil]

namespace LineCut

variable {body gap rest : Text}

variable (h : LineCut measure s body gap rest)
include h

theorem isCodeChar_gap : ∀ c ∈ gap, isCodeChar c = false := by
  intro c hc
  rcases h.isGap.mem c hc with hblank | hsign
  · exact not_isCodeChar_of_isBlank hblank
  · exact not_isCodeChar_of_mem_noStart hsign

theorem codes_line : codes (body ++ withoutBlanks gap) = codes (body ++ gap) := by
  rw [codes_append_of_forall h.isCodeChar_gap, codes_append_of_forall]
  exact fun c hc => h.isCodeChar_gap c (mem_of_mem_filter hc)

theorem apart_rest
    (hlast : ∀ d, (body ++ gap).getLast? = some d → isBlank d = true ∨ d ∈ noStart) :
    tokens s = tokens (body ++ gap) ++ tokens rest ∧ ¬ CodeCrosses (body ++ gap) rest := by
  have hword : Apart isWordPart (body ++ gap) rest := by
    intro d e hd _ hpart
    rcases hlast d hd with hblank | hsign
    · simp [isBlank_of_isWordPart hpart] at hblank
    · simp [not_isWordPart_of_mem_noStart hsign] at hpart
  have hcode : Apart isCodeChar (body ++ gap) rest := by
    intro d e hd _ hcode
    rcases hlast d hd with hblank | hsign
    · simp [not_isCodeChar_of_isBlank hblank] at hcode
    · simp [not_isCodeChar_of_mem_noStart hsign] at hcode
  refine ⟨?_, not_codeCrosses_of_apart hcode⟩
  rw [h.text_eq, ← append_assoc, tokens_append (fun d e _ he _ => h.isGap.head_rest e he) hword]

theorem exists_tokens (hroom : HasRoom measure s) :
    ∃ q, tokens s = q ++ tokens rest ∧ q.flatten = body ++ gap ∧
      ¬ CodeCrosses (body ++ gap) rest := by
  by_cases hgap : gap = []
  · cases h.broken with
    | ended hrest =>
      refine ⟨tokens s, ?_, ?_, ?_⟩
      · rw [hrest, tokens_nil, append_nil]
      · rw [flatten_tokens, h.text_eq, hrest, append_nil]
      · rintro ⟨k, -, -, hlt⟩
        rw [hrest, append_nil] at hlt
        exact absurd (codeLength_le_length k) (not_le.mpr hlt)
    | atGap hne => exact absurd hgap hne
    | @behindSign d hmem hlast =>
      obtain ⟨htokens, hcross⟩ := h.apart_rest fun e he => by
        rw [hgap, append_nil, hlast] at he
        exact .inr (Option.some.inj he ▸ hmem)
      exact ⟨_, htokens, flatten_tokens _, hcross⟩
    | @full x u hblank htokens hbody hfull =>
      obtain ⟨y, htokens⟩ := htokens
      rw [append_assoc, singleton_append] at htokens
      have hrest : (u :: y).flatten = rest := by
        have htext := congrArg flatten htokens
        rw [flatten_append, hbody, flatten_tokens, h.text_eq, hgap] at htext
        exact append_cancel_left htext
      refine ⟨x, ?_, ?_, fun hcross => ?_⟩
      · rw [← hrest, tokens_flatten_right htokens.symm, htokens]
      · rw [hbody, hgap, append_nil]
      · rw [hgap, append_nil, ← hbody, ← hrest] at hcross
        have hfits := hroom [] x u y htokens.symm (not_codeCrosses_nil _) (hbody ▸ hblank) hcross
        rw [hbody] at hfits
        exact absurd hfits (not_le.mpr hfull)
  · obtain ⟨htokens, hcross⟩ := h.apart_rest fun d hd => by
      rw [getLast?_append_of_ne_nil _ hgap] at hd
      exact h.isGap.mem d (mem_of_getLast? hd)
    exact ⟨_, htokens, flatten_tokens _, hcross⟩

end LineCut

/-- **Lines with room for their codes split none.** -/
theorem Laid.codes_eq {left : Text} {ls : List Text} (h : Laid measure s ls left)
    (hroom : HasRoom measure s) : codes s = ls.flatMap codes ++ codes left := by
  induction h with
  | nil => rfl
  | @cons s body gap rest left ls hcut _ ih =>
    obtain ⟨q, htokens, hq, hcross⟩ := hcut.exists_tokens hroom
    rw [flatMap_cons, hcut.codes_line, hcut.text_eq, ← append_assoc body, codes_append hcross,
      ih (hroom.of_append htokens (hq ▸ hcross)), append_assoc]

/-- **Control codes are kept whole and in order**, if there is room for them. -/
theorem wrapped_codes {t : Text} (hroom : HasRoom measure (unwrapped t)) (h : reportsOverflow measure t = false) :
    ∃ ls, wrapping measure t = .fits ls ∧ wrap measure t = joinLines ls ∧ ls.flatMap codes = codes (unwrapped t) ∧
      ∀ k ∈ codes (unwrapped t), ∃ l ∈ ls, k <:+: l := by
  obtain ⟨ls, hwrap⟩ := reportsOverflow_eq_false_iff.mp h
  have hcodes := (laid_of_fits hwrap).1.codes_eq hroom
  rw [codes_nil, List.append_nil] at hcodes
  refine ⟨ls, hwrap, by rw [wrap, hwrap], hcodes.symm, fun k hk => ?_⟩
  rw [hcodes, List.mem_flatMap] at hk
  obtain ⟨l, hl, hk⟩ := hk
  exact ⟨l, hl, infix_of_mem_codes hk⟩

theorem wrapped_codes_two_lines :
    HasRoom (fun t => 10 * t.length) (unwrapped "Hey! \\s12Ok?") ∧
      reportsOverflow (fun t => 10 * t.length) "Hey! \\s12Ok?" = false ∧
      ∃ ls, wrapping (fun t => 10 * t.length) "Hey! \\s12Ok?" = .fits ls ∧
        wrap (fun t => 10 * t.length) "Hey! \\s12Ok?" = joinLines ls ∧
        ls.flatMap codes = codes (unwrapped "Hey! \\s12Ok?") ∧
        ∀ k ∈ codes (unwrapped "Hey! \\s12Ok?"), ∃ l ∈ ls, k <:+: l :=
  ⟨by decide, by decide, wrapped_codes (by decide) (by decide)⟩

/-- A colour, and a word that is too long for a line. -/
def colouredWord : Text := "\\c00FF00FFAaaaaaaaaaaaaaaaaaaaaaaaaaaaaaaaaaaaaaaaaaaah"

/-- **Without room a code is split.** The backslash of the colour stays alone on the first line. -/
theorem colouredWord_split :
    reportsOverflow displayWidth colouredWord = false ∧ codes (unwrapped colouredWord) = ["\\c00FF00FF"] ∧
      ∃ ls, wrapping displayWidth colouredWord = .fits ls ∧ ls.flatMap codes = [] := by
  have hwrap : wrapping displayWidth colouredWord =
      .fits ["\\", "c00FF00FFAaaaaaaaaaaaaaaaaaaaaaaaaaaaaaaaaaaaaaaaaaaah"] := by decide +kernel
  refine ⟨reportsOverflow_eq_false_iff.mpr ⟨_, hwrap⟩, ?_, _, hwrap, ?_⟩
  · decide
  · decide

end Localizer.Dialogue
