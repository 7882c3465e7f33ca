import Localizer.Proofs.Dialogue.Token

/-!
# Lines taken off a text

A line takes as many tokens as fit, gives back those behind its break, and takes the signs that may
not begin the next line. What comes of this is a cut of the text into three parts (`LineCut`): a
body that stands on the line as it is, a gap of which only the signs are shown, and the rest, from
which the next line is taken. The cut says everything that is proved about lines later: how wide the
line is, and why it ends where it does (`Broken`).
-/

namespace Localizer.Dialogue

open List Text Option Bool

variable {ts : List Text} {s : Text} {measure : Text → Int}

variable {c : Char} {line : List Text}
variable {t u rest gap b part : Text} {us : List Text} {e n k : Nat}

/-! ### Texts without their white space -/

def withoutBlanks (t : Text) : Text := t.filter fun c => !isBlank c

@[simp] theorem withoutBlanks_append (a b : Text) :
    withoutBlanks (a ++ b) = withoutBlanks a ++ withoutBlanks b :=
  filter_append _ _

theorem withoutBlanks_of_blanks (h : Blanks t) : withoutBlanks t = [] := by
  unfold withoutBlanks
  rw [filter_eq_nil_iff]
  intro c hc
  simp [h c hc]

theorem withoutBlanks_cons_of_blank (t : Text) (hc : isBlank c = true) :
    withoutBlanks (c :: t) = withoutBlanks t := by
  simp [withoutBlanks, hc]

theorem withoutBlanks_cons (t : Text) (hc : isBlank c = false) :
    withoutBlanks (c :: t) = c :: withoutBlanks t := by
  simp [withoutBlanks, hc]

theorem withoutBlanks_withoutBlanks (t : Text) :
    withoutBlanks (withoutBlanks t) = withoutBlanks t := by
  simp [withoutBlanks]

/-! ### Filling a line -/

theorem fit_append (measure : Text → Int) (line : Text) (ts : List Text) :
    (fit measure line ts).1 ++ (fit measure line ts).2 = ts := by
  induction ts generalizing line with
  | nil => rfl
  | cons t ts ih =>
    rw [fit]
    split
    · exact congrArg (t :: ·) (ih (line ++ t))
    · rfl

theorem fst_fit_of_snd_eq_nil {line : Text} (h : (fit measure line ts).2 = []) :
    (fit measure line ts).1 = ts := by
  have hparts := fit_append measure line ts
  rwa [h, append_nil] at hparts

theorem width_le_of_fit {line : Text} {x : List Text} (hx : x <+: (fit measure line ts).1)
    (hne : x ≠ []) : width measure (line ++ x.flatten) ≤ lineLimit := by
  induction ts generalizing line x with
  | nil => exact absurd (prefix_nil.mp hx) hne
  | cons t ts ih =>
    rw [fit] at hx
    split at hx
    · obtain ⟨u, x, rfl⟩ := exists_cons_of_ne_nil hne
      obtain ⟨rfl, hx⟩ := cons_prefix_cons.mp hx
      by_cases hnil : x = []
      · rwa [hnil, flatten_singleton]
      · rw [flatten_cons, ← append_assoc]
        exact ih hx hnil
    · exact absurd (prefix_nil.mp hx) hne

theorem lt_width_of_fit {line : Text} (h : (fit measure line ts).2 = u :: us) :
    lineLimit < width measure (line ++ (fit measure line ts).1.flatten ++ u) := by
  induction ts generalizing line with
  | nil => cases h
  | cons t ts ih =>
    rw [fit] at h ⊢
    split at h
    · next hfits =>
      have hnext := ih h
      rwa [if_pos hfits, flatten_cons, ← append_assoc line t]
    · next hfull =>
      obtain ⟨rfl, rfl⟩ := cons.inj h
      rw [if_neg hfull, flatten_nil, append_nil]
      exact not_le.mp hfull

/-! ### Signs that may not begin a line -/

theorem not_blank_of_mem_noStart (h : c ∈ noStart) : isBlank c = false := by
  have hall : (noStart.all fun c => !isBlank c) = true := by decide
  simpa using all_eq_true.mp hall c h

theorem not_isWordPart_of_mem_noStart (h : c ∈ noStart) : isWordPart c = false := by
  have hall : (noStart.all fun c => !isWordPart c) = true := by decide
  simpa using all_eq_true.mp hall c h

/-- What stands between the body of a line and the rest of the text: white space, and signs that are
hung on to the line, which fits with them. -/
structure IsGap (measure : Text → Int) (body gap rest : Text) : Prop where
  mem : ∀ c ∈ gap, isBlank c = true ∨ c ∈ noStart
  fits : withoutBlanks gap = [] ∨ width measure (body ++ withoutBlanks gap) ≤ lineLimit
  head_rest : ∀ c, rest.head? = some c → isBlank c = false

theorem isGap_nil (measure : Text → Int) (body : Text)
    (h : ∀ c, rest.head? = some c → isBlank c = false) : IsGap measure body [] rest where
  mem _ hc := absurd hc not_mem_nil
  fits := .inl rfl
  head_rest := h

theorem IsGap.blanks_append {body : Text} (h : IsGap measure body gap rest) (hb : Blanks b) :
    IsGap measure body (b ++ gap) rest where
  mem c hc := (mem_append.mp hc).elim (fun hc => .inl (hb c hc)) (h.mem c)
  fits := by
    rw [withoutBlanks_append, withoutBlanks_of_blanks hb, nil_append]
    exact h.fits
  head_rest := h.head_rest

theorem hang_isGap (measure : Text → Int) (line t : Text) :
    ∃ gap, t = gap ++ (hang measure line t).2 ∧ (hang measure line t).1 = line ++ withoutBlanks gap ∧
      IsGap measure line gap (hang measure line t).2 := by
  induction t generalizing line with
  | nil =>
    refine ⟨[], rfl, (append_nil line).symm, isGap_nil measure line fun c hc => ?_⟩
    cases hc
  | cons c t ih =>
    rw [hang]
    split
    · next hblank =>
      obtain ⟨gap, ht, hline, hgap⟩ := ih line
      rw [← withoutBlanks_cons_of_blank gap hblank] at hline
      refine ⟨c :: gap, congrArg (c :: ·) ht, hline, ?_, ?_, hgap.head_rest⟩
      · exact forall_mem_cons.mpr ⟨.inl hblank, hgap.mem⟩
      · rw [withoutBlanks_cons_of_blank gap hblank]
        exact hgap.fits
    · next hblank =>
      rw [not_eq_true] at hblank
      split
      · next hsign =>
        rw [and_eq_true, contains_iff_mem, decide_eq_true_eq] at hsign
        obtain ⟨hmem, hwidth⟩ := hsign
        obtain ⟨gap, ht, hline, hgap⟩ := ih (line ++ [c])
        have hsolid : (line ++ [c]) ++ withoutBlanks gap = line ++ withoutBlanks (c :: gap) := by
          rw [withoutBlanks_cons gap hblank, append_assoc, singleton_append]
        refine ⟨c :: gap, congrArg (c :: ·) ht, hline.trans hsolid, ?_, .inr ?_, hgap.head_rest⟩
        · exact forall_mem_cons.mpr ⟨.inr hmem, hgap.mem⟩
        · rw [← hsolid]
          rcases hgap.fits with hnil | hfits
          · rwa [hnil, append_nil]
          · exact hfits
      · refine ⟨[], rfl, (append_nil line).symm, isGap_nil measure line fun d hd => ?_⟩
        rwa [← some.inj hd]

/-! ### Places to break -/

/-- The last place is inside of the text and good unless it is the start, and no place behind it is
good. -/
theorem lastCut_spec (good : Text → Text → Bool) (s : Text) :
    lastCut good s ≤ s.length ∧ (lastCut good s ≠ 0 → good (s.take (lastCut good s)) (s.drop (lastCut good s)) = true) ∧
      ∀ e, lastCut good s < e → e ≤ s.length → good (s.take e) (s.drop e) = false := by
  unfold lastCut
  generalize s.length = n
  induction n with
  | zero =>
    have hzero : (((range 1).reverse.find? fun e => good (s.take e) (s.drop e)).getD 0) = 0 := by
      rw [show (range 1).reverse = [0] from rfl, find?_singleton]
      split <;> rfl
    rw [hzero]
    exact ⟨le_rfl, fun h => absurd rfl h, by omega⟩
  | succ n ih =>
    rw [range_succ, reverse_concat, find?_cons]
    split
    · next hgood => exact ⟨le_rfl, fun _ => hgood, by simp only [getD_some]; omega⟩
    · next hbad =>
      refine ⟨ih.1.trans n.le_succ, ih.2.1, fun e hlt hle => ?_⟩
      rcases hle.lt_or_eq with hle | rfl
      · exact ih.2.2 e hlt (Nat.le_of_lt_succ hle)
      · exact hbad

theorem not_good_of_lastCut_eq_zero {good : Text → Text → Bool} {a : Text}
    (h : lastCut good (a ++ b) = 0) (ha : a ≠ []) : good a b = false := by
  have hnot := (lastCut_spec good (a ++ b)).2.2 a.length (h ▸ length_pos_of_ne_nil ha) (by simp)
  rwa [take_left, drop_left] at hnot

theorem getLast?_of_any {signs : Text} (hsigns : (signs.all noStart.contains) = true)
    (h : (part.getLast?.any signs.contains) = true) : ∃ d ∈ noStart, part.getLast? = some d := by
  rw [Option.any_eq_true] at h
  obtain ⟨d, hd, hmem⟩ := h
  exact ⟨d, contains_iff_mem.mp (all_eq_true.mp hsigns d (contains_iff_mem.mp hmem)), hd⟩

theorem getLast?_of_endsSentence (h : endsSentence part = true) :
    ∃ d ∈ noStart, part.getLast? = some d := by
  unfold endsSentence at h
  rw [or_eq_true] at h
  rcases h with h | h
  · obtain ⟨a, rfl⟩ := isSuffixOf_iff_suffix.mp h
    refine ⟨'.', by decide, ?_⟩
    rw [getLast?_append]
    rfl
  · exact getLast?_of_any (by decide) h

theorem not_blank_of_lastCut_eq_zero (h : lastCut afterSpace s = 0) :
    ∀ c ∈ s, isBlank c = false := by
  obtain ⟨b, hs, hb⟩ := dropEndWhile_append_dropped (p := fun c => !isBlank c) s
  by_cases ha : dropEndWhile (fun c => !isBlank c) s = []
  · rw [ha, nil_append] at hs
    intro c hc
    rw [hs] at hc
    simpa using hb c hc
  · rw [hs] at h
    have hnot := not_good_of_lastCut_eq_zero h ha
    have hgood : afterSpace (dropEndWhile (fun c => !isBlank c) s) b = true := by
      obtain ⟨d, hd⟩ := isSome_iff_exists.mp (getLast?_isSome.mpr ha)
      have hblank : isBlank d = true := by simpa using of_getLast?_dropEndWhile (p := fun c => !isBlank c) hd
      have hhead : (b.head?.all fun c => !isBlank c) = true := by
        cases b with
        | nil => rfl
        | cons c b => exact hb c mem_cons_self
      rw [afterSpace, hd, hhead, any_some, hblank]
      rfl
    simp [hgood] at hnot

/-- Where a line is broken: behind white space or a sign that may not begin a line, or at its end
for want of any white space in it. -/
inductive BreaksAt (s : Text) (e : Nat) : Prop
  | behind {d : Char} : e ≤ s.length → (s.take e).getLast? = some d → isBlank d = true ∨ d ∈ noStart → BreaksAt s e
  | atEnd : e = s.length → (∀ c ∈ s, isBlank c = false) → BreaksAt s e

theorem orElse_of {P : Nat → Prop} {a b : Nat} (ha : a ≠ 0 → P a) (hb : a = 0 → P b) :
    P (orElse a b) := by
  unfold orElse
  split
  · next h => exact hb h
  · next h => exact ha h

theorem breaksAt_afterSpace (h : lastCut afterSpace s ≠ 0) : BreaksAt s (lastCut afterSpace s) := by
  have hgood := (lastCut_spec _ s).2.1 h
  rw [afterSpace, and_eq_true, Option.any_eq_true] at hgood
  obtain ⟨⟨d, hd, hblank⟩, -⟩ := hgood
  exact .behind (lastCut_spec _ s).1 hd (.inl hblank)

theorem breaksAt_phrase {ends : Text → Bool}
    (hends : ∀ {t}, ends t = true → ∃ d ∈ noStart, t.getLast? = some d)
    (h : lastCut (fun a b => ends a && atGap b) s ≠ 0) :
    BreaksAt s (lastCut (fun a b => ends a && atGap b) s) := by
  have hgood := (lastCut_spec _ s).2.1 h
  rw [and_eq_true] at hgood
  obtain ⟨d, hmem, hd⟩ := hends hgood.1
  exact .behind (lastCut_spec _ s).1 hd (.inr hmem)

theorem breaksAt_spaces (s : Text) : BreaksAt s (breakAt .spaces s) :=
  orElse_of breaksAt_afterSpace fun h => .atEnd rfl (not_blank_of_lastCut_eq_zero h)

theorem breaksAt_breakAt (m : Manner) (s : Text) : breakAt m s = 0 ∨ BreaksAt s (breakAt m s) := by
  cases m with
  | spaces => exact .inr (breaksAt_spaces s)
  | phrases =>
    apply orElse_of (P := fun e => e = 0 ∨ BreaksAt s e)
    · intro h
      exact .inr (breaksAt_phrase getLast?_of_endsSentence h)
    · intro _
      apply orElse_of (P := fun e => e = 0 ∨ BreaksAt s e)
      · intro h
        exact .inr (breaksAt_phrase (getLast?_of_any (by decide)) h)
      · intro _
        by_cases h : lastCut afterSpace s = 0
        · exact .inl h
        · exact .inr (breaksAt_afterSpace h)

theorem BreaksAt.pos (h : BreaksAt s e) (hne : s ≠ []) : 0 < e := by
  cases h with
  | behind _ hd _ =>
    rw [Nat.pos_iff_ne_zero]
    rintro rfl
    cases hd
  | atEnd he _ =>
    rw [he]
    exact length_pos_of_ne_nil hne

/-! ### Tokens before a break -/

theorem tokensUpTo_spec (hpos : 0 < n) (hn : n ≤ ts.flatten.length) :
    ∃ x u y, ts = x ++ u :: y ∧ tokensUpTo n ts = x.length + 1 ∧ x.flatten.length < n ∧
      n ≤ x.flatten.length + u.length := by
  induction ts generalizing n with
  | nil => exact absurd (hpos.trans_le hn) (lt_irrefl 0)
  | cons t ts ih =>
    obtain ⟨n, rfl⟩ := Nat.exists_eq_add_of_lt hpos
    rw [Nat.zero_add] at hpos hn ⊢
    rw [tokensUpTo]
    split
    · next hle => exact ⟨[], t, ts, rfl, rfl, hpos, by simpa using hle⟩
    · rw [flatten_cons, length_append] at hn
      obtain ⟨x, u, y, rfl, hcount, hbefore, hreach⟩ := ih (n := n + 1 - t.length) (by omega) (by omega)
      refine ⟨t :: x, u, y, rfl, ?_, ?_, ?_⟩
      · rw [hcount, length_cons]
        omega
      · rw [flatten_cons, length_append]
        omega
      · rw [flatten_cons, length_append]
        omega

theorem exists_token_before {d : Char} (hn : n ≤ ts.flatten.length)
    (hd : (ts.flatten.take n).getLast? = some d) :
    ∃ x u y, ts = x ++ u :: y ∧ tokensUpTo n ts = x.length + 1 ∧ d ∈ u := by
  have hpos : 0 < n := by
    rw [Nat.pos_iff_ne_zero]
    rintro rfl
    cases hd
  obtain ⟨x, u, y, rfl, hcount, hbefore, hreach⟩ := tokensUpTo_spec hpos hn
  refine ⟨x, u, y, rfl, hcount, ?_⟩
  have htake : (x ++ u :: y).flatten.take n = x.flatten ++ u.take (n - x.flatten.length) := by
    rw [flatten_append, flatten_cons, take_append, take_of_length_le hbefore.le,
      take_append_of_le_length (by omega)]
  have hne : u.take (n - x.flatten.length) ≠ [] := by
    rw [← length_pos_iff, length_take]
    omega
  rw [htake, getLast?_append_of_ne_nil _ hne] at hd
  exact mem_of_mem_take (mem_of_getLast? hd)

theorem joinEnd_append_blanks (ts : List Text) : ∃ b, ts.flatten = joinEnd ts ++ b ∧ Blanks b :=
  trimEnd_append_dropped ts.flatten

theorem joinEnd_eq (h : ts.flatten = s ++ b) (hb : Blanks b)
    (hs : ∀ c, s.getLast? = some c → isBlank c = false) : joinEnd ts = s := by
  rw [joinEnd, trimEnd, h, dropEndWhile_append_of_forall hb]
  exact dropEndWhile_eq_self hs

/-- How the tokens of a line are parted: behind white space or a sign that may not begin a line, or
behind all that the line shows, for want of any white space in it. -/
inductive CutsAt (line : List Text) (k : Nat) : Prop
  | behind {x : List Text} {u : Text} :
      line.take k = x ++ [u] → Blanks u ∨ (∃ d ∈ noStart, u = [d]) → CutsAt line k
  | atEnd :
      line.take k ≠ [] → joinEnd (line.take k) = joinEnd line → (∀ c ∈ joinEnd line, isBlank c = false) → CutsAt line k

theorem take_length_succ (x y : List Text) (u : Text) :
    (x ++ u :: y).take (x.length + 1) = x ++ [u] := by
  simp [take_append]

theorem BreaksAt.cutsAt (h : BreaksAt (joinEnd line) e) (hne : joinEnd line ≠ [])
    (htokens : ∀ u ∈ line, IsToken u) : CutsAt line (tokensUpTo e line) := by
  have hpos := h.pos hne
  obtain ⟨b, hline, hb⟩ := joinEnd_append_blanks line
  have hlen : (joinEnd line).length ≤ line.flatten.length := by
    rw [hline, length_append]
    omega
  cases h with
  | @behind d hle hd hkind =>
    have htake : line.flatten.take e = (joinEnd line).take e := by
      rw [hline, take_append_of_le_length hle]
    obtain ⟨x, u, y, rfl, hcount, hmem⟩ := exists_token_before (hle.trans hlen) (htake ▸ hd)
    have hu : IsToken u := htokens u (by simp)
    refine .behind (hcount ▸ take_length_succ x y u) ?_
    rcases hkind with hblank | hsign
    · exact .inl (hu.blanks_of_mem hmem hblank)
    · have hsingle := hu.eq_singleton hmem (not_blank_of_mem_noStart hsign) (not_isWordPart_of_mem_noStart hsign)
      exact .inr ⟨d, hsign, hsingle⟩
  | atEnd he hblank =>
    obtain ⟨x, u, y, rfl, hcount, -, hreach⟩ := tokensUpTo_spec hpos (he.le.trans hlen)
    have htake : (x ++ u :: y).take (tokensUpTo e (x ++ u :: y)) = x ++ [u] := hcount ▸ take_length_succ x y u
    refine .atEnd (by simp [htake]) ?_ hblank
    rw [htake]
    -- the tokens reach to the end of what the line shows, so only white space can stand behind it
    have hsplit : (x ++ u :: y).flatten = (x ++ [u]).flatten ++ y.flatten := by simp
    have hpre : joinEnd (x ++ u :: y) <+: (x ++ [u]).flatten := by
      refine prefix_of_prefix_length_le ⟨b, hline.symm⟩ ⟨y.flatten, hsplit.symm⟩ ?_
      simp only [flatten_append, flatten_singleton, length_append]
      omega
    obtain ⟨b', hb'⟩ := hpre
    have hblanks : Blanks b' := by
      intro c hc
      have hrest : b = b' ++ y.flatten := by
        have heq := hline.symm.trans hsplit
        rw [← hb', append_assoc] at heq
        exact append_cancel_left heq
      exact hb c (hrest ▸ mem_append_left _ hc)
    exact joinEnd_eq hb'.symm hblanks fun c => getLast?_trimEnd

/-- **A full line is parted in one of these ways**, in either manner. -/
theorem cutsAt_cut (measure : Text → Int) (m : Manner) (hne : joinEnd line ≠ [])
    (htokens : ∀ u ∈ line, IsToken u) : CutsAt line (cut measure m line) := by
  have hspaces : CutsAt line (breakIndex .spaces line) := (breaksAt_spaces _).cutsAt hne htokens
  have hspace : CutsAt line (orElse (breakIndex .spaces line) line.length) := by
    refine orElse_of (fun _ => hspaces) fun hzero => ?_
    rw [hzero] at hspaces
    cases hspaces with
    | behind htake _ => simp at htake
    | atEnd htake _ _ => exact absurd rfl htake
  have hbreak : CutsAt line (orElse (breakIndex m line) (orElse (breakIndex .spaces line) line.length)) := by
    refine orElse_of (fun hnonzero => ?_) fun _ => hspace
    rcases breaksAt_breakAt m (joinEnd line) with hzero | hbreaks
    · rw [breakIndex, hzero, tokensUpTo] at hnonzero
      exact absurd rfl hnonzero
    · exact hbreaks.cutsAt hne htokens
  unfold cut
  simp only
  split
  · exact hspace
  · exact hbreak

/-! ### One line -/

/-- Why a line that stands at the start of a text ends where it does. -/
inductive Broken (measure : Text → Int) (s body gap rest : Text) : Prop
  | ended : rest = [] → Broken measure s body gap rest
  /-- White space or a hung sign comes. -/
  | atGap : gap ≠ [] → Broken measure s body gap rest
  /-- A sign stands at its end that may not begin a line. -/
  | behindSign {d : Char} : d ∈ noStart → body.getLast? = some d → Broken measure s body gap rest
  /-- It has no white space in it, and does not fit with the token that comes. -/
  | full {x : List Text} {u : Text} : (∀ c ∈ body, isBlank c = false) → x ++ [u] <+: tokens s → x.flatten = body →
      lineLimit < width measure (body ++ u) → Broken measure s body gap rest

/-- How a line is taken off the start of a text: the body stands on the line as it is, of the gap
behind it only the signs are hung on, and the rest is left. -/
structure LineCut (measure : Text → Int) (s body gap rest : Text) : Prop where
  head_text : ∀ c, s.head? = some c → isBlank c = false
  text_eq : s = body ++ (gap ++ rest)
  body_ne_nil : body ≠ []
  last_body : ∀ c, body.getLast? = some c → isBlank c = false
  body_fits : tokens body = [body] ∨ width measure body ≤ lineLimit
  isGap : IsGap measure body gap rest
  broken : Broken measure s body gap rest

theorem exists_prefix_joinEnd (htokens : ∀ u ∈ ts, IsToken u) :
    ∃ x, x <+: ts ∧ joinEnd ts = x.flatten := by
  induction ts using reverseRecOn with
  | nil => exact ⟨[], prefix_rfl, rfl⟩
  | append_singleton ts u ih =>
    have hflat : (ts ++ [u]).flatten = ts.flatten ++ u := by simp
    rcases (htokens u (by simp)).blanks_or_isWord with hu | hu
    · obtain ⟨x, hx, hjoin⟩ := ih fun v hv => htokens v (mem_append_left _ hv)
      refine ⟨x, hx.trans (prefix_append _ _), ?_⟩
      rw [← hjoin, joinEnd, joinEnd, hflat, trimEnd, dropEndWhile_append_of_forall hu]
      rfl
    · refine ⟨ts ++ [u], prefix_rfl, ?_⟩
      refine joinEnd_eq (b := []) (append_nil _).symm blanks_nil fun c hc => ?_
      rw [hflat, getLast?_append_of_ne_nil _ hu.ne_nil] at hc
      exact hu.not_blank c (mem_of_getLast? hc)

theorem joinEnd_fits {y : List Text} (ht : tokens t = [t])
    (htokens : ∀ u ∈ t :: (fit measure t ts).1, IsToken u) (hy : y <+: t :: (fit measure t ts).1)
    (hne : joinEnd y ≠ []) :
    tokens (joinEnd y) = [joinEnd y] ∨ width measure (joinEnd y) ≤ lineLimit := by
  obtain ⟨x, hx, hjoin⟩ := exists_prefix_joinEnd fun u hu => htokens u (hy.mem hu)
  have hxne : x ≠ [] := by
    rintro rfl
    exact hne hjoin
  obtain ⟨u, x, rfl⟩ := exists_cons_of_ne_nil hxne
  obtain ⟨rfl, hx⟩ := cons_prefix_cons.mp (hx.trans hy)
  rw [hjoin, flatten_cons]
  by_cases hnil : x = []
  · rw [hnil, flatten_nil, append_nil]
    exact .inl ht
  · exact .inr (width_le_of_fit hx hnil)

theorem exists_first_token (hs : s ≠ []) (hhead : ∀ c, s.head? = some c → isBlank c = false) :
    ∃ t ts, tokens s = t :: ts ∧ IsWord t := by
  obtain ⟨c, s, rfl⟩ := exists_cons_of_ne_nil hs
  refine ⟨_, _, tokens_cons c s, ?_⟩
  exact (isToken_take_tokenTail c s).isWord_of_mem mem_cons_self (hhead c rfl)

/-- The reason for which a full line ends where it is cut. The white space behind the tokens that
stay is the start of the gap. -/
theorem CutsAt.broken (h : CutsAt line k) (hs : tokens s = line ++ u :: us)
    (hfull : lineLimit < width measure (line.flatten ++ u))
    (hbody : (line.take k).flatten = joinEnd (line.take k) ++ b)
    (hrest : (line.drop k ++ u :: us).flatten = gap ++ rest)
    (hhead : ∀ c, rest.head? = some c → isBlank c = false) :
    Broken measure s (joinEnd (line.take k)) (b ++ gap) rest := by
  by_cases hgap : b ++ gap = []
  · obtain ⟨rfl, rfl⟩ := append_eq_nil_iff.mp hgap
    rw [append_nil] at hbody
    cases h with
    | @behind x v htake hkind =>
      have hv : IsToken v := by
        apply isToken_of_mem_tokens (t := s)
        rw [hs]
        exact mem_append_left _ (mem_of_mem_take (i := k) (by simp [htake]))
      have hlast : (joinEnd (line.take k)).getLast? = v.getLast? := by
        rw [← hbody, htake, flatten_append, flatten_singleton, getLast?_append_of_ne_nil _ hv.ne_nil]
      rcases hkind with hblank | ⟨d, hd, rfl⟩
      · obtain ⟨d, hd⟩ := isSome_iff_exists.mp (getLast?_isSome.mpr hv.ne_nil)
        have hnot : isBlank d = false := getLast?_trimEnd (hlast.trans hd)
        simp [hblank d (mem_of_getLast? hd)] at hnot
      · exact .behindSign hd hlast
    | atEnd _ hjoin hblank =>
      have hdrop : (line.drop k).flatten = [] := by
        obtain ⟨b, hline, hb⟩ := joinEnd_append_blanks line
        have hparts : line.flatten = joinEnd line ++ (line.drop k).flatten := by
          rw [← hjoin, ← hbody, ← flatten_append, take_append_drop]
        have hdropped : (line.drop k).flatten = b := append_cancel_left (hparts.symm.trans hline)
        -- white space would stand at the start of the rest
        rw [flatten_append, hdropped] at hrest
        cases b with
        | nil => exact hdropped
        | cons c b =>
          have hc := hhead c (by rw [nil_append] at hrest; rw [← hrest]; rfl)
          simp [hb c mem_cons_self] at hc
      have hline : line.flatten = joinEnd (line.take k) := by
        rw [← take_append_drop k line, flatten_append, hdrop, append_nil, take_append_drop, hbody]
      rw [hline] at hfull
      refine .full (hjoin ▸ hblank) ⟨us, ?_⟩ hline hfull
      rw [hs, append_assoc, singleton_append]
  · exact .atGap hgap

theorem CutsAt.take_ne_nil (h : CutsAt line k) : line.take k ≠ [] := by
  cases h with
  | behind htake _ => simp [htake]
  | atEnd htake _ _ => exact htake

theorem joinEnd_ne_nil (ht : IsWord t) (ts : List Text) : joinEnd (t :: ts) ≠ [] := by
  intro hnil
  obtain ⟨b, hline, hb⟩ := joinEnd_append_blanks (t :: ts)
  obtain ⟨c, t, rfl⟩ := exists_cons_of_ne_nil ht.ne_nil
  rw [hnil, nil_append, flatten_cons] at hline
  have hc : isBlank c = true := hb c (by simp [← hline])
  simp [ht.not_blank c mem_cons_self] at hc

section

theorem isToken_of_fit (hs : tokens s = t :: ts) : ∀ u ∈ t :: (fit measure t ts).1, IsToken u := by
  intro u hu
  apply isToken_of_mem_tokens (t := s)
  rw [hs, ← fit_append measure t ts, ← cons_append]
  exact mem_append_left _ hu

/-- The last line: all tokens fit, so that nothing is left but white space. -/
theorem lineCut_last (hhead : ∀ c, s.head? = some c → isBlank c = false) (hs : tokens s = t :: ts)
    (ht : IsWord t) (hrest : (fit measure t ts).2 = []) :
    ∃ b, Blanks b ∧ LineCut measure s (joinEnd (t :: ts)) b [] := by
  have hsingle : tokens t = [t] := tokens_of_mem_tokens (t := s) (by simp [hs])
  obtain ⟨b, hline, hb⟩ := joinEnd_append_blanks (t :: ts)
  have hgap : IsGap measure (joinEnd (t :: ts)) [] [] := isGap_nil measure _ nofun
  refine ⟨b, hb, hhead, ?_, joinEnd_ne_nil ht ts, fun c => getLast?_trimEnd, ?_, ?_, .ended rfl⟩
  · rw [append_nil, ← hline, ← hs, flatten_tokens]
  · exact joinEnd_fits hsingle (isToken_of_fit hs) (by rw [fst_fit_of_snd_eq_nil hrest]) (joinEnd_ne_nil ht ts)
  · have hblanks := hgap.blanks_append hb
    rwa [append_nil] at hblanks

/-- A full line: what stands behind its break goes to the rest, but for the signs that are hung on.
-/
theorem lineCut_full (m : Manner)
    (hhead : ∀ c, s.head? = some c → isBlank c = false) (hs : tokens s = t :: ts) (ht : IsWord t)
    (hline : t :: (fit measure t ts).1 = line) (hrest : (fit measure t ts).2 = u :: us) {l r : Text}
    (hhang : hang measure (joinEnd (line.take (cut measure m line)))
      (line.drop (cut measure m line) ++ u :: us).flatten = (l, r)) :
    ∃ body gap, l = body ++ withoutBlanks gap ∧ LineCut measure s body gap r := by
  have hall : ∀ u ∈ line, IsToken u := hline ▸ isToken_of_fit hs
  have hcut := cutsAt_cut measure m (hline ▸ joinEnd_ne_nil ht _) hall
  generalize cut measure m line = k at hcut hhang
  have htokens : tokens s = line ++ u :: us := by
    rw [hs, ← hline, ← hrest, cons_append, fit_append]
  have hsingle : tokens t = [t] := tokens_of_mem_tokens (t := s) (by simp [hs])
  have hfull : lineLimit < width measure (line.flatten ++ u) := by
    rw [← hline, flatten_cons]
    exact lt_width_of_fit hrest
  have hne : joinEnd (line.take k) ≠ [] := by
    obtain ⟨v, x, hx⟩ := exists_cons_of_ne_nil hcut.take_ne_nil
    have htake := take_prefix k line
    rw [hx, ← hline] at htake
    rw [hx, (cons_prefix_cons.mp htake).1]
    exact joinEnd_ne_nil ht x
  obtain ⟨b, hbody, hb⟩ := joinEnd_append_blanks (line.take k)
  obtain ⟨gap, hleft, hshown, hgap⟩ := hang_isGap measure (joinEnd (line.take k)) (line.drop k ++ u :: us).flatten
  rw [hhang] at hleft hshown hgap
  refine ⟨joinEnd (line.take k), b ++ gap, ?_, hhead, ?_, hne, fun c => getLast?_trimEnd, ?_, hgap.blanks_append hb, ?_⟩
  · rwa [withoutBlanks_append, withoutBlanks_of_blanks hb]
  · calc s = (line.take k ++ (line.drop k ++ u :: us)).flatten := by
          rw [← append_assoc, take_append_drop, ← htokens, flatten_tokens]
      _ = joinEnd (line.take k) ++ (b ++ gap ++ r) := by
          rw [flatten_append, hbody, hleft, append_assoc, append_assoc]
  · exact joinEnd_fits hsingle (isToken_of_fit hs) (hline ▸ take_prefix k line) hne
  · exact hcut.broken htokens hfull hbody hleft hgap.head_rest

end

/-- **A line is taken off a text by a cut.** -/
theorem nextLine_lineCut (measure : Text → Int) (m : Manner) (hs : s ≠ [])
    (hhead : ∀ c, s.head? = some c → isBlank c = false) :
    ∃ body gap rest, nextLine measure m (tokens s) = (body ++ withoutBlanks gap, tokens rest) ∧
      LineCut measure s body gap rest := by
  obtain ⟨t, ts, htokens, ht⟩ := exists_first_token hs hhead
  have htrim : trimStart t = t := trimStart_eq_self fun c hc => ht.not_blank c (mem_of_head? hc)
  rw [htokens, nextLine, htrim]
  cases hrest : (fit measure t ts).2 with
  | nil =>
    obtain ⟨b, hb, hcut⟩ := lineCut_last hhead htokens ht hrest
    refine ⟨joinEnd (t :: ts), b, [], ?_, hcut⟩
    simp [hrest, fst_fit_of_snd_eq_nil hrest, withoutBlanks_of_blanks hb, tokens_nil]
  | cons u us =>
    generalize hline : t :: (fit measure t ts).1 = line
    generalize hhang : hang measure (joinEnd (line.take (cut measure m line)))
      (line.drop (cut measure m line) ++ u :: us).flatten = h
    obtain ⟨body, gap, hl, hcut⟩ := lineCut_full m hhead htokens ht hline hrest hhang
    refine ⟨body, gap, h.2, ?_, hcut⟩
    simp only [hrest, hline, hhang, isEmpty_cons, false_eq_true, if_false, hl]

/-! ### All lines -/

/-- The lines are taken off the text one after another, and the rest is left. -/
inductive Laid (measure : Text → Int) : Text → List Text → Text → Prop
  | nil (s : Text) : Laid measure s [] s
  | cons {s body gap rest left : Text} {ls : List Text} :
      LineCut measure s body gap rest → Laid measure rest ls left →
        Laid measure s ((body ++ withoutBlanks gap) :: ls) left

theorem fillLines_laid (measure : Text → Int) (m : Manner) (n : Nat) (hhead : ∀ c, s.head? = some c → isBlank c = false) :
    ∃ left, (fillLines measure m n (tokens s)).2 = tokens left ∧
      Laid measure s (fillLines measure m n (tokens s)).1 left ∧ (fillLines measure m n (tokens s)).1.length ≤ n := by
  induction n generalizing s with
  | zero => exact ⟨s, by rw [fillLines], by rw [fillLines]; exact .nil s, by rw [fillLines]; exact le_rfl⟩
  | succ n ih =>
    by_cases hs : s = []
    · rw [hs, tokens_nil, fillLines]
      · exact ⟨[], rfl, .nil [], Nat.zero_le _⟩
      · simp
    · obtain ⟨body, gap, rest, hnext, hcut⟩ := nextLine_lineCut measure m hs hhead
      obtain ⟨t, ts, htokens, -⟩ := exists_first_token hs hhead
      obtain ⟨left, hleft, hlaid, hlen⟩ := ih hcut.isGap.head_rest
      rw [htokens] at hnext ⊢
      rw [fillLines, hnext]
      exact ⟨left, hleft, .cons hcut hlaid, Nat.succ_le_succ hlen⟩

end Localizer.Dialogue
