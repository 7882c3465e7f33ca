import Localizer.Proofs.Text.Cut
import Localizer.Text.Numeral

/-!
# Numerals and words

A number that is written in decimal, or in upper-case hexadecimal with a fixed width, is read as the
same number. Both go by the digits of the number: `foldl_toDigits` says what reading digits from
left to right gives, for any base and any way to read a single digit.
-/

namespace Localizer.Text

open List Option Nat

variable {base n : Nat} {c : Char} {t : Text} {m : Nat} (width : Nat)

/-! ### Digits -/

theorem mem_toDigits (hb : 1 < base) (h : c ∈ toDigits base n) : ∃ d < base, c = digitChar d := by
  induction n using Nat.strongRecOn with
  | ind n ih =>
    rw [toDigits_eq_if hb] at h
    split at h
    · next hn => exact ⟨n, hn, mem_singleton.mp h⟩
    · rcases mem_append.mp h with h | h
      · exact ih (n / base) (div_lt_self (by omega) hb) h
      · exact ⟨n % base, mod_lt _ (by omega), mem_singleton.mp h⟩

theorem foldl_toDigits (hb : 1 < base) {v : Char → Nat} (hv : ∀ d < base, v (digitChar d) = d)
    (n : Nat) : (toDigits base n).foldl (fun m c => m * base + v c) 0 = n := by
  induction n using Nat.strongRecOn with
  | ind n ih =>
    rw [toDigits_eq_if hb]
    split
    · next hn => simp [hv n hn]
    · rw [foldl_append, ih (n / base) (div_lt_self (by omega) hb), foldl_cons, foldl_nil,
        hv _ (mod_lt _ (by omega)), mul_comm, div_add_mod]

/-! ### Digits in any base -/

theorem digitsFrom?_cons (hc : c ≠ '_') :
    digitsFrom? base n (c :: t) =
      (digitBelow? base c).bind fun d => digitsFrom? base (n * base + d) t := by
  rw [digitsFrom?]
  · rfl
  · rintro d t rfl
    exact absurd rfl hc

theorem digitsFrom?_of_forall (h : ∀ c ∈ t, c ≠ '_' ∧ (digitBelow? base c).isSome = true) (n : Nat) :
    digitsFrom? base n t = some (t.foldl (fun m c => m * base + (digitBelow? base c).getD 0) n) := by
  induction t generalizing n with
  | nil => rfl
  | cons c t ih =>
    obtain ⟨hc, hdigit⟩ := h c mem_cons_self
    obtain ⟨d, hd⟩ := isSome_iff_exists.mp hdigit
    rw [digitsFrom?_cons hc, foldl_cons, hd]
    exact ih (fun c hc => h c (mem_cons_of_mem _ hc)) _

theorem digits?_eq_digitsFrom? (hne : t ≠ []) (h : '_' ∉ t) :
    digits? base t = digitsFrom? base 0 t := by
  obtain ⟨c, t, rfl⟩ := exists_cons_of_ne_nil hne
  rw [digitsFrom?_cons fun hc => h (hc ▸ mem_cons_self)]
  simp [digits?]

theorem digits?_of_forall (hne : t ≠ []) (h : ∀ c ∈ t, c ≠ '_' ∧ (digitBelow? base c).isSome = true) :
    digits? base t = some (t.foldl (fun m c => m * base + (digitBelow? base c).getD 0) 0) := by
  rw [digits?_eq_digitsFrom? hne fun hmem => (h _ hmem).1 rfl, digitsFrom?_of_forall h]

theorem isSome_digitsFrom?_iff (h : '_' ∉ t) (n : Nat) :
    (digitsFrom? base n t).isSome = true ↔ ∀ c ∈ t, (digitBelow? base c).isSome = true := by
  induction t generalizing n with
  | nil => simp [digitsFrom?]
  | cons c t ih =>
    rw [mem_cons, not_or] at h
    rw [digitsFrom?_cons (Ne.symm h.1), forall_mem_cons]
    cases digitBelow? base c with
    | none => simp
    | some d => simpa using ih h.2 _

/-! ### Hexadecimal -/

theorem hexValue?_upperHexDigit :
    ∀ d < 16, hexValue? (upperHexDigit (digitChar d)) = some d := by decide

theorem mem_upperHex {width : Nat} (h : c ∈ upperHex width n) :
    ∃ d < 16, c = upperHexDigit (digitChar d) := by
  rw [upperHex, padLeft, mem_append] at h
  rcases h with h | h
  · exact ⟨0, by omega, (mem_replicate.mp h).2⟩
  · obtain ⟨c, hc, rfl⟩ := mem_map.mp h
    obtain ⟨d, hd, rfl⟩ := mem_toDigits (by omega) hc
    exact ⟨d, hd, rfl⟩

theorem forall_mem_upperHex {P : Char → Prop} (hP : ∀ d < 16, P (upperHexDigit (digitChar d)))
    {width : Nat} : ∀ c ∈ upperHex width n, P c := by
  intro c hc
  obtain ⟨d, hd, rfl⟩ := mem_upperHex hc
  exact hP d hd

theorem upperHex_ne_nil (n : Nat) : upperHex width n ≠ [] := by
  intro h
  have := map_eq_nil_iff.mp (append_eq_nil_iff.mp h).2
  exact toDigits_ne_nil this

theorem hexNumber_upperHex (n : Nat) : hexNumber (upperHex width n) = n := by
  have hpad : ∀ k, (replicate k '0').foldl (fun n c => n * 16 + (hexValue? c).getD 0) 0 = 0 := by
    intro k
    induction k with
    | zero => rfl
    | succ k ih => rw [replicate_succ, foldl_cons]; exact ih
  rw [hexNumber, upperHex, padLeft, foldl_append, hpad, foldl_map]
  exact foldl_toDigits (by omega) (v := fun c => (hexValue? (upperHexDigit c)).getD 0)
    (fun d hd => by rw [hexValue?_upperHexDigit d hd]; rfl) n

theorem digitBelow?_upperHexDigit :
    ∀ d < 16, digitBelow? 16 (upperHexDigit (digitChar d)) = some d := by decide

theorem digits?_upperHex (n : Nat) : digits? 16 (upperHex width n) = some n := by
  have hall : ∀ c ∈ upperHex width n, c ≠ '_' ∧ (digitBelow? 16 c).isSome = true := by
    have hne : ∀ d < 16, upperHexDigit (digitChar d) ≠ '_' := by decide
    exact forall_mem_upperHex fun d hd => ⟨hne d hd, by rw [digitBelow?_upperHexDigit d hd]; rfl⟩
  have hsame : ∀ c ∈ upperHex width n, digitBelow? 16 c = hexValue? c :=
    forall_mem_upperHex fun d hd => by rw [digitBelow?_upperHexDigit d hd, hexValue?_upperHexDigit d hd]
  rw [digits?_of_forall (upperHex_ne_nil width n) hall]
  refine congrArg some (Eq.trans ?_ (hexNumber_upperHex width n))
  exact foldl_ext _ _ _ fun m c hc => by rw [hsame c hc]

/-! ### Decimal -/

theorem digitBelow?_digitChar : ∀ d < 10, digitBelow? 10 (digitChar d) = some d := by decide

theorem digits?_decimal (n : Nat) : digits? 10 (decimal n) = some n := by
  have hv : ∀ d < 10, (digitBelow? 10 (digitChar d)).getD 0 = d := fun d hd => by
    rw [digitBelow?_digitChar d hd]
    rfl
  have hne : ∀ d < 10, digitChar d ≠ '_' := by decide
  have hall : ∀ c ∈ decimal n, c ≠ '_' ∧ (digitBelow? 10 c).isSome = true := by
    intro c hc
    obtain ⟨d, hd, rfl⟩ := mem_toDigits (by omega) hc
    exact ⟨hne d hd, by rw [digitBelow?_digitChar d hd]; rfl⟩
  have hnil : decimal n ≠ [] := toDigits_ne_nil
  rw [digits?_of_forall hnil hall]
  exact congrArg some (foldl_toDigits (by omega) hv n)

theorem decimal_injective : Function.Injective decimal := by
  intro a b h
  have hdigits : some a = some b := by rw [← digits?_decimal a, ← digits?_decimal b, h]
  exact some.inj hdigits

theorem eq_decimal_of_append {d e : Text} (hd : d ≠ []) (h : decimal n = d ++ e) :
    d = decimal (n / 10 ^ e.length) := by
  induction e using reverseRecOn generalizing n with
  | nil => rw [length_nil, Nat.pow_zero, Nat.div_one, h, append_nil]
  | append_singleton e c ih =>
    rw [decimal, toDigits_eq_if (by decide), ← append_assoc] at h
    split at h
    · have hlength := congrArg length h
      have hpos := length_pos_iff.mpr hd
      simp only [length_append, length_singleton] at hlength
      omega
    · rw [ih (append_inj' h rfl).1, length_append, length_singleton, Nat.pow_succ', Nat.div_div_eq_div_mul]

theorem ne_zero_cons_decimal : decimal n ≠ '0' :: decimal m := by
  intro h
  have hvalue : ∀ n, (decimal n).foldl (fun m c => m * 10 + (c.toNat - 48)) 0 = n := foldl_toDigits (by decide) (by decide)
  have heq : n = m := calc
    n = (decimal n).foldl (fun m c => m * 10 + (c.toNat - 48)) 0 := (hvalue n).symm
    _ = (decimal m).foldl (fun m c => m * 10 + (c.toNat - 48)) 0 := by rw [h]; rfl
    _ = m := hvalue m
  have := congrArg length h
  simp [heq] at this

theorem trimNumeral_eq_self (h : ∀ c ∈ t, isNumeralBlank c = false) : trimNumeral t = t := by
  have hstart : t.dropWhile isNumeralBlank = t := by
    cases t with
    | nil => rfl
    | cons c t => simp [h c mem_cons_self]
  rw [trimNumeral, stripWhile, hstart]
  exact dropEndWhile_eq_self fun c hc => h c (mem_of_getLast? hc)

theorem signed?_of_plain {magnitude? : Text → Option Nat}
    (h : ∀ c ∈ t, isNumeralBlank c = false ∧ c ≠ '-' ∧ c ≠ '+') :
    signed? magnitude? t = (magnitude? t).map Int.ofNat := by
  rw [signed?, trimNumeral_eq_self fun c hc => (h c hc).1]
  split
  · exact absurd rfl (h '-' mem_cons_self).2.1
  · exact absurd rfl (h '+' mem_cons_self).2.2
  · rfl

/-- **A hexadecimal number with its mark is read as it was written.** -/
theorem readHex?_upperHex (n : Nat) : readHex? ('0' :: 'x' :: upperHex width n) = some (n : Int) := by
  have hplain : ∀ c ∈ '0' :: 'x' :: upperHex width n, isNumeralBlank c = false ∧ c ≠ '-' ∧ c ≠ '+' := by
    rw [forall_mem_cons, forall_mem_cons]
    exact ⟨by decide, by decide, forall_mem_upperHex (by decide)⟩
  have hhead : (upperHex width n).head? ≠ some '_' := by
    have hdigit : ∀ d < 16, upperHexDigit (digitChar d) ≠ '_' := by decide
    exact fun h => forall_mem_upperHex (P := (· ≠ '_')) hdigit '_' (mem_of_head? h) rfl
  have hmark : afterMark? 'x' 'X' ('0' :: 'x' :: upperHex width n) = some (upperHex width n) := by
    rw [afterMark?, if_pos (by decide), if_neg hhead]
  rw [readHex?, signed?_of_plain hplain, hmark, getD_some, digits?_upperHex]
  rfl

theorem of_mem_decimal (h : c ∈ decimal n) :
    isBlank c = false ∧ isNumeralBlank c = false ∧ c ≠ '-' ∧ c ≠ '+' := by
  have hchar : ∀ d < 10, isBlank (digitChar d) = false ∧ isNumeralBlank (digitChar d) = false ∧
      digitChar d ≠ '-' ∧ digitChar d ≠ '+' := by
    decide
  obtain ⟨d, hd, rfl⟩ := mem_toDigits (by omega) h
  exact hchar d hd

theorem readDecimal?_eq (n : Nat) :
    readDecimal? (decimal n) = (decimals? (decimal n)).map Int.ofNat :=
  signed?_of_plain fun _ hc => (of_mem_decimal hc).2

/-- **A number that is not too long is read as it was written.** -/
theorem readDecimal?_decimal (h : (decimal n).length ≤ maxDecimalDigits) :
    readDecimal? (decimal n) = some (n : Int) := by
  have hfilter : ((decimal n).filter (· ≠ '_')).length ≤ maxDecimalDigits :=
    le_trans (length_filter_le _ _) h
  rw [readDecimal?_eq, decimals?, if_pos hfilter, digits?_decimal]
  rfl

theorem toNat_of_range {lo hi : Char} (h : (lo ≤ c && c ≤ hi) = true) :
    lo.toNat ≤ c.toNat ∧ c.toNat ≤ hi.toNat := by
  rwa [Bool.and_eq_true, decide_eq_true_eq, decide_eq_true_eq] at h

theorem isSome_digitBelow?_ten (c : Char) : (digitBelow? 10 c).isSome = isDecimal c := by
  rw [digitBelow?, digitValue?, isDecimal]
  cases hd : decimalValue? c with
  | some d =>
    obtain ⟨z, hz, rfl⟩ := map_eq_some_iff.mp hd
    have hrange := find?_some hz
    simp only [Bool.and_eq_true, decide_eq_true_eq] at hrange
    simp [filter_some, show c.toNat - z < 10 by omega]
  | none =>
    dsimp only
    split
    · next h =>
      have hlo : 97 ≤ c.toNat := (toNat_of_range h).1
      simp [filter_some, show ¬ c.toNat - 87 < 10 by omega]
    split
    · next h =>
      have hlo : 65 ≤ c.toNat := (toNat_of_range h).1
      simp [filter_some, show ¬ c.toNat - 55 < 10 by omega]
    · rfl

/-- **Which digits are read as a decimal number.** -/
theorem isSome_decimals?_iff (hne : t ≠ []) (h : '_' ∉ t) :
    (decimals? t).isSome = true ↔ (∀ c ∈ t, isDecimal c = true) ∧ t.length ≤ maxDecimalDigits := by
  have hfilter : t.filter (· ≠ '_') = t := filter_eq_self.mpr fun c hc => decide_eq_true fun hu => h (hu ▸ hc)
  rw [decimals?, hfilter]
  split
  · next hle =>
    rw [digits?_eq_digitsFrom? hne h, isSome_digitsFrom?_iff h, and_iff_left hle]
    simp only [isSome_digitBelow?_ten]
  · next hle => simp [hle]

theorem eq_of_decimals?_decimal (h : decimals? (decimal n) = some m) : m = n := by
  unfold decimals? at h
  split at h
  · exact some.inj (h.symm.trans (digits?_decimal n))
  · cases h

theorem of_mem_decimalInt {n : Int} (h : c ∈ decimalInt n) :
    isBlank c = false ∧ isNumeralBlank c = false := by
  cases n with
  | ofNat n => exact ⟨(of_mem_decimal h).1, (of_mem_decimal h).2.1⟩
  | negSucc n =>
    rcases mem_cons.mp h with rfl | h
    · decide
    · exact ⟨(of_mem_decimal h).1, (of_mem_decimal h).2.1⟩

theorem eq_of_readDecimal?_decimalInt {n m : Int} (h : readDecimal? (decimalInt n) = some m) :
    m = n := by
  cases n with
  | ofNat n =>
    rw [decimalInt, readDecimal?_eq] at h
    obtain ⟨k, hk, rfl⟩ := map_eq_some_iff.mp h
    rw [eq_of_decimals?_decimal hk]
  | negSucc n =>
    rw [readDecimal?, signed?, trimNumeral_eq_self fun c hc => (of_mem_decimalInt hc).2] at h
    obtain ⟨_, hcast, rfl⟩ := map_eq_some_iff.mp h
    obtain ⟨k, hk, hcast⟩ := bind_eq_some_iff.mp hcast
    rw [← some.inj hcast, eq_of_decimals?_decimal hk]
    rfl

/-! ## The words of a text

`Spells ws t` says how words stand in a text: in their order, each with white space or an end on
both sides. A text spells one row of words only, and `words` finds it. White space is never part of
a word in the other sense either: no blank character is a word character. -/

variable {w lead rest s : Text} {ws : List Text} {lo hi : Nat}

def Blanks (t : Text) : Prop := ∀ c ∈ t, isBlank c = true

/-- A text that is not empty and has no white space in it. -/
structure IsWord (w : Text) : Prop where
  ne_nil : w ≠ []
  not_blank : ∀ c ∈ w, isBlank c = false

theorem blanks_nil : Blanks [] := nofun

/-- A text that does not continue a word that ends before it. -/
def BreaksOff (t : Text) : Prop := ∀ c, t.head? = some c → isBlank c = true

theorem Blanks.breaksOff (h : Blanks t) : BreaksOff t := fun c hc => h c (mem_of_head? hc)

theorem Blanks.trim_eq_nil (h : Blanks t) : trim t = [] := trim_eq_nil_iff.mpr h

/-- The text consists of the words, with white space before, between and after them. -/
inductive Spells : List Text → Text → Prop
  | nil {t : Text} : Blanks t → Spells [] t
  | cons {lead w rest : Text} {ws : List Text} :
      Blanks lead → IsWord w → BreaksOff rest → Spells ws rest → Spells (w :: ws) (lead ++ (w ++ rest))

/-! ### Reading words -/

/-- The pieces between blank characters, some of them empty. -/
def pieces (t : Text) : List Text :=
  t.foldr (fun c ps => if isBlank c then [] :: ps else
    match ps with
    | [] => [[c]]
    | p :: ps => (c :: p) :: ps) [[]]

theorem words_eq_filter (t : Text) : words t = (pieces t).filter fun p => !p.isEmpty := rfl

theorem pieces_cons_blank (hc : isBlank c = true) : pieces (c :: t) = [] :: pieces t := by
  rw [pieces, foldr_cons, if_pos hc]
  rfl

theorem pieces_append {ps : List Text} (hw : ∀ c ∈ w, isBlank c = false) (ht : pieces t = [] :: ps) :
    pieces (w ++ t) = w :: ps := by
  induction w with
  | nil => exact ht
  | cons c w ih =>
    have hrest : pieces (w ++ t) = w :: ps := ih fun d hd => hw d (mem_cons_of_mem _ hd)
    unfold pieces at hrest ⊢
    rw [cons_append, foldr_cons, hrest, hw c mem_cons_self]
    rfl

theorem words_append_of_blanks (h : Blanks lead) (t : Text) : words (lead ++ t) = words t := by
  induction lead with
  | nil => rfl
  | cons c lead ih =>
    rw [← ih fun d hd => h d (mem_cons_of_mem _ hd), words_eq_filter, cons_append,
      pieces_cons_blank (h c mem_cons_self)]
    rfl

theorem words_append (hw : IsWord w) (hrest : BreaksOff rest) :
    words (w ++ rest) = w :: words rest := by
  obtain ⟨ps, hps⟩ : ∃ ps, pieces rest = [] :: ps := by
    cases rest with
    | nil => exact ⟨[], rfl⟩
    | cons c rest => exact ⟨pieces rest, pieces_cons_blank (hrest c rfl)⟩
  rw [words_eq_filter, words_eq_filter, pieces_append hw.not_blank hps, hps,
    filter_cons_of_pos (by simpa using hw.ne_nil)]
  rfl

theorem words_of_spells (h : Spells ws t) : words t = ws := by
  induction h with
  | @nil t ht =>
    have hwords := words_append_of_blanks ht []
    rwa [append_nil] at hwords
  | cons hlead hw hrest _ ih => rw [words_append_of_blanks hlead, words_append hw hrest, ih]

theorem Spells.blank_cons (hc : isBlank c = true) (h : Spells ws t) : Spells ws (c :: t) := by
  have hcons : ∀ {s : Text}, Blanks s → Blanks (c :: s) := fun hs => forall_mem_cons.mpr ⟨hc, hs⟩
  cases h with
  | nil ht => exact .nil (hcons ht)
  | cons hlead hw hrest hws => exact .cons (hcons hlead) hw hrest hws

theorem Spells.char_cons (hc : isBlank c = false) (h : Spells ws t) :
    Spells ([c] :: ws) (c :: t) ∨ ∃ w us, ws = w :: us ∧ Spells ((c :: w) :: us) (c :: t) := by
  have hword : ∀ {w : Text}, (∀ d ∈ w, isBlank d = false) → IsWord (c :: w) := fun hw =>
    ⟨cons_ne_nil _ _, forall_mem_cons.mpr ⟨hc, hw⟩⟩
  by_cases ht : BreaksOff t
  · exact .inl (.cons blanks_nil (hword nofun) ht h)
  · cases h with
    | nil hblanks => exact absurd hblanks.breaksOff ht
    | @cons lead w rest ws hlead hw hrest hws =>
      cases lead with
      | nil => exact .inr ⟨w, ws, rfl, .cons blanks_nil (hword hw.not_blank) hrest hws⟩
      | cons d lead => exact absurd (fun e he => Option.some.inj he ▸ hlead d mem_cons_self) ht

theorem exists_spells (t : Text) : ∃ ws, Spells ws t := by
  induction t with
  | nil => exact ⟨[], .nil blanks_nil⟩
  | cons c t ih =>
    obtain ⟨ws, h⟩ := ih
    cases hc : isBlank c with
    | true => exact ⟨ws, h.blank_cons hc⟩
    | false => rcases h.char_cons hc with h | ⟨w, us, -, h⟩ <;> exact ⟨_, h⟩

/-- **A text has the words that it spells.** -/
theorem words_eq_iff : words t = ws ↔ Spells ws t := by
  refine ⟨fun h => ?_, words_of_spells⟩
  obtain ⟨ws', hws'⟩ := exists_spells t
  rwa [← h, words_of_spells hws']

/-! ### The first word -/

theorem trimStart_blanks_append (h : Blanks lead) (t : Text) : trimStart (lead ++ t) = trimStart t :=
  dropWhile_append_of_pos h

theorem trimStart_append (hlead : Blanks lead) (hw : IsWord w) :
    trimStart (lead ++ (w ++ rest)) = w ++ rest := by
  rw [trimStart_blanks_append hlead, trimStart_word_append hw.not_blank hw.ne_nil]

theorem firstWord_eq (hlead : Blanks lead) (hw : IsWord w) (hrest : BreaksOff rest) :
    firstWord (lead ++ (w ++ rest)) = w := by
  rw [firstWord, trimStart_blanks_append hlead]
  exact firstWord_append hw.not_blank hw.ne_nil hrest

/-- The first word of a text, and what stands behind it. -/
theorem Spells.first (h : Spells (w :: ws) t) :
    ∃ rest, trimStart t = w ++ rest ∧ Spells ws rest ∧ firstWord t = w := by
  cases h with
  | cons hlead hw hrest hws => exact ⟨_, trimStart_append hlead hw, hws, firstWord_eq hlead hw hrest⟩

theorem Spells.trim_eq (h : Spells [w] t) : trim t = w := by
  cases h with
  | cons hlead hw _ hrest =>
    cases hrest with
    | nil hblanks =>
      rw [trim, trimStart_append hlead hw, trimEnd, dropEndWhile_append_of_forall hblanks]
      exact trimEnd_eq_self fun c hc => hw.not_blank c (mem_of_getLast? hc)

theorem firstWord_of_blanks (h : Blanks t) : firstWord t = [] := by
  rw [firstWord, trimStart, dropWhile_eq_nil_iff.mpr h]
  rfl

theorem firstWord_append_blanks (hs : Blanks s) : firstWord (t ++ s) = firstWord t := by
  obtain ⟨ws, h⟩ := exists_spells t
  cases h with
  | nil ht =>
    have happend : Blanks (t ++ s) := fun c hc => (mem_append.mp hc).elim (ht c) (hs c)
    rw [firstWord_of_blanks ht, firstWord_of_blanks happend]
  | @cons lead w rest ws hlead hw hrest _ =>
    have happend : BreaksOff (rest ++ s) := by
      cases rest with
      | nil => exact hs.breaksOff
      | cons c rest => exact hrest
    rw [append_assoc, append_assoc, firstWord_eq hlead hw happend, firstWord_eq hlead hw hrest]

theorem length_firstWord_le (t : Text) : (firstWord t).length ≤ t.length :=
  (takeWhile_sublist _).length_le.trans (dropWhile_sublist _).length_le

/-! ### Words of texts put together -/

theorem words_append_blank (hc : isBlank c = true) (t u : Text) :
    words (t ++ c :: u) = words t ++ words u := by
  have hblank : Blanks [c] := fun d hd => mem_singleton.mp hd ▸ hc
  obtain ⟨ws, hws⟩ := exists_spells t
  induction hws with
  | @nil t ht =>
    rw [words_of_spells (.nil ht), nil_append, words_append_of_blanks ht]
    exact words_append_of_blanks hblank u
  | @cons lead w rest ws hlead hw hrest _ ih =>
    have hbreak : BreaksOff (rest ++ c :: u) := by
      cases rest with
      | nil => exact hblank.breaksOff
      | cons d rest => exact hrest
    rw [append_assoc, append_assoc, words_append_of_blanks hlead, words_append_of_blanks hlead,
      words_append hw hbreak, words_append hw hrest, ih, cons_append]

theorem words_append_blanks (t : Text) (hs : Blanks s) : words (t ++ s) = words t := by
  cases s with
  | nil => rw [append_nil]
  | cons c s =>
    have hrest : Spells [] s := .nil fun d hd => hs d (mem_cons_of_mem c hd)
    rw [words_append_blank (hs c mem_cons_self), words_of_spells hrest, append_nil]

theorem words_trim (t : Text) : words (trim t) = words t := by
  obtain ⟨s, u, ht, hs, hu⟩ := exists_of_trim t
  conv_rhs => rw [ht]
  rw [words_append_blanks _ hu, words_append_of_blanks hs]

theorem words_eq_nil_iff : words t = [] ↔ Blanks t := by
  rw [words_eq_iff]
  refine ⟨fun h => ?_, .nil⟩
  cases h with
  | nil ht => exact ht

theorem length_words_le (t u : Text) : (words u).length ≤ (words (t ++ u)).length := by
  induction t with
  | nil => exact Nat.le_refl _
  | cons c t ih =>
    obtain ⟨ws, h⟩ := exists_spells (t ++ u)
    refine ih.trans ?_
    rw [cons_append, words_of_spells h]
    cases hc : isBlank c with
    | true => rw [words_of_spells (h.blank_cons hc)]
    | false => rcases h.char_cons hc with h' | ⟨w, us, rfl, h'⟩ <;> simp [words_of_spells h']

theorem trim_blanks_append (hs : Blanks s) (t : Text) : trim (s ++ t) = trim t := by
  rw [trim, trimStart_blanks_append hs, trim]

/-! ## Word characters -/

theorem isWordChar_of_mem (h : (lo, hi) ∈ wordChars.ranges) (hlo : lo ≤ c.toNat)
    (hhi : c.toNat ≤ hi) : isWordChar c = true := by
  unfold isWordChar CharSet.contains
  rw [Array.any_eq_true']
  exact ⟨(lo, hi), h, by simp [hlo, hhi]⟩

set_option maxRecDepth 20000 in
theorem take_wordChars :
    wordChars.ranges.toList.take 4 = [(0x30, 0x39), (0x41, 0x5A), (0x5F, 0x5F), (0x61, 0x7A)] := by
  rw [wordChars, CharSet.ofNotation, toList_eq_of_ofList rfl]
  decide +kernel

theorem isWordChar_of_basic (h : isBasicLetter c = true ∨ isBasicDigit c = true) :
    isWordChar c = true := by
  have hrange {lo hi : Nat} (hr : (lo, hi) ∈ wordChars.ranges.toList.take 4) (hc : lo ≤ c.toNat ∧ c.toNat ≤ hi) :
      isWordChar c = true :=
    isWordChar_of_mem (Array.mem_toList_iff.mp (mem_of_mem_take hr)) hc.1 hc.2
  rw [take_wordChars] at hrange
  simp only [isBasicLetter, isBasicDigit, Bool.or_eq_true, Bool.and_eq_true, decide_eq_true_eq] at h
  rcases h with (hlower | hupper) | hdigit
  · exact hrange (by decide) hlower
  · exact hrange (by decide) hupper
  · exact hrange (by decide) hdigit

/-- The code points of white space, as ranges with both ends included. -/
def blankRanges : List (Nat × Nat) :=
  [(0x09, 0x0D), (0x1C, 0x20), (0x85, 0x85), (0xA0, 0xA0), (0x1680, 0x1680), (0x2000, 0x200A), (0x2028, 0x2029),
    (0x202F, 0x202F), (0x205F, 0x205F), (0x3000, 0x3000)]

theorem exists_blankRange (h : isBlank c = true) :
    ∃ b ∈ blankRanges, b.1 ≤ c.toNat ∧ c.toNat ≤ b.2 := by
  simp only [isBlank, Bool.or_eq_true, Bool.and_eq_true, decide_eq_true_eq, beq_iff_eq] at h
  simp only [blankRanges, exists_mem_cons_iff]
  omega

theorem not_blank_of_range (hranges : ∀ b ∈ blankRanges, b.2 < lo ∨ hi < b.1) (hlo : lo ≤ c.toNat)
    (hhi : c.toNat ≤ hi) : isBlank c = false := by
  rw [← Bool.not_eq_true]
  intro hblank
  obtain ⟨b, hb, hfirst, hlast⟩ := exists_blankRange hblank
  have hb' := hranges b hb
  omega

theorem not_blank_of_isDecimal (h : isDecimal c = true) : isBlank c = false := by
  rw [isDecimal, decimalValue?, Option.isSome_map, find?_isSome] at h
  obtain ⟨z, hz, hc⟩ := h
  rw [Bool.and_eq_true, decide_eq_true_eq, decide_eq_true_eq] at hc
  have hranges : ∀ z ∈ zeroDigits, ∀ b ∈ blankRanges, b.2 < z ∨ z + 9 < b.1 := by decide
  exact not_blank_of_range (hranges z hz) hc.1 hc.2

theorem toNat_of_hexValue? (h : (hexValue? c).isSome = true) :
    48 ≤ c.toNat ∧ c.toNat ≤ 57 ∨ 97 ≤ c.toNat ∧ c.toNat ≤ 102 ∨ 65 ≤ c.toNat ∧ c.toNat ≤ 70 := by
  unfold hexValue? at h
  split at h
  · next hc => exact .inl (toNat_of_range hc)
  · split at h
    · next hc => exact .inr (.inl (toNat_of_range hc))
    · split at h
      · next hc => exact .inr (.inr (toNat_of_range hc))
      · cases h

theorem not_blank_of_hexValue? (h : (hexValue? c).isSome = true) : isBlank c = false := by
  have hc := toNat_of_hexValue? h
  have hranges : ∀ b ∈ blankRanges, b.2 < 48 ∨ 102 < b.1 := by decide
  exact not_blank_of_range hranges (by omega) (by omega)

theorem plain_of_digit (h : isDecimal c = true ∨ (hexValue? c).isSome = true) :
    c ≠ '_' ∧ isNumeralBlank c = false ∧ c ≠ '-' ∧ c ≠ '+' := by
  have hblank : isBlank c = false := h.elim not_blank_of_isDecimal not_blank_of_hexValue?
  refine ⟨?_, by rw [isNumeralBlank, hblank]; rfl, ?_, ?_⟩
  all_goals
    rintro rfl
    exact absurd h (by decide)

/-- **Which digits are read as a decimal numeral.** -/
theorem isSome_readDecimal?_iff (hne : t ≠ [])
    (h : ∀ c ∈ t, isDecimal c = true ∨ (hexValue? c).isSome = true) :
    (readDecimal? t).isSome = true ↔
      (∀ c ∈ t, isDecimal c = true) ∧ t.length ≤ maxDecimalDigits := by
  rw [readDecimal?, signed?_of_plain fun c hc => (plain_of_digit (h c hc)).2, Option.isSome_map,
    isSome_decimals?_iff hne fun hmem => (plain_of_digit (h _ hmem)).1 rfl]

theorem isSome_readDecimal?_sign (hc : c = '+' ∨ c = '-') (h : ∀ d ∈ t, isDecimal d = true) :
    (readDecimal? (c :: t)).isSome = (readDecimal? t).isSome := by
  have hplain : ∀ d ∈ t, isNumeralBlank d = false ∧ d ≠ '-' ∧ d ≠ '+' := fun d hd => (plain_of_digit (.inl (h d hd))).2
  have hblank : ∀ d ∈ c :: t, isNumeralBlank d = false :=
    forall_mem_cons.mpr ⟨by rcases hc with rfl | rfl <;> decide, fun d hd => (hplain d hd).1⟩
  rw [readDecimal?, readDecimal?, signed?_of_plain hplain, signed?, trimNumeral_eq_self hblank]
  rcases hc with rfl | rfl
  · simp
  · cases hvalue : decimals? t <;> simp [hvalue]

set_option maxRecDepth 20000 in
theorem blankRanges_disjoint_wordChars :
    wordChars.ranges.find? (fun r => blankRanges.any fun b => b.1.ble r.2 && r.1.ble b.2) = none := by
  rw [wordChars, CharSet.ofNotation, find?_toArray, toList_eq_of_ofList rfl]
  decide +kernel

/-- **No white space is a word character.** -/
theorem isWordChar_of_isBlank (h : isBlank c = true) : isWordChar c = false := by
  obtain ⟨b, hb, hlo, hhi⟩ := exists_blankRange h
  unfold isWordChar CharSet.contains
  rw [Array.any_eq_false']
  intro r hr hc
  have hdisjoint := Array.find?_eq_none.mp blankRanges_disjoint_wordChars r hr
  refine hdisjoint (any_eq_true.mpr ⟨b, hb, ?_⟩)
  simp only [Bool.and_eq_true, decide_eq_true_eq, Nat.ble_eq] at hc ⊢
  omega

end Localizer.Text
