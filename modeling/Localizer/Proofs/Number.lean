import Localizer.Number
import Localizer.Proofs.Decimal
import Localizer.Proofs.Fault

/-!
# Whole numbers as fractions

A whole number below `2^53` is held exactly by a fraction, so that nothing is lost on the way there
and back. Comparing a fraction with a whole number compares their exact values.
-/

namespace Localizer

variable {n : Int} {x : Float} {bits d : Nat} {v : ℚ}

namespace Decimal

open Float.Model Float.Model.UnpackedFloat Nat

/-! ### Bits -/

theorem toBits_ofBits {w : UInt64} (h : w.toNat / 2 ^ 52 % 2048 ≠ 2047) :
    (Float.ofBits w).toBits = w := by
  have hnan : @isNaNBits Format.binary64 w.toBitVec = false := by
    have hexponent : @unpackExponent Format.binary64 w.toBitVec ≠ -1#11 := fun heq =>
      h ((toNat_unpackExponent w).symm.trans (congrArg BitVec.toNat heq))
    exact decide_eq_false fun h => hexponent h.1
  have hpack := @pack_unpack Format.binary64 w.toBitVec
  rw [hnan] at hpack
  exact UInt64.toBitVec_inj.mp hpack

theorem value?_ofBits {e f : Nat} (he : e ≠ 0) (he' : e < 2047) (hf : f < 2 ^ 52)
    (hbits : bits = e * 2 ^ 52 + f) :
    value? (Float.ofBits (UInt64.ofNat bits)) =
      some (((f + 2 ^ 52 : Nat) : ℚ) * 2 ^ (e - 1075 : Int)) := by
  have hlt : bits < 2 ^ 63 := by omega
  have hnat : (UInt64.ofNat bits).toNat = bits := UInt64.toNat_ofNat_of_lt' (hlt.trans (by decide))
  have hexponent : bits / 2 ^ 52 % 2048 = e := by omega
  have hfraction : bits % 2 ^ 52 = f := by omega
  have hsign : bits / 2 ^ 63 = 0 := by omega
  have htoBits := toBits_ofBits (w := UInt64.ofNat bits) (by rw [hnat, hexponent]; omega)
  unfold value? Binary.ofFloat?
  rw [htoBits, hnat]
  dsimp only [pow_eq]
  rw [hexponent, hfraction, hsign, if_neg (by omega), if_neg he]
  simp [Binary.value, Binary.withSign]

/-! ### Quotients -/

theorem roundDiv_one (n : Nat) : roundDiv n 1 = n := by simp [roundDiv, mod_one]

/-- The leading bit of a number below `2^53` is moved to the place of the implicit one. -/
theorem shifted_bounds {n : Nat} (hn : 0 < n) (h : n < 2 ^ 53) :
    n.log2 ≤ 52 ∧ 2 ^ 52 ≤ n * 2 ^ (52 - n.log2) ∧ n * 2 ^ (52 - n.log2) < 2 ^ 53 := by
  have hlog : n.log2 ≤ 52 := le_of_lt_succ ((log2_lt hn.ne').mpr h)
  obtain ⟨hle, hlt⟩ := (log2_eq_iff hn.ne').mp rfl
  have hpow : 2 ^ n.log2 * 2 ^ (52 - n.log2) = 2 ^ 52 := by rw [← pow_add]; congr 1; omega
  refine ⟨hlog, hpow ▸ mul_le_mul_right _ hle, ?_⟩
  calc n * 2 ^ (52 - n.log2) < 2 ^ (n.log2 + 1) * 2 ^ (52 - n.log2) := Nat.mul_lt_mul_of_pos_right hlt (Nat.two_pow_pos _)
    _ = 2 ^ 53 := by rw [← pow_add]; congr 1; omega

theorem unitExponent_of_lt {n : Nat} (hn : 0 < n) (h : n < 2 ^ 53) :
    unitExponent n 1 = (n.log2 : Int) - 52 := by
  obtain ⟨hlog, hle, hlt⟩ := shifted_bounds hn h
  have hone : log2 1 = 0 := rfl
  have hlong : ¬if 0 ≤ (n.log2 : Int) - 52 then 2 ^ 53 * 2 ^ ((n.log2 : Int) - 52).toNat ≤ n
      else 2 ^ 53 ≤ n * 2 ^ (-((n.log2 : Int) - 52)).toNat := by
    split
    · exact fun hle => absurd (h.trans_le ((Nat.le_mul_of_pos_right _ (Nat.two_pow_pos _)).trans hle)) (lt_irrefl n)
    · rw [show (-((n.log2 : Int) - 52)).toNat = 52 - n.log2 by omega]
      omega
  have hshort : ¬if 0 ≤ (n.log2 : Int) - 52 then n < 2 ^ 52 * 2 ^ ((n.log2 : Int) - 52).toNat
      else n * 2 ^ (-((n.log2 : Int) - 52)).toNat < 2 ^ 52 := by
    split
    · rw [show ((n.log2 : Int) - 52).toNat = 0 by omega, pow_zero, mul_one, not_lt]
      rwa [show 52 - n.log2 = 0 by omega, pow_zero, mul_one] at hle
    · rw [show (-((n.log2 : Int) - 52)).toNat = 52 - n.log2 by omega]
      omega
  unfold unitExponent
  simp only [hone, pow_eq, one_mul, cast_zero, Int.sub_zero]
  rw [if_neg hlong, if_neg hshort]
  omega

/-- A whole number below `2^53` is held exactly. -/
theorem ofFraction?_of_lt {n : Nat} (hn : 0 < n) (h : n < 2 ^ 53) :
    ∃ x, ofFraction? n 1 = some x ∧ value? x = some (n : ℚ) := by
  obtain ⟨hlog, hle, hlt⟩ := shifted_bounds hn h
  set m := n * 2 ^ (52 - n.log2) with hm
  have hmantissa : (if 0 ≤ (n.log2 : Int) - 52 then roundDiv n (1 * Nat.pow 2 ((n.log2 : Int) - 52).toNat)
      else roundDiv (n * Nat.pow 2 (-((n.log2 : Int) - 52)).toNat) 1) = m := by
    split
    · have hlog : n.log2 = 52 := by omega
      simp [hm, hlog, roundDiv_one]
    · have hshift : (-((n.log2 : Int) - 52)).toNat = 52 - n.log2 := by omega
      rw [roundDiv_one, hshift, pow_eq]
  have hbits : ((n.log2 : Int) - 52 + 1074).toNat * Nat.pow 2 52 + m = (n.log2 + 1023) * 2 ^ 52 + (m - 2 ^ 52) := by
    rw [pow_eq]
    omega
  refine ⟨_, ?_, value?_ofBits (e := n.log2 + 1023) (f := m - 2 ^ 52) (by omega) (by omega) (by omega) hbits |>.trans ?_⟩
  · unfold ofFraction?
    rw [if_neg hn.ne', unitExponent_of_lt hn h]
    dsimp only
    rw [hmantissa, if_pos (by rw [hbits]; omega)]
  · have hpow : (2 : ℚ) ^ (52 - n.log2) * 2 ^ ((n.log2 + 1023 : Nat) - 1075 : Int) = 1 := by
      have hzero : ((52 - n.log2 : Nat) : Int) + ((n.log2 + 1023 : Nat) - 1075 : Int) = 0 := by omega
      rw [← zpow_natCast, ← zpow_add₀ two_ne_zero, hzero, zpow_zero]
    rw [Nat.sub_add_cancel hle, hm, Nat.cast_mul, Nat.cast_pow, Nat.cast_ofNat, mul_assoc, hpow, mul_one]

theorem value?_zero : value? 0 = some 0 := by
  rw [value?_eq]
  rfl

theorem value?_one : value? 1 = some 1 := by
  have hunpack : (1 : Float).toModel.unpack = .finite .positive (2 ^ 52) (-52) (Nat.two_pow_pos 52) := rfl
  rw [value?_eq, hunpack]
  refine congrArg some ?_
  norm_num [Sign.apply]

theorem mul_zpow_le_one {m k : Nat} {e : Int} (hm : m ≤ 2 ^ k) (he : k + e ≤ 0) :
    (m : ℚ) * 2 ^ e ≤ 1 := by
  have hcast : (m : ℚ) ≤ 2 ^ (k : Int) := by
    exact_mod_cast hm
  calc (m : ℚ) * 2 ^ e ≤ 2 ^ (k : Int) * 2 ^ e := by gcongr
    _ = 2 ^ (k + e) := (zpow_add₀ two_ne_zero _ _).symm
    _ ≤ 1 := zpow_le_one_of_nonpos₀ one_le_two he

theorem value?_ofBits_of_le (h : bits ≤ 1023 * 2 ^ 52) :
    ∃ v, value? (Float.ofBits (UInt64.ofNat bits)) = some v ∧ v ∈ Set.Icc (0 : ℚ) 1 := by
  have hnat : (UInt64.ofNat bits).toNat = bits := UInt64.toNat_ofNat_of_lt' (h.trans_lt (by decide))
  have htoBits := toBits_ofBits (w := UInt64.ofNat bits) (by rw [hnat]; omega)
  have hsign : bits / 2 ^ 63 = 0 := by omega
  unfold value? Binary.ofFloat?
  rw [htoBits, hnat]
  dsimp only [pow_eq]
  rw [if_neg (by omega), hsign]
  have hmem {m k : Nat} {e : Int} (hm : m ≤ 2 ^ k) (he : k + e ≤ 0) :
      Binary.value ⟨false, m, e⟩ ∈ Set.Icc (0 : ℚ) 1 := by
    change ((m : Int) : ℚ) * 2 ^ e ∈ Set.Icc (0 : ℚ) 1
    exact ⟨by positivity, mul_zpow_le_one hm he⟩
  split
  · exact ⟨_, rfl, hmem (k := 52) (by omega) (by omega)⟩
  · refine ⟨_, rfl, ?_⟩
    rcases lt_or_ge (bits / 2 ^ 52) 1023 with hlt | hge
    · exact hmem (k := 53) (by omega) (by omega)
    · exact hmem (k := 52) (by omega) (by omega)

theorem roundDiv_le {n q : Nat} (h : n ≤ q * d) : roundDiv n d ≤ q := by
  rcases Nat.eq_zero_or_pos d with rfl | hd
  · obtain rfl : n = 0 := by omega
    exact zero_le q
  have hdiv : n / d ≤ q := Nat.div_le_of_le_mul (by rwa [Nat.mul_comm])
  have hlt : n % d ≠ 0 → n / d < q := fun hmod => by
    rw [div_lt_iff_lt_mul hd]
    refine lt_of_le_of_ne h fun heq => hmod ?_
    rw [heq, mul_mod_left]
  unfold roundDiv
  dsimp only
  split
  · exact hdiv
  · split
    · omega
    · omega

/-- The last bit of a proper fraction is chosen so that at most 53 bits are left above it. -/
theorem unitExponent_of_le {n : Nat} (hn : 0 < n) (h : n ≤ d) :
    unitExponent n d ≤ -52 ∧ n * 2 ^ (-unitExponent n d).toNat ≤ 2 ^ 53 * d := by
  have hlog : n.log2 ≤ d.log2 := by
    rw [log2_eq_log_two, log2_eq_log_two]
    exact log_mono_right h
  set e : Int := (n.log2 : Int) - d.log2 - 52 with he
  have hupper : n * 2 ^ (-e).toNat < 2 ^ 53 * d := by
    calc n * 2 ^ (-e).toNat < 2 ^ (n.log2 + 1) * 2 ^ (-e).toNat :=
          Nat.mul_lt_mul_of_pos_right Nat.lt_log2_self (Nat.two_pow_pos _)
      _ = 2 ^ 53 * 2 ^ d.log2 := by
          rw [← pow_add, ← pow_add]
          congr 1
          omega
      _ ≤ 2 ^ 53 * d := mul_le_mul_left _ (log2_self_le (by omega))
  -- A smaller unit than the exact one is only taken where the quotient leaves room for it.
  have hscaled {k : Nat} (hk : k ≤ (-e).toNat) : n * 2 ^ k ≤ 2 ^ 53 * d :=
    (Nat.mul_le_mul_left _ (Nat.pow_le_pow_right (by decide) hk)).trans hupper.le
  have hneg : ¬0 ≤ e := by omega
  unfold unitExponent
  simp only [pow_eq, ← he, if_neg hneg]
  rw [if_neg (by omega)]
  split
  · refine ⟨by omega, ?_⟩
    rcases le_or_gt (-1074) (e - 1) with hle | hlt
    · rw [max_eq_right hle, show (-(e - 1)).toNat = (-e).toNat + 1 by omega, pow_succ, ← mul_assoc]
      omega
    · exact hscaled (by omega)
  · exact ⟨by omega, hscaled (by omega)⟩

theorem ofFraction?_of_le {n : Nat} (h : n ≤ d) :
    ∃ x v, ofFraction? n d = some x ∧ value? x = some v ∧ v ∈ Set.Icc (0 : ℚ) 1 := by
  unfold ofFraction?
  split
  · exact ⟨0, 0, rfl, value?_zero, le_rfl, zero_le_one⟩
  · next hn =>
    obtain ⟨hneg, hle⟩ := unitExponent_of_le (pos_of_ne_zero hn) h
    simp only [pow_eq]
    set e := unitExponent n d
    rw [if_neg (by omega : ¬0 ≤ e)]
    have hm : roundDiv (n * 2 ^ (-e).toNat) d ≤ 2 ^ 53 := roundDiv_le hle
    have hm' : roundDiv (n * 2 ^ (-e).toNat) d ≤ 2 ^ (-e).toNat := roundDiv_le (by rw [mul_comm]; gcongr)
    generalize roundDiv (n * 2 ^ (-e).toNat) d = m at hm hm' ⊢
    have hbits : (e + 1074).toNat * 2 ^ 52 + m ≤ 1023 * 2 ^ 52 := by
      obtain he | he | he : e = -52 ∨ e = -53 ∨ e ≤ -54 := by omega
      · rw [show (-e).toNat = 52 by omega] at hm'
        omega
      · omega
      · omega
    rw [if_pos (by omega)]
    obtain ⟨v, hv, hmem⟩ := value?_ofBits_of_le hbits
    exact ⟨_, v, rfl, hv, hmem⟩

theorem ofInt?_of_lt (h : n.natAbs < 2 ^ 53) :
    ∃ x, ofInt? n = some x ∧ value? x = some (n : ℚ) ∧ x.toModel.unpack ≠ .zero .negative := by
  by_cases hzero : n = 0
  · subst hzero
    exact ⟨0, rfl, by rw [Int.cast_zero, value?_zero], fun h => nomatch h⟩
  · obtain ⟨x, hx, hvalue⟩ := ofFraction?_of_lt (n := n.natAbs) (by omega) h
    have hvalue' : value? (if n < 0 then -x else x) = some (n : ℚ) := by
      split
      · rw [value?_neg hvalue]
        have : (n : ℚ) = -((n.natAbs : Int) : ℚ) := by rw [← Int.cast_neg]; congr 1; omega
        rw [this, Int.cast_natCast]
      · rw [hvalue]
        have : (n : ℚ) = ((n.natAbs : Int) : ℚ) := by congr 1; omega
        rw [this, Int.cast_natCast]
    refine ⟨_, by rw [ofInt?, quotient?, hx, Option.map_some], hvalue', fun hunpack => ?_⟩
    rw [value?_eq, hunpack] at hvalue'
    exact hzero (by exact_mod_cast (Option.some.inj hvalue').symm)

end Decimal

namespace Number

open Decimal

/-! ### There and back -/

theorem cut_of_value (h : value? x = some (n : ℚ)) : cut x = .ok n := by
  obtain ⟨b, hb, hvalue⟩ := Option.map_eq_some_iff.mp h
  rw [cut, trunc?, hb, Option.map_some, b.trunc_of_value hvalue]
  rfl

theorem rounded_of_value (h : value? x = some (n : ℚ)) : rounded x = .ok n := by
  obtain ⟨b, hb, hvalue⟩ := Option.map_eq_some_iff.mp h
  rw [rounded, round?, hb, Option.map_some, b.round_of_value hvalue]
  rfl

theorem exists_cut (h : value? x = some v) : (∃ n, cut x = .ok n) ∧ ∃ n, rounded x = .ok n := by
  obtain ⟨b, hb, -⟩ := Option.map_eq_some_iff.mp h
  rw [cut, rounded, trunc?, round?, hb]
  exact ⟨⟨_, rfl⟩, ⟨_, rfl⟩⟩

theorem cut_mem {t : Int} (h : cut x = .ok t) :
    ∃ v, value? x = some v ∧ ∀ lo hi : Nat, v ∈ Set.Icc (-(lo : ℚ)) hi →
      -(lo : Int) ≤ t ∧ t ≤ hi := by
  cases hb : Binary.ofFloat? x with
  | none =>
    rw [cut, trunc?, hb] at h
    cases h
  | some b =>
    rw [cut, trunc?, hb] at h
    cases h
    exact ⟨b.value, by rw [value?, hb, Option.map_some], fun _ _ => b.trunc_mem⟩

/-- A whole number below `2^53` is held exactly. -/
theorem fraction_of_lt (h : n.natAbs < 2 ^ 53) :
    ∃ x, fraction n = .ok x ∧ value? x = some (n : ℚ) ∧ x.toModel.unpack ≠ .zero .negative := by
  obtain ⟨x, hx, hvalue, hsign⟩ := ofInt?_of_lt h
  exact ⟨x, by rw [fraction, hx]; rfl, hvalue, hsign⟩

/-! ### Comparing -/

theorem whole_lt_real (h : value? x = some v) (n : Int) :
    (whole n).lt (real x) = true ↔ (n : ℚ) < v := by
  have hle := intLe_iff h n
  have hge := leInt_iff h n
  rw [lt, Bool.and_eq_true, Bool.not_eq_true', ← Bool.not_eq_true]
  change intLe n x = true ∧ ¬leInt x n = true ↔ _
  rw [hle, hge, not_le]
  exact ⟨And.right, fun hlt => ⟨hlt.le, hlt⟩⟩

theorem real_lt_whole (h : value? x = some v) (n : Int) : (real x).lt (whole n) = true ↔ v < n := by
  have hle := intLe_iff h n
  have hge := leInt_iff h n
  rw [lt, Bool.and_eq_true, Bool.not_eq_true', ← Bool.not_eq_true]
  change leInt x n = true ∧ ¬intLe n x = true ↔ _
  rw [hle, hge, not_le]
  exact ⟨And.right, fun hlt => ⟨hlt.le, hlt⟩⟩

theorem quotient_of_le {a : Int} {b : Nat} (ha : 0 ≤ a) (h : a ≤ b) :
    ∃ x v, quotient a b = .ok x ∧ value? x = some v ∧ v ∈ Set.Icc (0 : ℚ) 1 := by
  obtain ⟨x, v, hx, hv⟩ := ofFraction?_of_le (by omega : a.natAbs ≤ b)
  exact ⟨x, v, by rw [quotient, quotient?, hx, Option.map_some, if_neg (by omega)]; rfl, hv⟩

end Number

end Localizer
