import Localizer.Decimal
import Mathlib

/-!
# Exact values of doubles

A finite double has an exact value, a rational number. Its integer part, its floor, its nearest
integer and its comparison with integers are those of the value. The value is read off the bits here
and off the unpacked form in the library's arithmetic of doubles; both agree.
-/

namespace Localizer.Decimal

open Float.Model Float.Model.UnpackedFloat Format Option Nat

variable {n : Int} {x : Float} {v : ℚ}

/-! ### The value -/

def Binary.value (b : Binary) : ℚ := b.withSign b.mantissa * 2 ^ b.exponent

/-- The exact value of a double, if it is finite. -/
def value? (x : Float) : Option ℚ := (Binary.ofFloat? x).map Binary.value

namespace Binary

variable (b : Binary)

theorem fraction_pos : 0 < b.fraction.2 := by
  unfold fraction
  split
  · exact one_pos
  · exact Nat.two_pow_pos _

theorem cast_withSign (n : Nat) : (b.withSign n : ℚ) = (if b.negative then -1 else 1) * n := by
  unfold withSign
  split
  · push_cast
    ring
  · push_cast
    ring

theorem value_eq : b.value = (b.withSign b.fraction.1 : ℚ) / b.fraction.2 := by
  rw [value, cast_withSign, cast_withSign]
  by_cases h : 0 ≤ b.exponent
  · have hpow : (2 : ℚ) ^ b.exponent = 2 ^ b.exponent.toNat := by rw [← zpow_natCast, Int.toNat_of_nonneg h]
    rw [fraction, if_pos h, hpow, pow_eq]
    push_cast
    ring
  · have hpow : (2 : ℚ) ^ b.exponent = (2 ^ (-b.exponent).toNat)⁻¹ := by
      rw [← zpow_natCast, ← zpow_neg, Int.toNat_of_nonneg (by omega), neg_neg]
    rw [fraction, if_neg h, hpow, pow_eq]
    push_cast
    ring

theorem floor_eq : b.floor = ⌊b.value⌋ := by
  rw [value_eq, floor, Int.fdiv_eq_ediv_of_nonneg _ (Int.natCast_nonneg _), Rat.floor_intCast_div_natCast]

theorem trunc_mem {lo hi : Nat} (h : b.value ∈ Set.Icc (-(lo : ℚ)) hi) :
    -(lo : Int) ≤ b.trunc ∧ b.trunc ≤ hi := by
  have hpos : (0 : ℚ) < b.fraction.2 := by exact_mod_cast b.fraction_pos
  have hdiv {bound : Nat} (hle : (b.fraction.1 : ℚ) / b.fraction.2 ≤ bound) : b.fraction.1 / b.fraction.2 ≤ bound := by
    rw [div_le_iff₀ hpos] at hle
    refine Nat.div_le_of_le_mul ?_
    rw [Nat.mul_comm]
    exact_mod_cast hle
  obtain ⟨hge, hle⟩ := h
  rw [value_eq] at hge hle
  unfold trunc withSign at *
  split
  · next hneg =>
    rw [if_pos hneg, Int.cast_neg, neg_div, neg_le_neg_iff, Int.cast_natCast] at hge
    have hbound := hdiv hge
    generalize b.fraction.1 / b.fraction.2 = q at hbound ⊢
    omega
  · next hneg =>
    rw [if_neg hneg, Int.cast_natCast] at hle
    have hbound := hdiv hle
    generalize b.fraction.1 / b.fraction.2 = q at hbound ⊢
    omega

theorem fraction_of_value (h : b.value = n) :
    b.fraction.1 = n.natAbs * b.fraction.2 ∧ b.withSign n.natAbs = n := by
  have hpos : (0 : ℚ) < b.fraction.2 := by exact_mod_cast b.fraction_pos
  rw [value_eq, div_eq_iff hpos.ne'] at h
  have hint : b.withSign b.fraction.1 = n * b.fraction.2 := by exact_mod_cast h
  have habs : b.fraction.1 = n.natAbs * b.fraction.2 := by
    have := congrArg Int.natAbs hint
    rw [Int.natAbs_mul, Int.natAbs_natCast] at this
    rw [← this]
    unfold withSign
    split <;> simp
  refine ⟨habs, ?_⟩
  unfold withSign at hint ⊢
  have hfraction := b.fraction_pos
  split
  · next hneg =>
    rw [if_pos hneg, habs] at hint
    push_cast at hint ⊢
    have : -|n| * (b.fraction.2 : Int) = n * b.fraction.2 := by linarith
    exact mul_right_cancel₀ (by exact_mod_cast hfraction.ne') this
  · next hneg =>
    rw [if_neg hneg, habs] at hint
    push_cast at hint ⊢
    exact mul_right_cancel₀ (by exact_mod_cast hfraction.ne') hint

theorem trunc_of_value (h : b.value = n) : b.trunc = n := by
  obtain ⟨hfraction, hsign⟩ := b.fraction_of_value h
  rw [trunc, hfraction, Nat.mul_div_cancel _ b.fraction_pos, hsign]

theorem round_of_value (h : b.value = n) : b.round = n := by
  obtain ⟨hfraction, hsign⟩ := b.fraction_of_value h
  have hround : roundDiv b.fraction.1 b.fraction.2 = n.natAbs := by
    simp only [roundDiv, hfraction, Nat.mul_mod_left, Nat.mul_div_cancel _ b.fraction_pos]
    rw [if_pos (by simpa using b.fraction_pos)]
  rw [round, hround, hsign]

end Binary

/-! ### Comparing with integers -/

theorem leInt_iff (h : value? x = some v) (n : Int) : leInt x n = true ↔ v ≤ n := by
  obtain ⟨b, hb, rfl⟩ := map_eq_some_iff.mp h
  have hpos : (0 : ℚ) < b.fraction.2 := by exact_mod_cast b.fraction_pos
  rw [leInt, hb]
  simp only [decide_eq_true_eq]
  rw [b.value_eq, div_le_iff₀ hpos]
  exact_mod_cast Iff.rfl

theorem intLe_iff (h : value? x = some v) (n : Int) : intLe n x = true ↔ (n : ℚ) ≤ v := by
  obtain ⟨b, hb, rfl⟩ := map_eq_some_iff.mp h
  rw [intLe, floor?, hb, map_some]
  simp only [decide_eq_true_eq]
  rw [b.floor_eq, Int.le_floor]

/-! ### The unpacked form -/

/-- The exact value of an unpacked double, if it is finite. -/
def rational? : UnpackedFloat → Option ℚ
  | .zero _ => some 0
  | .finite s m e _ => some (s.apply m * 2 ^ e)
  | .infinity _ | .notANumber => none

section Bits

variable (w : UInt64)

theorem toNat_unpackMantissa : (@unpackMantissa binary64 w.toBitVec).toNat = w.toNat % 2 ^ 52 := by
  rfl

theorem toNat_unpackExponent :
    (@unpackExponent binary64 w.toBitVec).toNat = w.toNat / 2 ^ 52 % 2048 := by
  rw [unpackExponent_def, BitVec.extractLsb'_toNat, shiftRight_eq_div_pow]
  rfl

theorem toNat_unpackSign : (@unpackSign binary64 w.toBitVec).toNat = w.toNat / 2 ^ 63 % 2 := by
  rw [unpackSign_def, BitVec.extractLsb'_toNat, shiftRight_eq_div_pow]
  rfl

theorem apply_ofBitVec (m : Nat) (e : Int) (n : Nat) :
    (Sign.ofBitVec (@unpackSign binary64 w.toBitVec)).apply n =
      Binary.withSign ⟨w.toNat / 2 ^ 63 == 1, m, e⟩ n := by
  have hsign := toNat_unpackSign w
  have hlt : w.toNat < 2 ^ 64 := w.toNat_lt
  have hzero : @unpackSign binary64 w.toBitVec = 0#1 ↔ w.toNat / 2 ^ 63 = 0 := by
    rw [← BitVec.toNat_inj, hsign]
    change w.toNat / 2 ^ 63 % 2 = 0 ↔ _
    omega
  unfold Sign.ofBitVec Binary.withSign
  by_cases h : w.toNat / 2 ^ 63 = 0
  · rw [if_pos (hzero.mpr h), h]
    rfl
  · have hone : w.toNat / 2 ^ 63 = 1 := by omega
    rw [if_neg (hzero.not.mpr h), hone]
    rfl

end Bits

theorem rational?_packComponents (s : Sign) (e : BitVec 11) (m : BitVec 52) :
    rational? (unpack binary64 (packComponents binary64 s e m)) =
      if e.toNat = 2047 then none
      else if e.toNat = 0 then some ((s.apply m.toNat : ℚ) * 2 ^ (-1074 : Int))
      else some ((s.apply (m.toNat + 2 ^ 52 : Nat) : ℚ) * 2 ^ (e.toNat - 1075 : Int)) := by
  have hinf : e = -1#11 ↔ e.toNat = 2047 := BitVec.toNat_inj.symm
  have hzero : e = 0#11 ↔ e.toNat = 0 := BitVec.toNat_inj.symm
  unfold UnpackedFloat.unpack
  simp only [unpackExponent_packComponents, unpackMantissa_packComponents, unpackSign_packComponents,
    Sign.ofBitVec_toBitVec, hinf, hzero]
  split
  · split
    · rfl
    · rfl
  · split
    · next h0 =>
      split
      · next hm =>
        rw [hm]
        cases s <;> simp [rational?, Sign.apply]
      · rw [rational?, h0]
        rfl
    · have hmantissa : (1#1 ++ m).toNat = m.toNat + 2 ^ 52 := by
        rw [BitVec.toNat_append, shiftLeft_eq, mul_comm, ← two_pow_add_eq_or_of_lt m.isLt]
        exact add_comm _ _
      rw [rational?, hmantissa]
      rfl

theorem value?_eq (x : Float) : value? x = rational? x.toModel.unpack := by
  unfold value? Binary.ofFloat? Float.Model.unpack
  rw [show x.toModel.toBits = x.toBits from rfl]
  generalize x.toBits = w
  rw [← @packComponents_unpackSign_unpackExponent_unpackMantissa binary64 w.toBitVec,
    rational?_packComponents, toNat_unpackExponent, toNat_unpackMantissa]
  dsimp only [pow_eq]
  split
  · rfl
  · split
    · rw [map_some, Binary.value, ← apply_ofBitVec]
    · rw [map_some, Binary.value, ← apply_ofBitVec]

/-- The value of what is packed. A mantissa of fewer than 53 bits is taken to stand above the least
exponent. -/
theorem rational?_pack {s : Sign} {m : Nat} {e : Int} (hm : 0 < m) (he : -1074 ≤ e) :
    rational? (pack (.finite s m e hm)).unpack =
      if 972 ≤ e then none else if m.log2 = 52 then some ((s.apply m : ℚ) * 2 ^ e)
      else some ((s.apply (m % 2 ^ 52 : Nat) : ℚ) * 2 ^ (-1074 : Int)) := by
  change rational? (unpack binary64 (if 2 ^ 11 ≤ (e + (1023 : Nat) + (52 : Nat)).toNat + 1 then
    packComponents binary64 s (-1#11) 0#52 else if m.log2 + 1 = 53 then packComponents binary64 s
      (BitVec.ofNat 11 (e + (1023 : Nat) + (52 : Nat)).toNat) (BitVec.ofNat 52 m) else
      packComponents binary64 s 0#11 (BitVec.ofNat 52 m))) = _
  by_cases h : 972 ≤ e
  · rw [if_pos (by norm_num; omega), if_pos h, rational?_packComponents]
    rfl
  rw [if_neg (by norm_num; omega), if_neg h]
  by_cases hlog : m.log2 = 52
  · have hexp : (BitVec.ofNat 11 (e + (1023 : Nat) + (52 : Nat)).toNat).toNat = (e + 1075).toNat := by
      rw [BitVec.toNat_ofNat, mod_eq_of_lt (by omega)]
      omega
    obtain ⟨hle, hlt⟩ := (log2_eq_iff hm.ne').mp hlog
    have hmantissa : (BitVec.ofNat 52 m).toNat + 2 ^ 52 = m := by
      rw [BitVec.toNat_ofNat]
      omega
    rw [if_pos (by omega), if_pos hlog, rational?_packComponents, hmantissa, hexp, if_neg (by omega), if_neg (by omega)]
    congr 3
    omega
  · rw [if_neg (by omega), if_neg hlog, rational?_packComponents, BitVec.toNat_ofNat]
    rfl

/-! ## Sums and products of doubles

Doubles are added and multiplied exactly, and the result is rounded. Rounding keeps the sign, and it
does not lead beyond an integer that can be held exactly: what is rounded away below such an integer
is less than the distance to it (`roundedMantissa_le`). So sums, differences and products stay
within bounds around zero that the exact ones keep. -/

open UnpackedFloat ExtendedMantissa

variable {m : Nat} {e : Int} {u : UnpackedFloat}
variable {k bound n : Nat} {s : Sign} {q q' : ℚ} {z : Float} {u' : UnpackedFloat}
  (em : ExtendedMantissa)

/-! ### Shifting -/

theorem shiftRight_succ (k : Nat) : em >>> (k + 1) = (em >>> k).shiftRightOne := rfl

theorem mantissa_shiftRight (k : Nat) : (em >>> k).mantissa = em.mantissa / 2 ^ k := by
  induction k with
  | zero => exact (Nat.div_one _).symm
  | succ k ih =>
    rw [shiftRight_succ, shiftRightOne, ih, Nat.div_div_eq_div_mul, Nat.pow_succ]

theorem residue_shiftRight (h : m % 2 ^ k = 0) :
    (ofMantissaAndAccuracy m .exact >>> k).roundBit = false ∧
      (ofMantissaAndAccuracy m .exact >>> k).stickyBit = false := by
  induction k with
  | zero => exact ⟨rfl, rfl⟩
  | succ k ih =>
    rw [Nat.pow_succ, Nat.mod_mul, Nat.add_eq_zero_iff] at h
    obtain ⟨hround, hsticky⟩ := ih h.1
    have hbit : m / 2 ^ k % 2 = 0 := by
      rcases Nat.mul_eq_zero.mp h.2 with hpow | hbit
      · exact absurd hpow (Nat.two_pow_pos k).ne'
      · exact hbit
    have hmantissa : (ofMantissaAndAccuracy m .exact >>> k).mantissa = m / 2 ^ k :=
      mantissa_shiftRight _ k
    rw [shiftRight_succ, shiftRightOne, hround, hsticky, hmantissa, hbit]
    exact ⟨rfl, rfl⟩

theorem roundedMantissa_le_succ : em.roundedMantissa ≤ em.mantissa + 1 := by
  unfold roundedMantissa
  cases em.accuracy with
  | exact => exact le_succ _
  | inexact o =>
    cases o with
    | lt => exact le_succ _
    | eq =>
      change em.mantissa + em.mantissa % 2 ≤ em.mantissa + 1
      omega
    | gt => exact le_rfl

theorem roundedMantissa_le (h : m ≤ bound * 2 ^ k) :
    (ofMantissaAndAccuracy m .exact >>> k).roundedMantissa ≤ bound := by
  have hmantissa : (ofMantissaAndAccuracy m .exact >>> k).mantissa = m / 2 ^ k :=
    mantissa_shiftRight _ k
  by_cases hmod : m % 2 ^ k = 0
  · obtain ⟨hround, hsticky⟩ := residue_shiftRight hmod
    have hexact : (ofMantissaAndAccuracy m .exact >>> k).roundedMantissa = m / 2 ^ k := by
      rw [← hmantissa]
      generalize ofMantissaAndAccuracy m .exact >>> k = em at hround hsticky
      obtain ⟨mantissa, round, sticky⟩ := em
      dsimp only at hround hsticky
      rw [hround, hsticky]
      rfl
    rw [hexact]
    exact Nat.div_le_of_le_mul (by rwa [Nat.mul_comm] at h)
  · have hlt : m / 2 ^ k < bound := by
      rw [Nat.div_lt_iff_lt_mul (Nat.two_pow_pos k)]
      refine lt_of_le_of_ne h fun heq => hmod ?_
      rw [heq, mul_mod_left]
    have hsucc := roundedMantissa_le_succ (ofMantissaAndAccuracy m .exact >>> k)
    omega

/-! ### Rounding -/

theorem targetExponent_eq (t : Int) : binary64.targetExponent t = max (t - 53) (-1074) := rfl

theorem apply_natCast (s : Sign) (n : Nat) :
    (s.apply n : ℚ) = s.apply 1 * n := by cases s <;> simp [Sign.apply]

theorem exists_of_pack (hm : 0 < m) (he : -1074 ≤ e)
    (h : rational? (pack (.finite s m e hm)).unpack = some v) :
    ∃ q : ℚ, 0 ≤ q ∧ q ≤ m * 2 ^ e ∧ v = s.apply 1 * q := by
  rw [rational?_pack hm he] at h
  split_ifs at h with hinf hlog
  · cases h
    exact ⟨m * 2 ^ e, by positivity, le_rfl, by rw [apply_natCast, mul_assoc]⟩
  · cases h
    have hmod : ((m % 2 ^ 52 : Nat) : ℚ) ≤ m := by exact_mod_cast mod_le m _
    refine ⟨(m % 2 ^ 52 : Nat) * 2 ^ (-1074 : Int), by positivity, ?_, by rw [apply_natCast, mul_assoc]⟩
    exact mul_le_mul hmod (zpow_le_zpow_right₀ one_le_two he) (by positivity) (by positivity)

theorem log2_add_lt (hm : 0 < m) (hbound : bound < 2 ^ 53) (hle : (m : ℚ) * 2 ^ e ≤ bound) :
    m.log2 + e < 53 := by
  have hlog : (2 : ℚ) ^ (m.log2 + e : Int) < 2 ^ (53 : Int) := by
    calc (2 : ℚ) ^ (m.log2 + e : Int) = (2 ^ m.log2 : Nat) * 2 ^ e := by
          rw [zpow_add₀ two_ne_zero, zpow_natCast]
          push_cast
          rfl
      _ ≤ m * 2 ^ e := by
          have hself : ((2 ^ m.log2 : Nat) : ℚ) ≤ m := by exact_mod_cast log2_self_le hm.ne'
          gcongr
      _ ≤ bound := hle
      _ < 2 ^ (53 : Int) := by exact_mod_cast hbound
  exact (zpow_lt_zpow_iff_right₀ one_lt_two).mp hlog

/-- The exponent that is aimed at for a number below `2^53` is not positive. -/
theorem targetExponent_le (hm : 0 < m) (hbound : bound < 2 ^ 53) (hle : (m : ℚ) * 2 ^ e ≤ bound) :
    binary64.targetExponent (totalExponent m e) ≤ 0 := by
  have hlt := log2_add_lt hm hbound hle
  rw [targetExponent_eq]
  unfold totalExponent
  omega

theorem roundedMantissa_mul_le (hm : 0 < m) (hbound : bound < 2 ^ 53)
    (hle : (m : ℚ) * 2 ^ e ≤ bound)
    (hk : k = (binary64.targetExponent (totalExponent m e) - e).toNat) :
    ((ofMantissaAndAccuracy m .exact >>> k).roundedMantissa : ℚ) * 2 ^ (e + k) ≤ bound := by
  have htarget := targetExponent_le hm hbound hle
  cases k with
  | zero =>
    rwa [cast_zero, add_zero]
  | succ k =>
    obtain ⟨j, hj⟩ : ∃ j : Nat, e + (k + 1 : Nat) = -(j : Int) :=
      ⟨(-binary64.targetExponent (totalExponent m e)).toNat, by omega⟩
    -- The bound is a multiple of the unit that is aimed at.
    have hmantissa : m ≤ bound * 2 ^ j * 2 ^ (k + 1) := by
      have hscaled : (m : ℚ) ≤ bound * 2 ^ (j : Int) * 2 ^ (k + 1 : Nat) := by
        calc (m : ℚ) = m * 2 ^ e * 2 ^ (-e) := by
              rw [mul_assoc, ← zpow_add₀ two_ne_zero, add_neg_cancel, zpow_zero, mul_one]
          _ ≤ bound * 2 ^ (-e) := by gcongr
          _ = bound * 2 ^ (j : Int) * 2 ^ (k + 1 : Nat) := by
              rw [mul_assoc, ← zpow_natCast (2 : ℚ) (k + 1), ← zpow_add₀ two_ne_zero]
              congr 2
              omega
      exact_mod_cast hscaled
    have hrounded : ((ofMantissaAndAccuracy m .exact >>> (k + 1)).roundedMantissa : ℚ) ≤
        bound * 2 ^ (j : Int) := by
      exact_mod_cast roundedMantissa_le hmantissa
    calc ((ofMantissaAndAccuracy m .exact >>> (k + 1)).roundedMantissa : ℚ) * 2 ^ (e + (k + 1 : Nat))
        ≤ bound * 2 ^ (j : Int) * 2 ^ (-(j : Int)) := by rw [hj]; gcongr
      _ = bound := by rw [mul_assoc, ← zpow_add₀ two_ne_zero, add_neg_cancel, zpow_zero, mul_one]

/-- Rounding keeps the sign and does not lead beyond an integer that is held exactly. Below such an
integer there is no overflow. -/
theorem of_roundWithAccuracy (hm : 0 < m) {v? : Option ℚ}
    (h : rational? (pack (roundWithAccuracy binary64 s m e .exact)).unpack = v?) :
    (∀ v, v? = some v → ∃ q : ℚ, 0 ≤ q ∧ v = s.apply 1 * q ∧
      ∀ bound : Nat, bound < 2 ^ 53 → (m : ℚ) * 2 ^ e ≤ bound → q ≤ bound) ∧
      ∀ bound : Nat, bound < 2 ^ 53 → (m : ℚ) * 2 ^ e ≤ bound → ∃ v, v? = some v := by
  have hleast : -1074 ≤ binary64.targetExponent (totalExponent m e) := le_max_right _ _
  have htarget {bound : Nat} (hbound : bound < 2 ^ 53) (hle : (m : ℚ) * 2 ^ e ≤ bound) := targetExponent_le hm hbound hle
  have hround {bound : Nat} (hbound : bound < 2 ^ 53) (hle : (m : ℚ) * 2 ^ e ≤ bound) :=
    roundedMantissa_mul_le hm hbound hle rfl
  set k := (binary64.targetExponent (totalExponent m e) - e).toNat
  set rounded := (ofMantissaAndAccuracy m .exact >>> k).roundedMantissa
  set k' := (binary64.targetExponent (totalExponent rounded (e + k)) - (e + k)).toNat
  -- A mantissa that was rounded up to one bit more is shifted once again.
  have hfinal : roundWithAccuracy binary64 s m e .exact =
      if h : rounded / 2 ^ k' = 0 then .zero s
      else .finite s (rounded / 2 ^ k') (e + k + k') (pos_of_ne_zero h) := by
    simp only [roundWithAccuracy, shiftToTargetExponent, shiftToExponent, mantissa_shiftRight]
    rfl
  rw [hfinal] at h
  split at h
  · obtain rfl : some 0 = v? := by cases s <;> exact h
    refine ⟨fun v hv => ⟨0, le_rfl, ?_, fun bound _ _ => cast_nonneg bound⟩, fun _ _ _ => ⟨0, rfl⟩⟩
    rw [← some.inj hv, mul_zero]
  · next hne =>
    refine ⟨fun v hv => ?_, fun bound hbound hle => ?_⟩
    · obtain ⟨q, hzero, hq, rfl⟩ := exists_of_pack _ (by omega) (h.trans hv)
      refine ⟨q, hzero, rfl, fun bound hbound hle => ?_⟩
      have hshift : ((rounded / 2 ^ k' : Nat) : ℚ) * 2 ^ k' ≤ rounded := by exact_mod_cast div_mul_le_self rounded _
      calc q ≤ ((rounded / 2 ^ k' : Nat) : ℚ) * 2 ^ (e + k + k') := hq
        _ = ((rounded / 2 ^ k' : Nat) : ℚ) * 2 ^ k' * 2 ^ (e + k) := by
            rw [zpow_add₀ two_ne_zero, zpow_natCast]
            ring
        _ ≤ rounded * 2 ^ (e + k) := by gcongr
        _ ≤ bound := hround hbound hle
    · have hpos : 0 < rounded := Nat.pos_of_ne_zero fun hzero => hne (by rw [hzero, Nat.zero_div])
      have hexponent := log2_add_lt hm hbound hle
      have hagain := targetExponent_le hpos hbound (hround hbound hle)
      have := htarget hbound hle
      rw [rational?_pack _ (by omega), if_neg (by omega)] at h
      split at h <;> exact ⟨_, h.symm⟩

/-! ### Bounds around zero -/

/-- A number that is rounded stays within bounds around zero, if those are integers that are held
exactly. -/
structure Rounds (q v : ℚ) : Prop where
  lower : ∀ n : Nat, n < 2 ^ 53 → -(n : ℚ) ≤ q → -(n : ℚ) ≤ v
  upper : ∀ n : Nat, n < 2 ^ 53 → q ≤ n → v ≤ n

/-- What is packed is a number rounded. -/
structure PacksTo (u : UnpackedFloat) (q : ℚ) : Prop where
  /-- It stays within bounds around zero. -/
  rounds : ∀ v, rational? (pack u).unpack = some v → Rounds q v
  finite : ∀ n : Nat, n < 2 ^ 53 → q ∈ Set.Icc (-(n : ℚ)) n → ∃ v, rational? (pack u).unpack = some v

theorem Rounds.refl (q : ℚ) : Rounds q q := ⟨fun _ _ h => h, fun _ _ h => h⟩

theorem packsTo_of_eq (h : rational? (pack u).unpack = some q) : PacksTo u q :=
  ⟨fun _ hv => some.inj (h.symm.trans hv) ▸ .refl q, fun _ _ _ => ⟨q, h⟩⟩

theorem packsTo_zero (s : Sign) (q : ℚ) : PacksTo (.zero s) q := by
  have hzero : rational? (pack (.zero s)).unpack = some 0 := by cases s <;> rfl
  refine ⟨fun v hv => ?_, fun _ _ _ => ⟨0, hzero⟩⟩
  obtain rfl := some.inj (hzero.symm.trans hv)
  exact ⟨fun n _ _ => neg_nonpos.mpr (cast_nonneg n), fun n _ _ => cast_nonneg n⟩

theorem packsTo_roundWithAccuracy (hm : 0 < m) :
    PacksTo (roundWithAccuracy binary64 s m e .exact) (s.apply m * 2 ^ e) := by
  obtain ⟨hrounds, hfinite⟩ := of_roundWithAccuracy (s := s) (e := e) hm rfl
  cases s with
  | positive =>
    simp only [Sign.apply, Int.cast_one, one_mul, Int.cast_natCast] at hrounds ⊢
    refine ⟨fun v hv => ?_, fun n hn hq => hfinite n hn hq.2⟩
    obtain ⟨q, hzero, rfl, hbound⟩ := hrounds v hv
    exact ⟨fun n _ _ => (neg_nonpos.mpr (cast_nonneg n)).trans hzero, hbound⟩
  | negative =>
    simp only [Sign.apply, Int.cast_neg, Int.cast_one, Int.cast_natCast, neg_mul, one_mul] at hrounds ⊢
    refine ⟨fun v hv => ?_, fun n hn hq => hfinite n hn (neg_le_neg_iff.mp hq.1)⟩
    obtain ⟨q, hzero, rfl, hbound⟩ := hrounds v hv
    refine ⟨fun n hn hle => neg_le_neg (hbound n hn (neg_le_neg_iff.mp hle)), fun n _ _ => ?_⟩
    exact (neg_nonpos.mpr hzero).trans (cast_nonneg n)

theorem decreaseExponent_mul {t : Int} (h : t ≤ e) :
    ((decreaseExponent m e t).1 : ℚ) * 2 ^ t = m * 2 ^ e := by
  have hpow : (2 : ℚ) ^ e = 2 ^ (e - t).toNat * 2 ^ t := by
    rw [← zpow_natCast, ← zpow_add₀ two_ne_zero]
    congr 1
    omega
  change ((m <<< (e - t).toNat : Nat) : ℚ) * 2 ^ t = m * 2 ^ e
  rw [shiftLeft_eq, hpow]
  push_cast
  ring

theorem decreaseExponent_pos (hm : 0 < m) (e t : Int) : 0 < (decreaseExponent m e t).1 := by
  change 0 < m <<< (e - t).toNat
  rw [shiftLeft_eq]
  positivity

theorem packsTo_round (hm : 0 < m) : PacksTo (round binary64 s m e) (s.apply m * 2 ^ e) := by
  set t := binary64.targetExponent (totalExponent m e) with ht
  have hpos := decreaseExponent_pos hm e t
  have hvalue : ((decreaseExponent m e t).1 : ℚ) * 2 ^ (decreaseExponent m e t).2 = m * 2 ^ e := by
    change ((m <<< (e - t).toNat : Nat) : ℚ) * 2 ^ (e - (e - t).toNat) = m * 2 ^ e
    rw [shiftLeft_eq, zpow_sub₀ two_ne_zero, zpow_natCast]
    push_cast
    field_simp
  rw [apply_natCast, mul_assoc, ← hvalue, ← mul_assoc, ← apply_natCast]
  exact packsTo_roundWithAccuracy hpos

theorem packsTo_normalize (m e : Int) (s : Sign) :
    PacksTo (normalize binary64 m e s) (m * 2 ^ e) := by
  unfold UnpackedFloat.normalize
  split
  · next hlt =>
    have hlt := Int.compare_eq_lt.mp hlt
    have hm : Sign.negative.apply (-m).toNat = m := by simp only [Sign.apply]; omega
    have hround := packsTo_round (s := .negative) (e := e) (by omega : 0 < (-m).toNat)
    rwa [hm] at hround
  · exact packsTo_zero s _
  · next hgt =>
    have hgt := Int.compare_eq_gt.mp hgt
    have hm : Sign.positive.apply m.toNat = m := by simp only [Sign.apply]; omega
    have hround := packsTo_round (s := .positive) (e := e) (by omega : 0 < m.toNat)
    rwa [hm] at hround

/-! ### Zeros and opposites -/

theorem cases_of_rational? (h : rational? u = some q) :
    (∃ s, u = .zero s ∧ q = 0) ∨
      ∃ s m e, ∃ hm : 0 < m, u = .finite s m e hm ∧ q = s.apply m * 2 ^ e := by
  cases u with
  | infinity s
  | notANumber => cases h
  | zero s => exact .inl ⟨s, rfl, (some.inj h).symm⟩
  | finite s m e hm => exact .inr ⟨s, m, e, hm, rfl, (some.inj h).symm⟩

theorem le_exponent_of_unpack {v : Float.Model} {hm : 0 < m} (h : v.unpack = .finite s m e hm) :
    -1074 ≤ e := by
  unfold Float.Model.unpack UnpackedFloat.unpack at h
  dsimp only at h
  split at h
  · split at h <;> cases h
  · split at h
    · next hzero =>
      split at h
      · cases h
      · obtain ⟨-, -, rfl⟩ := finite.inj h
        rw [hzero]
        decide
    · next hzero =>
      obtain ⟨-, -, rfl⟩ := finite.inj h
      have hpos : (@unpackExponent binary64 v.toBits.toBitVec).toNat ≠ 0 := fun h =>
        hzero (BitVec.eq_of_toNat_eq h)
      change -1074 ≤ ((@unpackExponent binary64 v.toBits.toBitVec).toNat : Int) - (1023 + 52)
      omega

theorem pack_toModel (x : Float) : pack x.toModel.unpack = x.toModel :=
  congrArg Float.toModel (Float.ofBits_toBits x)

theorem unpack_of_value_zero (h : value? x = some 0) : ∃ s, x.toModel.unpack = .zero s := by
  rw [value?_eq] at h
  rcases cases_of_rational? h with ⟨s, hs, -⟩ | ⟨s, m, e, hm, -, hzero⟩
  · exact ⟨s, hs⟩
  · have hne : (m : ℚ) ≠ 0 := by exact_mod_cast hm.ne'
    have hpow : (2 : ℚ) ^ e ≠ 0 := zpow_ne_zero e two_ne_zero
    cases s <;> simp [Sign.apply, hne, hpow] at hzero

theorem add_of_value_zero (hx : x.toModel.unpack ≠ .zero .negative) (hz : value? z = some 0) :
    x + z = x := by
  obtain ⟨s, hs⟩ := unpack_of_value_zero hz
  have hadd : add binary64 x.toModel.unpack z.toModel.unpack = x.toModel.unpack := by
    rw [hs]
    cases hu : x.toModel.unpack with
    | zero t =>
      cases t with
      | negative => exact absurd hu hx
      | positive => cases s <;> rfl
    | infinity t
    | notANumber
    | finite t m e hm => rfl
  change Float.ofModel (pack (add binary64 x.toModel.unpack z.toModel.unpack)) = x
  rw [hadd, pack_toModel]

theorem value?_mul_zero (hx : value? x = some v) (hz : value? z = some 0) :
    value? (x * z) = some 0 ∧ value? (z * x) = some 0 := by
  obtain ⟨s, hs⟩ := unpack_of_value_zero hz
  rw [value?_eq] at hx
  rw [value?_eq, value?_eq]
  change rational? (pack (mul binary64 x.toModel.unpack z.toModel.unpack)).unpack = _ ∧
    rational? (pack (mul binary64 z.toModel.unpack x.toModel.unpack)).unpack = _
  have hzero (t : Sign) : rational? (pack (.zero t)).unpack = some 0 := by cases t <;> rfl
  rw [hs]
  rcases cases_of_rational? hx with ⟨t, hu, -⟩ | ⟨t, m, e, hm, hu, -⟩
  · rw [hu]
    exact ⟨hzero (t * s), hzero (s * t)⟩
  · rw [hu]
    exact ⟨hzero (t * s), hzero (s * t)⟩

theorem value?_neg (h : value? x = some v) : value? (-x) = some (-v) := by
  have hpack : rational? (pack x.toModel.unpack).unpack = some v := by
    rw [pack_toModel, ← h, value?_eq]
  rw [value?_eq] at h ⊢
  change rational? (pack x.toModel.unpack.neg).unpack = some (-v)
  rcases cases_of_rational? h with ⟨s, hu, rfl⟩ | ⟨s, m, e, hm, hu, -⟩
  · rw [hu]
    cases s <;> exact congrArg some neg_zero.symm
  · have hleast := le_exponent_of_unpack hu
    have hneg (n : Nat) : (((-s).apply n : Int) : ℚ) = -(s.apply n : ℚ) := by cases s <;> simp [Sign.apply]
    rw [hu, rational?_pack hm hleast] at hpack
    rw [hu]
    change rational? (pack (.finite (-s) m e hm)).unpack = some (-v)
    rw [rational?_pack hm hleast]
    split_ifs at hpack ⊢
    · rw [← some.inj hpack, hneg, neg_mul]
    · rw [← some.inj hpack, hneg, neg_mul]

/-! ### Sums, differences and products -/

theorem apply_neg (s : Sign) (n : Int) : (-s).apply n = -s.apply n := by
  cases s with
  | negative => exact (neg_neg n).symm
  | positive => rfl

theorem apply_mul (s s' : Sign) (m n : Int) : (s * s').apply (m * n) = s.apply m * s'.apply n := by
  cases s with
  | negative =>
    cases s' with
    | negative => exact (neg_mul_neg m n).symm
    | positive => exact (neg_mul m n).symm
  | positive =>
    cases s' with
    | negative => exact (mul_neg m n).symm
    | positive => rfl

theorem rational?_neg (h : rational? u = some q) : rational? u.neg = some (-q) := by
  rcases cases_of_rational? h with ⟨s, rfl, rfl⟩ | ⟨s, m, e, hm, rfl, rfl⟩
  · exact congrArg some neg_zero.symm
  · exact congrArg some (by rw [apply_neg, Int.cast_neg, neg_mul])

theorem sub_eq_add (u u' : UnpackedFloat) :
    sub Format.binary64 u u' = add Format.binary64 u u'.neg := by
  cases u with
  | finite s m e hm =>
    cases u' with
    | finite s' m' e' hm' => simp only [UnpackedFloat.sub, UnpackedFloat.add, UnpackedFloat.neg, apply_neg, sub_eq_add_neg]
    | _ => rfl
  | _ => cases u' <;> rfl

theorem packsTo_add (hu : rational? u = some q) (hu' : rational? u' = some q')
    (h : PacksTo u q) (h' : PacksTo u' q') : PacksTo (add binary64 u u') (q + q') := by
  rcases cases_of_rational? hu with ⟨s, rfl, rfl⟩ | ⟨s, m, e, hm, rfl, rfl⟩
  · rw [zero_add]
    rcases cases_of_rational? hu' with ⟨s', rfl, rfl⟩ | ⟨s', m', e', hm', rfl, rfl⟩
    · cases s <;> cases s' <;> exact packsTo_zero _ _
    · exact h'
  · rcases cases_of_rational? hu' with ⟨s', rfl, rfl⟩ | ⟨s', m', e', hm', rfl, rfl⟩
    · rwa [add_zero]
    · have hsum : ((s.apply (decreaseExponent m e (min e e')).1 + s'.apply (decreaseExponent m' e' (min e e')).1 : Int) : ℚ) *
          2 ^ min e e' = s.apply m * 2 ^ e + s'.apply m' * 2 ^ e' := by
        rw [Int.cast_add, add_mul, apply_natCast, apply_natCast, mul_assoc, mul_assoc,
          decreaseExponent_mul (min_le_left _ _), decreaseExponent_mul (min_le_right _ _), ← mul_assoc, ← mul_assoc,
          ← apply_natCast, ← apply_natCast]
      rw [← hsum]
      exact packsTo_normalize _ _ _

theorem exists_of_rational?_pack (h : rational? (pack u).unpack = some v) :
    ∃ q, rational? u = some q := by
  cases u with
  | infinity s => cases s <;> cases h
  | notANumber => cases h
  | _ => exact ⟨_, rfl⟩

theorem exists_of_rational?_add
    (h : rational? (add binary64 u u') = some q) :
    (∃ p, rational? u = some p) ∧ ∃ p', rational? u' = some p' := by
  cases u with
  | infinity s =>
    cases u' with
    | infinity s' => cases s <;> cases s' <;> cases h
    | _ => cases h
  | notANumber => cases u' <;> cases h
  | _ =>
    cases u' with
    | infinity s'
    | notANumber => cases h
    | _ => exact ⟨⟨_, rfl⟩, ⟨_, rfl⟩⟩

theorem packsTo_mul (hu : rational? u = some q) (hu' : rational? u' = some q') :
    PacksTo (mul binary64 u u') (q * q') := by
  rcases cases_of_rational? hu with ⟨s, rfl, rfl⟩ | ⟨s, m, e, hm, rfl, rfl⟩
  · rcases cases_of_rational? hu' with ⟨s', rfl, rfl⟩ | ⟨s', m', e', hm', rfl, rfl⟩
    · exact packsTo_zero _ _
    · exact packsTo_zero _ _
  · rcases cases_of_rational? hu' with ⟨s', rfl, rfl⟩ | ⟨s', m', e', hm', rfl, rfl⟩
    · exact packsTo_zero _ _
    · have hproduct : ((s * s').apply (m * m' : Nat) : ℚ) * 2 ^ (e + e') = s.apply m * 2 ^ e * (s'.apply m' * 2 ^ e') := by
        rw [zpow_add₀ two_ne_zero, cast_mul, apply_mul, Int.cast_mul, mul_mul_mul_comm]
      rw [← hproduct]
      exact packsTo_roundWithAccuracy (mul_pos hm hm')

section

variable {y : Float} {p : ℚ}

section

variable (hx : value? x = some p)
include hx

theorem packsTo_unpack : PacksTo x.toModel.unpack p :=
  packsTo_of_eq (by rw [pack_toModel, ← value?_eq, hx])

theorem packsTo_neg : PacksTo x.toModel.unpack.neg (-p) :=
  packsTo_of_eq ((value?_eq (-x)).symm.trans (value?_neg hx))

theorem packsTo_sum (hy : value? y = some q) :
    PacksTo (add binary64 x.toModel.unpack y.toModel.unpack) (p + q) :=
  packsTo_add (value?_eq x ▸ hx) (value?_eq y ▸ hy) (packsTo_unpack hx) (packsTo_unpack hy)

theorem rounds_add (hy : value? y = some q) (h : value? (x + y) = some v) : Rounds (p + q) v :=
  (packsTo_sum hx hy).rounds v ((value?_eq _).symm.trans h)

theorem rounds_sub (hy : value? y = some q) (h : value? (x - y) = some v) : Rounds (p - q) v := by
  have hpacks := packsTo_add (value?_eq x ▸ hx) (rational?_neg (value?_eq y ▸ hy)) (packsTo_unpack hx) (packsTo_neg hy)
  rw [← sub_eq_add, ← sub_eq_add_neg] at hpacks
  exact hpacks.rounds v ((value?_eq _).symm.trans h)

theorem exists_add (hy : value? y = some q) (hn : n < 2 ^ 53)
    (h : p + q ∈ Set.Icc (-(n : ℚ)) n) : ∃ v, value? (x + y) = some v ∧ Rounds (p + q) v := by
  obtain ⟨v, hv⟩ := (packsTo_sum hx hy).finite n hn h
  exact ⟨v, (value?_eq _).trans hv, (packsTo_sum hx hy).rounds v hv⟩

theorem exists_mul (hy : value? y = some q) (hn : n < 2 ^ 53)
    (h : p * q ∈ Set.Icc (-(n : ℚ)) n) : ∃ v, value? (x * y) = some v ∧ Rounds (p * q) v := by
  have hpacks := packsTo_mul (value?_eq x ▸ hx) (value?_eq y ▸ hy)
  obtain ⟨v, hv⟩ := hpacks.finite n hn h
  exact ⟨v, (value?_eq _).trans hv, hpacks.rounds v hv⟩

end

theorem exists_of_value?_add (h : value? (x + y) = some v) :
    (∃ p, value? x = some p) ∧ ∃ q, value? y = some q := by
  rw [value?_eq] at h
  rw [value?_eq, value?_eq]
  obtain ⟨q, hq⟩ := exists_of_rational?_pack (u := add binary64 x.toModel.unpack y.toModel.unpack) h
  exact exists_of_rational?_add hq

theorem exists_of_value?_sub (h : value? (x - y) = some v) : ∃ p, value? x = some p := by
  rw [value?_eq] at h
  rw [value?_eq]
  obtain ⟨q, hq⟩ := exists_of_rational?_pack (u := sub binary64 x.toModel.unpack y.toModel.unpack) h
  rw [sub_eq_add] at hq
  exact (exists_of_rational?_add hq).1

theorem nonneg_of_not_le_zero (h : ¬x ≤ 0) (hx : value? x = some p) : 0 ≤ p := by
  rw [value?_eq] at hx
  rcases cases_of_rational? hx with ⟨s, -, rfl⟩ | ⟨s, m, e, hm, hu, rfl⟩
  · exact le_rfl
  · cases s with
    | positive =>
      change (0 : ℚ) ≤ m * 2 ^ e
      positivity
    | negative =>
      have hle : x.toModel ≤ (0 : Float).toModel := by
        change UnpackedFloat.le x.toModel.unpack (.zero .positive) = true
        rw [hu]
        rfl
      exact absurd (decide_eq_true hle) h

end

end Localizer.Decimal
