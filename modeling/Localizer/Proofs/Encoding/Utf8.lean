import Localizer.Encoding.Utf8
import Mathlib

/-!
# UTF-8 read back

A text that is written in UTF-8 is read as the same text. One character is read back whatever comes
after it, for each of the four widths that it can have.
-/

namespace Localizer.Encoding.Utf8

open List Text UInt8 Option

variable {bs : Bytes} {t : Text}

theorem toNat_ofNat_of_lt {n : Nat} (h : n < 256) : (ofNat n).toNat = n := by
  rw [toNat_ofNat', Nat.mod_eq_of_lt h]

theorem isTail_of_toNat {b : UInt8} {j : Nat} (hb : b.toNat = j + 128) (hj : j < 64) :
    isTail b = true ∧ tailBits b = j := by
  have hlow : 0x80 ≤ b := le_iff_toNat_le.mpr (show 128 ≤ b.toNat by omega)
  have hhigh : b ≤ 0xBF := le_iff_toNat_le.mpr (show b.toNat ≤ 191 by omega)
  have hbits : b.toNat - 0x80 = j := by omega
  exact ⟨by rw [isTail, decide_eq_true hlow, decide_eq_true hhigh]; rfl, hbits⟩

theorem scalar?_toNat {c : Char} {least n : Nat} (hn : n = c.toNat) (h : least ≤ c.toNat) :
    scalar? least n = some c := by
  have hvalid : c.toNat.isValidChar := c.valid
  subst hn
  rw [scalar?, if_pos (by simp [h, hvalid]), Char.ofNat_toNat]

/-! ### Each width -/

section

variable {a b c d : UInt8} {k j i h : Nat} (hb : b.toNat = j + 128) (hj : j < 64) (hc : c.toNat = i + 128) (hi : i < 64)
  (rest : Bytes)

theorem head?_one (ha : a.toNat < 128) : head? (a :: rest) = some (Char.ofNat a.toNat, 1) := by
  have h80 : a < 0x80 := lt_iff_toNat_lt.mpr ha
  exact if_pos h80

include hb hj in
theorem head?_two (ha : a.toNat = k + 192) (hk : 2 ≤ k ∧ k < 32) :
    head? (a :: b :: rest) = (scalar? 0x80 (k * 64 + j)).map (·, 2) := by
  simp (disch := omega) only [head?, lt_iff_toNat_lt, reduceToNat, ha, if_pos, if_neg,
    isTail_of_toNat hb hj, if_true, Nat.add_sub_cancel]

include hb hj hc hi

theorem head?_three (ha : a.toNat = k + 224) (hk : k < 16) :
    head? (a :: b :: c :: rest) = (scalar? 0x800 ((k * 64 + j) * 64 + i)).map (·, 3) := by
  simp (disch := omega) only [head?, lt_iff_toNat_lt, reduceToNat, ha, if_pos, if_neg,
    isTail_of_toNat hb hj, isTail_of_toNat hc hi, Bool.and_self, if_true, Nat.add_sub_cancel]

theorem head?_four (hd : d.toNat = h + 128) (hh : h < 64) (ha : a.toNat = k + 240) (hk : k < 5) :
    head? (a :: b :: c :: d :: rest) =
      (scalar? 0x10000 (((k * 64 + j) * 64 + i) * 64 + h)).map (·, 4) := by
  simp (disch := omega) only [head?, lt_iff_toNat_lt, reduceToNat, ha, if_pos, if_neg,
    isTail_of_toNat hb hj, isTail_of_toNat hc hi, isTail_of_toNat hd hh, Bool.and_self, if_true, Nat.add_sub_cancel]

end

/-- **A character is read back**, whatever comes after it. -/
theorem head?_utf8EncodeChar (c : Char) (rest : Bytes) :
    head? (String.utf8EncodeChar c ++ rest) = some (c, (String.utf8EncodeChar c).length) := by
  have hmax : c.toNat < 0x110000 := by
    have hvalid : c.toNat.isValidChar := c.valid
    rcases hvalid with h | h <;> omega
  have hbyte : ∀ {n}, n < 256 → (ofNat n).toNat = n := toNat_ofNat_of_lt
  unfold String.utf8EncodeChar
  rw [show c.val.toNat = c.toNat from rfl]
  simp only
  split
  · rw [singleton_append, head?_one _ (by rw [hbyte] <;> omega), hbyte (by omega), Char.ofNat_toNat]
    rfl
  split
  · rw [cons_append, singleton_append, head?_two (hbyte (by omega)) (by omega) _ (hbyte (by omega)) (by omega),
      scalar?_toNat (c := c) (by omega) (by omega)]
    rfl
  split
  · rw [cons_append, cons_append, singleton_append, head?_three (hbyte (by omega)) (by omega) (hbyte (by omega))
      (by omega) _ (hbyte (by omega)) (by omega), scalar?_toNat (c := c) (by omega) (by omega)]
    rfl
  · rw [cons_append, cons_append, cons_append, singleton_append, head?_four (hbyte (by omega)) (by omega)
      (hbyte (by omega)) (by omega) _ (hbyte (by omega)) (by omega) (hbyte (by omega)) (by omega),
      scalar?_toNat (c := c) (by omega) (by omega)]
    rfl

/-! ### Texts -/

theorem decodeFrom?_append (bs rest : Bytes) :
    decodeFrom? bs.length (bs ++ rest) = decodeFrom? 0 rest := by
  induction bs with
  | nil => rfl
  | cons b bs ih => rw [length_cons, cons_append, decodeFrom?, ih]

/-- **A text is read as it was written.** -/
theorem decode?_encode (t : Text) : decode? (encode t) = some t := by
  unfold decode? encode
  induction t with
  | nil => rfl
  | cons c t ih =>
    rw [flatMap_cons]
    have hhead := head?_utf8EncodeChar c (t.flatMap String.utf8EncodeChar)
    cases hbytes : String.utf8EncodeChar c with
    | nil =>
      have hne : String.utf8EncodeChar c ≠ [] := by
        unfold String.utf8EncodeChar
        simp only
        split_ifs <;> simp
      exact absurd hbytes hne
    | cons b bs =>
      rw [hbytes, cons_append] at hhead
      rw [cons_append, decodeFrom?, hhead, bind_eq_bind, bind_some]
      change (decodeFrom? bs.length (bs ++ t.flatMap String.utf8EncodeChar)).bind _ = _
      rw [decodeFrom?_append, ih]
      rfl

theorem decodeLossyFrom_of_decodeFrom? {skip : Nat} (h : decodeFrom? skip bs = some t) :
    decodeLossyFrom skip bs = t := by
  fun_induction decodeLossyFrom skip bs generalizing t with
  | case1 skip =>
    exact some.inj h
  | case2 skip b bs ih =>
    exact ih h
  | case3 b bs c width hhead ih =>
    rw [decodeFrom?, hhead, bind_eq_bind, bind_some] at h
    obtain ⟨t, ht, heq⟩ := bind_eq_some_iff.mp h
    rw [ih ht]
    exact some.inj heq
  | case4 b bs hhead ih =>
    rw [decodeFrom?, hhead] at h
    cases h

theorem decodeLossy_encode (t : Text) : decodeLossy (encode t) = t :=
  decodeLossyFrom_of_decodeFrom? (decode?_encode t)

theorem encodeLossy_eq (h : t.any isHalf = false) : encodeLossy t = encode t := by
  rw [encodeLossy, filter_eq_self.mpr]
  intro c hc
  simpa using any_eq_false.mp h c hc

/-! ### Zero bytes -/

theorem zero_notMem_utf8EncodeChar {c : Char} (h : c ≠ '\x00') : 0 ∉ String.utf8EncodeChar c := by
  have hpos : 0 < c.toNat := by
    refine Nat.pos_of_ne_zero fun hzero => h ?_
    rw [← Char.ofNat_toNat c, hzero]
  -- a byte of a character is never zero, and a byte of a wider one has its high bit set
  have hbyte : ∀ n, 0 < n → n < 256 → (0 : UInt8) ≠ ofNat n := by
    intro n hn hn' heq
    have := toNat_ofNat_of_lt hn'
    rw [← heq, show (0 : UInt8).toNat = 0 from rfl] at this
    omega
  unfold String.utf8EncodeChar
  simp only
  split_ifs
  all_goals simp only [mem_cons, not_mem_nil, or_false, not_or]
  · exact hbyte _ hpos (by omega)
  · exact ⟨hbyte _ (by omega) (by omega), hbyte _ (by omega) (by omega)⟩
  · exact ⟨hbyte _ (by omega) (by omega), hbyte _ (by omega) (by omega), hbyte _ (by omega) (by omega)⟩
  · exact ⟨hbyte _ (by omega) (by omega), hbyte _ (by omega) (by omega), hbyte _ (by omega) (by omega),
      hbyte _ (by omega) (by omega)⟩

theorem zero_notMem_encode (h : '\x00' ∉ t) : 0 ∉ encode t := by
  intro hmem
  obtain ⟨c, hc, hzero⟩ := mem_flatMap.mp hmem
  exact zero_notMem_utf8EncodeChar (fun heq => h (heq ▸ hc)) hzero

theorem zero_notMem_of_encode (h : 0 ∉ encode t) : '\x00' ∉ t := by
  intro hmem
  exact h (mem_flatMap.mpr ⟨'\x00', hmem, by decide⟩)

theorem encode?_eq_some_iff : encode? t = some bs ↔ t.any isHalf = false ∧ encode t = bs := by
  unfold encode?
  split
  · next h => simp [h]
  · next h => simp [h]

theorem encode?_eq (h : t.any isHalf = false) : encode? t = some (encode t) := by
  rw [encode?, h]
  rfl

theorem decode?_of_encode? (h : encode? t = some bs) : decode? bs = some t := by
  unfold encode? at h
  split at h
  · cases h
  · cases h
    exact decode?_encode t

end Localizer.Encoding.Utf8
