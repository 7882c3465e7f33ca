import Localizer.Word
import Mathlib

/-!
# Words read back

A word holds a number modulo a power of two, and reading the bytes of a word gives that number
again. Both directions are stated for any width and then for the two widths of a script image. A
word inside of a longer byte string is found by the length of what stands before it.
-/

namespace Localizer.Word

open List

variable {bs : Bytes} {n k : Nat}

@[simp] theorem length_bytes (width n : Nat) : (bytes width n).length = width := by
  induction width generalizing n with
  | zero => rfl
  | succ width ih => rw [bytes, length_cons, ih]

@[simp] theorem length_u32 (n : Int) : (u32 n).length = 4 := length_bytes 4 _

theorem value_bytes (width n : Nat) : value (bytes width n) = n % Nat.pow 256 width := by
  induction width generalizing n with
  | zero => exact (Nat.mod_one n).symm
  | succ width ih =>
    rw [bytes, value, ih, show Nat.pow 256 (width + 1) = 256 * Nat.pow 256 width from Nat.mul_comm _ _, Nat.mod_mul]
    simp

theorem value_lt (bs : Bytes) : value bs < Nat.pow 256 bs.length := by
  induction bs with
  | nil => exact Nat.one_pos
  | cons b bs ih =>
    have hb := b.toNat_lt
    rw [value, length_cons, show Nat.pow 256 (bs.length + 1) = Nat.pow 256 bs.length * 256 from rfl]
    omega

theorem value_lt_of_length (h : bs.length = 4) : value bs < 0x100000000 := by
  have := value_lt bs
  rwa [h] at this

theorem bytes_value (bs : Bytes) : bytes bs.length (value bs) = bs := by
  induction bs with
  | nil => rfl
  | cons b bs ih =>
    have hb : (b.toNat + 256 * value bs) % 256 = b.toNat := by have := b.toNat_lt; omega
    have hbs : (b.toNat + 256 * value bs) / 256 = value bs := by have := b.toNat_lt; omega
    rw [length_cons, value, bytes, hb, hbs, ih, UInt8.ofNat_toNat]

/-! ### The two widths of an image -/

theorem value_u32 (n : Nat) : value (u32 n) = n % 0x100000000 := by
  rw [u32, value_bytes, wrap]
  change ((n : Int) % ((0x100000000 : Nat) : Int)).toNat % 0x100000000 = _
  omega

theorem value_u32_of_lt (h : n < 0x100000000) : value (u32 n) = n := by
  rw [value_u32, Nat.mod_eq_of_lt h]

theorem wrap_of_lt {bits : Nat} (h : n < Nat.pow 2 bits) : wrap bits n = n := by
  rw [wrap, ← Int.natCast_emod, Int.toNat_natCast, Nat.mod_eq_of_lt h]

theorem u32_value (h : bs.length = 4) : u32 (value bs) = bs := by
  rw [u32, wrap_of_lt (value_lt_of_length h), ← h, bytes_value]

theorem u8_toNat (b : UInt8) : u8 b.toNat = [b] := by
  rw [u8, wrap_of_lt b.toNat_lt]
  simp [bytes]

/-! ### Bytes put in -/

section

variable {new : Bytes} {i width : Nat} (h : i + width ≤ bs.length) (hnew : new.length = width)

include h hnew

theorem length_overwrite : (overwrite bs i width new).length = bs.length := by
  simp only [overwrite, length_append, length_take, length_drop]
  omega

theorem drop_overwrite : (overwrite bs i width new).drop i = new ++ bs.drop (i + width) := by
  rw [overwrite, append_assoc]
  exact drop_left' (by rw [length_take]; omega)

theorem getElem?_overwrite (hk : k < i ∨ i + width ≤ k) :
    (overwrite bs i width new)[k]? = bs[k]? := by
  have hlen : (bs.take i).length = i := by
    rw [length_take]
    omega
  rcases hk with hk | hk
  · rw [overwrite, append_assoc, getElem?_append_left (by omega), getElem?_take_of_lt hk]
  · rw [overwrite, getElem?_append_right (by rw [length_append]; omega), getElem?_drop, length_append, hlen, hnew]
    congr 1
    omega

end

theorem take_drop_congr {as : Bytes} {q : Nat} (h : ∀ k, q ≤ k → k < q + n → as[k]? = bs[k]?) :
    (as.drop q).take n = (bs.drop q).take n := by
  refine ext_getElem? fun k => ?_
  rw [getElem?_take, getElem?_take]
  split
  · rw [getElem?_drop, getElem?_drop, h (q + k) (by omega) (by omega)]
  · rfl

/-! ### A word inside of a byte string -/

theorem u32At_lt (bs : Bytes) (offset : Nat) : u32At bs offset < 0x100000000 := by
  have hvalue := value_lt ((bs.drop offset).take 4)
  have hlen : ((bs.drop offset).take 4).length ≤ 4 := length_take_le _ _
  exact lt_of_lt_of_le hvalue (Nat.pow_le_pow_right (by decide) hlen)

/-! ### Words in a row -/

/-- Numbers as words, one after another. -/
def row (ns : List Int) : Bytes := ns.flatMap u32

@[simp] theorem length_row (ns : List Int) : (row ns).length = 4 * ns.length := by
  induction ns with
  | nil => rfl
  | cons n ns ih =>
    rw [row, flatMap_cons, length_append, length_u32, ← row, ih, length_cons]
    omega

theorem row_cons (n : Int) (ns : List Int) : row (n :: ns) = u32 n ++ row ns := flatMap_cons

theorem row_append (ns ms : List Int) : row (ns ++ ms) = row ns ++ row ms := flatMap_append

theorem value_u32_eq_wrap (n : Int) : value (u32 n) = wrap 32 n := by
  have hwrap : wrap 32 n < Nat.pow 256 4 := by
    change (n % ((0x100000000 : Nat) : Int)).toNat < 0x100000000
    omega
  rw [u32, value_bytes, Nat.mod_eq_of_lt hwrap]

theorem u32At_row {pre rest : Bytes} {ns : List Int} {n : Int} {offset : Nat} (hn : ns[k]? = some n)
    (ho : offset = pre.length + 4 * k) : u32At (pre ++ (row ns ++ rest)) offset = wrap 32 n := by
  obtain ⟨hk, rfl⟩ := List.getElem?_eq_some_iff.mp hn
  have hsplit : row ns = row (ns.take k) ++ (u32 ns[k] ++ row (ns.drop (k + 1))) := by
    rw [← row_cons, ← drop_eq_getElem_cons hk, ← row_append, take_append_drop]
  have hlen : (pre ++ row (ns.take k)).length = offset := by
    rw [length_append, length_row, length_take, ho]
    omega
  have hcat : pre ++ (row ns ++ rest) =
      (pre ++ row (ns.take k)) ++ (u32 ns[k] ++ (row (ns.drop (k + 1)) ++ rest)) := by
    rw [hsplit]
    simp
  rw [hcat, u32At, ← hlen, drop_left, take_left' (length_u32 _), value_u32_eq_wrap]

/-! ### Numbers that fit in a word -/

/-- The number is that of a word without a sign. -/
def FitsUnsigned (n : Int) : Prop := 0 ≤ n ∧ n < 0x100000000

def FitsSigned (n : Int) : Prop := -0x80000000 ≤ n ∧ n < 0x80000000

instance :
    DecidablePred FitsUnsigned := fun n => inferInstanceAs (Decidable (0 ≤ n ∧ n < 0x100000000))

instance :
    DecidablePred FitsSigned :=
  fun n => inferInstanceAs (Decidable (-0x80000000 ≤ n ∧ n < 0x80000000))

theorem wrap_of_fitsUnsigned {n : Int} (h : FitsUnsigned n) : (wrap 32 n : Int) = n := by
  obtain ⟨hlow, hhigh⟩ := h
  change ((n % ((0x100000000 : Nat) : Int)).toNat : Int) = n
  omega

theorem signed_wrap_of_fitsSigned {n : Int} (h : FitsSigned n) : signed 32 (wrap 32 n) = n := by
  obtain ⟨hlow, hhigh⟩ := h
  change (if (n % ((0x100000000 : Nat) : Int)).toNat < 0x80000000 then ((n % ((0x100000000 : Nat) : Int)).toNat : Int)
    else ((n % ((0x100000000 : Nat) : Int)).toNat : Int) - ((0x100000000 : Nat) : Int)) = n
  split <;> omega

theorem wrap_signed (h : n < 0x100000000) : wrap 32 (signed 32 n) = n := by
  change ((if n < 0x80000000 then (n : Int) else (n : Int) - ((0x100000000 : Nat) : Int)) %
    ((0x100000000 : Nat) : Int)).toNat = n
  split <;> omega

theorem u32_signed (h : n < 0x100000000) : u32 (signed 32 n) = u32 n := by
  rw [u32, wrap_signed h, u32, wrap_of_lt h]

theorem fitsSigned_signed (h : n < 0x100000000) : FitsSigned (signed 32 n) := by
  change _ ≤ (if n < 0x80000000 then (n : Int) else (n : Int) - ((0x100000000 : Nat) : Int)) ∧
    (if n < 0x80000000 then (n : Int) else (n : Int) - ((0x100000000 : Nat) : Int)) < _
  split <;> omega

end Localizer.Word
