import Localizer.Encoding.Cp932
import Localizer.Encoding.Utf8
import Localizer.Proofs.Assoc

/-!
# What the code page can hold

Two facts about the bytes and the characters of code page 932 that string regions rest on. A zero
byte is written for the zero character only, so zero bytes can end strings. And no byte string reads
as a text with a byte order mark, so a text that came out of an image never begins with one.

Both come down to the rows: none has more characters than there are trail bytes, and none has the
mark in it. Nor has a row a character beyond the basic plane, so the code page has none of them.
Writing goes character by character.
-/

namespace Localizer.Encoding.Cp932

open List hiding replace

variable {r : Nat × String} {c : Char} {bs : Bytes}
variable {lead i n width : Nat} {t : Text} {b : UInt8}

/-! ### The rows -/

/-- What is checked of a row: it is not longer than the number of trail bytes, and has only
characters of the basic plane. None of them is the byte order mark or a basic character, but for the
mark for codes without a character. -/
def rowFits (row : List Char) : Bool :=
  row.length.ble 188 && row.all fun c => c.toNat.blt 0x10000 && !c.toNat.beq 0xFEFF && (c.toNat.beq 0x2E || Nat.ble 0x80 c.toNat)

theorem toList_of_ofList {P : List Char → Prop} {s : String} (l : List Char)
    (h : s = String.ofList l) (hl : P l) : P s.toList := by
  rwa [h, String.toList_ofList]

set_option maxRecDepth 4000 in
theorem rowFits_of_mem_rows : ∀ r ∈ rows, rowFits r.2.toList = true := by
  simp only [rows, forall_mem_cons, not_mem_nil, false_implies, implies_true, and_true]
  repeat'
    first
    | exact toList_of_ofList (P := fun l => rowFits l = true) _ rfl (by decide +kernel)
    | apply And.intro

theorem of_mem_rows (h : r ∈ rows) :
    r.2.toList.length ≤ 188 ∧
      ∀ c ∈ r.2.toList, c.toNat < 0x10000 ∧ c.toNat ≠ 0xFEFF ∧ (c.toNat = 0x2E ∨ 0x80 ≤ c.toNat) := by
  have hr := rowFits_of_mem_rows r h
  simp only [rowFits, Bool.and_eq_true, all_eq_true, Bool.or_eq_true, Bool.not_eq_true', ← Bool.not_eq_true, Nat.ble_eq,
    Nat.blt_eq, Nat.beq_eq, and_assoc] at hr
  exact hr

theorem lead_of_mem_rows : ∀ r ∈ rows, r.1 < 256 ∧ isLead (UInt8.ofNat r.1) = true := by decide

theorem of_mem_lookAlikes :
    ∀ p ∈ lookAlikes, p.1.toNat < 0x10000 ∧ isLead (UInt8.ofNat p.2.1) = true ∧ UInt8.ofNat p.2.2 ≠ 0 := by decide

/-! ### The codes of characters -/

theorem getElem?_addRow {l j : Nat} {cs : List Char} {codes : Std.HashMap Nat (Nat × Nat)}
    (h : (addRow lead i cs codes)[n]? = some (l, j)) :
    codes[n]? = some (l, j) ∨ l = lead ∧ i ≤ j ∧ ∃ c, cs[j - i]? = some c ∧ c.toNat = n := by
  induction cs generalizing i codes with
  | nil => exact .inl h
  | cons c cs ih =>
    rcases ih h with h | ⟨hl, hi, hc⟩
    · split at h
      · exact .inl h
      · rw [Std.HashMap.getElem?_insertIfNew] at h
        split at h
        · next hc =>
          cases h
          exact .inr ⟨rfl, Nat.le_refl _, c, by simp, by simpa using hc.1⟩
        · exact .inl h
    · refine .inr ⟨hl, by omega, ?_⟩
      rwa [show j - i = j - (i + 1) + 1 by omega]

theorem getElem?_codeTable (h : codeTable[n]? = some (lead, i)) :
    ∃ r ∈ rows, lead = r.1 ∧ ∃ c, r.2.toList[i]? = some c ∧ c.toNat = n := by
  have key : ∀ (rs : List (Nat × String)) (codes : Std.HashMap Nat (Nat × Nat)),
      (rs.foldl (fun codes r => addRow r.1 0 r.2.toList codes) codes)[n]? = some (lead, i) →
      codes[n]? = some (lead, i) ∨ ∃ r ∈ rs, lead = r.1 ∧ ∃ c, r.2.toList[i]? = some c ∧ c.toNat = n := by
    intro rs
    induction rs with
    | nil => exact fun _ h => .inl h
    | cons r rs ih =>
      intro codes h
      rcases ih _ h with h | ⟨r', hr', h⟩
      · rcases getElem?_addRow h with h | ⟨hl, -, hc⟩
        · exact .inl h
        · exact .inr ⟨r, mem_cons_self, hl, hc⟩
      · exact .inr ⟨r', mem_cons_of_mem r hr', h⟩
  rcases key rows ∅ h with h | h
  · simp at h
  · exact h

theorem isLead_eq (b : UInt8) :
    isLead b = decide ((0x81 ≤ b.toNat ∧ b.toNat ≤ 0x9F) ∨ (0xE0 ≤ b.toNat ∧ b.toNat ≤ 0xFC)) := by
  simp [isLead, UInt8.le_iff_toNat_le, Bool.decide_or, Bool.decide_and]

theorem trailAt_ne_zero (h : i < 188) : trailAt i ≠ 0 := by
  unfold trailAt
  split <;> exact fun he => absurd (congrArg UInt8.toNat he) (by rw [UInt8.toNat_ofNat_of_lt' (by show _ < 256; omega)]; simp)

/-- A code of the code page: one byte that is no lead byte, or a lead byte with another one, which
is not zero. -/
inductive IsCode : Bytes → Prop
  | one {b : UInt8} : isLead b = false → IsCode [b]
  | two {a b : UInt8} : isLead a = true → b ≠ 0 → IsCode [a, b]

/-- **What has a code.** The character is one of the basic plane, and only the zero character has a
single zero for its code. -/
theorem of_encodeChar? (h : encodeChar? c = some bs) :
    IsCode bs ∧ c.toNat < 0x10000 ∧ (bs = [0] → c.toNat = 0) := by
  have hone : ∀ {n : Nat}, n ≤ 0x80 ∨ (0xA0 ≤ n ∧ n ≤ 0xDF) ∨ (0xFD ≤ n ∧ n < 256) →
      IsCode [UInt8.ofNat n] ∧ ([UInt8.ofNat n] = [0] → n = 0) := fun {n} hn => by
    have hnat : (UInt8.ofNat n).toNat = n := UInt8.toNat_ofNat_of_lt' (by show _ < 256; omega)
    refine ⟨.one ?_, fun h0 => ?_⟩
    · rw [isLead_eq, hnat, decide_eq_false_iff_not]
      omega
    · rw [← hnat, (cons.inj h0).1]
      rfl
  unfold encodeChar? at h
  simp only [Bool.and_eq_true, decide_eq_true_eq] at h
  -- one case for each range of code points, in the order of the definition
  split at h
  · cases h
    obtain ⟨hcode, h0⟩ := hone (.inl ‹_›)
    exact ⟨hcode, by omega, h0⟩
  split at h
  · cases h
    obtain ⟨hcode, h0⟩ := @hone (c.toNat - 0xFF61 + 0xA1) (by omega)
    exact ⟨hcode, by omega, fun h => by have := h0 h; omega⟩
  split at h
  · cases h
    exact ⟨.one (by decide), by omega, fun h => absurd h (by decide)⟩
  split at h
  · cases h
    obtain ⟨hcode, h0⟩ := @hone (c.toNat - 0xF8F1 + 0xFD) (by omega)
    exact ⟨hcode, by omega, fun h => by have := h0 h; omega⟩
  split at h
  · cases h
    refine ⟨.two ?_ (trailAt_ne_zero (Nat.mod_lt _ (by decide))), by omega, fun h => absurd h (by simp)⟩
    rw [isLead_eq, UInt8.toNat_ofNat_of_lt' (by show _ < 256; omega), decide_eq_true_eq]
    omega
  split at h
  · next a b hlook =>
    cases h
    obtain ⟨hplane, hlead, htrail⟩ := of_mem_lookAlikes (c, a, b) (Assoc.mem_of_lookup hlook)
    exact ⟨.two hlead htrail, hplane, fun h => absurd h (by simp)⟩
  · obtain ⟨⟨lead, i⟩, hcode, rfl⟩ := Option.map_eq_some_iff.mp h
    obtain ⟨r, hr, rfl, d, hd, hc⟩ := getElem?_codeTable hcode
    obtain ⟨hlen, hrow⟩ := of_mem_rows hr
    have hi := (List.getElem?_eq_some_iff.mp hd).1
    exact ⟨.two (lead_of_mem_rows r hr).2 (trailAt_ne_zero (by omega)), hc ▸ (hrow d (mem_of_getElem? hd)).1,
      fun h => absurd h (by simp)⟩

/-- **The code page has no character beyond the basic plane.** -/
theorem encodeChar?_eq_none (h : 0x10000 ≤ c.toNat) : encodeChar? c = none := by
  by_contra hcode
  obtain ⟨bs, hbs⟩ := Option.ne_none_iff_exists'.mp hcode
  exact absurd (of_encodeChar? hbs).2.1 (Nat.not_lt_of_le h)

/-- **Only the zero character is written with a zero byte.** -/
theorem zero_not_mem_encodeChar? (h : encodeChar? c = some bs) (hc : c ≠ '\x00') : 0 ∉ bs := by
  obtain ⟨hcode, -, h0⟩ := of_encodeChar? h
  cases hcode with
  | one _ =>
    intro hmem
    have hnat := h0 (by rw [mem_singleton.mp hmem])
    exact hc (by rw [← Char.ofNat_toNat c, hnat])
  | @two a b hlead htrail =>
    have ha : a ≠ 0 := by
      rintro rfl
      cases hlead
    exact not_mem_cons_of_ne_of_not_mem ha.symm (mt mem_singleton.mp htrail.symm)

theorem zero_not_mem_encodeLossy (h : '\x00' ∉ t) : 0 ∉ encodeLossy t := by
  intro h0
  obtain ⟨c, hc, h0⟩ := mem_flatMap.mp h0
  cases he : encodeChar? c with
  | none => simp [he] at h0
  | some bs =>
    rw [he] at h0
    exact zero_not_mem_encodeChar? he (fun hz => h (hz ▸ hc)) h0

/-! ### Byte order marks -/

theorem leads_nodup : (rows.map Prod.fst).Nodup := by decide

theorem getElem?_foldl_rows {rs : List (Nat × String)} (hnodup : (rs.map Prod.fst).Nodup)
    {table : Array (Array Char)} (hsize : ∀ r ∈ rs, r.1 < table.size) (lead : Nat) :
    (rs.foldl (fun table r => table.setIfInBounds r.1 r.2.toList.toArray) table)[lead]? =
      ((rs.lookup lead).map fun row => row.toList.toArray).or table[lead]? := by
  induction rs generalizing table with
  | nil => rfl
  | cons r rs ih =>
    rw [map_cons, nodup_cons] at hnodup
    have hrest : ∀ r' ∈ rs, r'.1 < (table.setIfInBounds r.1 r.2.toList.toArray).size := fun r' hr' => by
      rw [Array.size_setIfInBounds]
      exact hsize r' (mem_cons_of_mem r hr')
    rw [foldl_cons, ih hnodup.2 hrest, Array.getElem?_setIfInBounds, lookup_cons]
    by_cases hlead : r.1 = lead
    · have hnone : rs.lookup lead = none := by
        rw [lookup_eq_none_iff]
        intro r' hr'
        simp only [bne_iff_ne, ne_eq]
        rintro rfl
        exact hnodup.1 (hlead ▸ mem_map_of_mem hr')
      rw [if_pos hlead, if_pos (hsize r mem_cons_self), hnone, hlead, beq_self_eq_true]
      rfl
    · have hne : (lead == r.1) = false := beq_false_of_ne (Ne.symm hlead)
      rw [if_neg hlead, hne]

theorem getElem?_rowTable (lead : Nat) :
    rowTable[lead]? =
      ((rows.lookup lead).map fun row => row.toList.toArray).or (Array.replicate 256 #[])[lead]? :=
  getElem?_foldl_rows leads_nodup (fun r hr => (lead_of_mem_rows r hr).1.trans_eq Array.size_replicate.symm) lead

theorem exists_row_of_rowTable {row : Array Char} (h : rowTable[lead]? = some row) (hc : c ∈ row) :
    ∃ r ∈ rows, c ∈ r.2.toList := by
  rw [getElem?_rowTable] at h
  cases hrow : rows.lookup lead with
  | some s =>
    rw [hrow] at h
    cases h
    exact ⟨_, Assoc.mem_of_lookup hrow, by simpa using hc⟩
  | none =>
    rw [hrow, Option.map_none, Option.none_or, Array.getElem?_replicate] at h
    split at h
    · cases h
      simp at hc
    · cases h

theorem trailIndex?_lt (h : trailIndex? b = some i) : i < 188 := by
  unfold trailIndex? at h
  simp only [Bool.and_eq_true, decide_eq_true_eq, UInt8.le_iff_toNat_le] at h
  split at h
  · cases h
    have : (0x7E : UInt8).toNat = 0x7E := rfl
    omega
  split at h
  · cases h
    have : (0xFC : UInt8).toNat = 0xFC := rfl
    omega
  · cases h

theorem toNat_ofNat (h : n.isValidChar) : (Char.ofNat n).toNat = n := by
  rw [Char.ofNat, dif_pos h]
  rfl

theorem double?_cases {lead trail : UInt8} (h : double? lead trail = some c) :
    0x80 ≤ c.toNat ∧ c.toNat < 0xFEFF ∨ c ≠ '.' ∧ ∃ r ∈ rows, c ∈ r.2.toList := by
  obtain ⟨i, hi, h⟩ := Option.bind_eq_some_iff.mp h
  have hi := trailIndex?_lt hi
  have hlead := lead.toNat_lt
  split at h
  · rw [← Option.some.inj h, toNat_ofNat (.inr ⟨by omega, by omega⟩)]
    omega
  · obtain ⟨row, hrow, h⟩ := Option.bind_eq_some_iff.mp h
    obtain ⟨hget, hdot⟩ := Option.filter_eq_some_iff.mp h
    exact .inr ⟨by simpa using hdot, exists_row_of_rowTable hrow (Array.mem_of_getElem? hget)⟩

theorem single?_cases (h : single? b = some c) :
    c.toNat = b.toNat ∧ b.toNat ≤ 0x80 ∨ 0x80 < c.toNat ∧ c.toNat ≠ 0xFEFF := by
  have hb := b.toNat_lt
  unfold single? at h
  split at h
  · next hle => exact .inl ⟨by rw [← Option.some.inj h, toNat_ofNat (.inl (by omega))], hle⟩
  split at h
  · exact .inr (by rw [← Option.some.inj h]; decide)
  split at h
  · rw [← Option.some.inj h, toNat_ofNat (.inr ⟨by omega, by omega⟩)]
    omega
  split at h
  · rw [← Option.some.inj h, toNat_ofNat (.inr ⟨by omega, by omega⟩)]
    omega
  · cases h

theorem head?_cases (h : head? bs = some (c, width)) :
    (∃ a ∈ bs, single? a = some c) ∨ ∃ a b, double? a b = some c := by
  unfold head? at h
  split at h
  · cases h
  split at h
  · split at h
    · obtain ⟨c, hc, h⟩ := Option.map_eq_some_iff.mp h
      cases h
      exact .inr ⟨_, _, hc⟩
    · cases h
  · obtain ⟨c, hc, h⟩ := Option.map_eq_some_iff.mp h
    cases h
    exact .inl ⟨_, mem_cons_self, hc⟩

theorem head?_ne_byteOrderMark (h : head? bs = some (c, width)) : c ≠ Utf8.byteOrderMark := by
  rintro rfl
  rcases head?_cases h with ⟨a, -, ha⟩ | ⟨a, b, hab⟩
  · rcases single?_cases ha with ⟨heq, hle⟩ | ⟨-, hne⟩
    · exact absurd (heq ▸ hle) (by decide)
    · exact hne rfl
  · rcases double?_cases hab with ⟨-, hlt⟩ | ⟨-, r, hr, hmem⟩
    · exact absurd hlt (by decide)
    · exact ((of_mem_rows hr).2 _ hmem).2.1 rfl

/-- **No byte string reads as a text with a byte order mark.** -/
theorem byteOrderMark_not_mem_decodeLossy (bs : Bytes) : Utf8.byteOrderMark ∉ decodeLossy bs := by
  have key : ∀ (bs : Bytes) (skip : Nat), Utf8.byteOrderMark ∉ decodeMarkingFrom [] skip bs := by
    intro bs
    induction bs with
    | nil => intro skip; cases skip <;> simp [decodeMarkingFrom]
    | cons b bs ih =>
      intro skip
      cases skip with
      | succ skip => exact ih skip
      | zero =>
        rw [decodeMarkingFrom]
        split
        · next c width hc => exact not_mem_cons_of_ne_of_not_mem (head?_ne_byteOrderMark hc).symm (ih _)
        · exact ih 0
  exact key bs 0

/-! ### Texts put together -/

theorem encode?_singleton (c : Char) : encode? [c] = encodeChar? c := by
  rw [encode?, mapM_cons]
  cases encodeChar? c with
  | none => rfl
  | some bs => simp

theorem encode?_append {s : Text} {cs : Bytes} (hs : encode? s = some bs) (ht : encode? t = some cs) :
    encode? (s ++ t) = some (bs ++ cs) := by
  obtain ⟨bss, hbss, rfl⟩ := Option.map_eq_some_iff.mp hs
  obtain ⟨css, hcss, rfl⟩ := Option.map_eq_some_iff.mp ht
  rw [encode?, mapM_append, hbss, hcss]
  simp

theorem encode?_flatMap {f : Char → Text} {g : Char → Bytes} (h : ∀ c, encode? (f c) = some (g c))
    (t : Text) : encode? (t.flatMap f) = some (t.flatMap g) := by
  induction t with
  | nil => rfl
  | cons c t ih =>
    exact encode?_append (h c) ih

/-! ## Texts that come back from the code page

Reading goes by the bytes of one character after another, because the first byte of a code tells how
many there are. So a text comes back from the code page exactly if each of its characters does
(`comesBack_iff`). The rows hold none of the basic characters: a zero character is read from a zero
byte only. -/

/-! ### Looking a row up -/

def hiraganaRow : Nat × String := rows.get ⟨1, by decide⟩

set_option maxRecDepth 4000 in
theorem getElem?_hiraganaRow : hiraganaRow.2.toList[95]? = some 'あ' :=
  toList_of_ofList (P := fun l => l[95]? = some 'あ') _ rfl (by decide)

theorem double?_hiragana : double? 0x82 0xA0 = some 'あ' := by
  have hlookup : rows.lookup (0x82 : UInt8).toNat = some hiraganaRow.2 := rfl
  have hrow := getElem?_rowTable (0x82 : UInt8).toNat
  rw [hlookup, Option.map_some, Option.some_or] at hrow
  have htrail : trailIndex? 0xA0 = some 95 := by decide
  have hprivate : ¬ ((0xF0 ≤ (0x82 : UInt8) && (0x82 : UInt8) ≤ 0xF9) = true) := by decide
  unfold double?
  rw [htrail, Option.bind_eq_bind, Option.bind_some, if_neg hprivate, hrow, Option.bind_eq_bind, Option.bind_some,
    getElem?_toArray, getElem?_hiraganaRow]
  rfl

/-! ### Basic characters -/

/-- **No code of two bytes stands for a basic character.** -/
theorem le_toNat_of_double? {lead trail : UInt8} (h : double? lead trail = some c) :
    0x80 ≤ c.toNat := by
  rcases double?_cases h with ⟨hle, -⟩ | ⟨hdot, r, hr, hmem⟩
  · exact hle
  · exact ((of_mem_rows hr).2 c hmem).2.2.resolve_left fun hc => hdot (Char.toNat_inj.mp hc)

theorem head?_zero {width : Nat} (h : head? bs = some ('\x00', width)) : 0 ∈ bs := by
  rcases head?_cases h with ⟨a, ha, hsingle⟩ | ⟨a, b, hdouble⟩
  · rcases single?_cases hsingle with ⟨heq, -⟩ | ⟨hlt, -⟩
    · rwa [← UInt8.toNat_inj.mp (show (0 : UInt8).toNat = a.toNat from heq)] at ha
    · exact absurd hlt (by decide)
  · exact absurd (le_toNat_of_double? hdouble) (by decide)

/-- **A byte string without zeros reads as a text without zero characters.** -/
theorem zero_not_mem_decode? (h : decode? bs = some t) (h0 : 0 ∉ bs) : '\x00' ∉ t := by
  have key : ∀ (bs : Bytes) (skip : Nat) (t : Text), decodeFrom? skip bs = some t → 0 ∉ bs → '\x00' ∉ t := by
    intro bs
    induction bs with
    | nil =>
      intro skip t ht _
      cases ht
      exact not_mem_nil
    | cons b bs ih =>
      intro skip t ht h0
      have hrest : 0 ∉ bs := fun hmem => h0 (mem_cons_of_mem b hmem)
      cases skip with
      | succ skip => exact ih skip t ht hrest
      | zero =>
        obtain ⟨⟨c, width⟩, hhead, ht⟩ := Option.bind_eq_some_iff.mp ht
        obtain ⟨u, hu, ht⟩ := Option.bind_eq_some_iff.mp ht
        cases ht
        rw [mem_cons, not_or]
        refine ⟨?_, ih _ u hu hrest⟩
        rintro rfl
        exact h0 (head?_zero hhead)
  exact key bs 0 t h h0

/-! ### Character by character -/

theorem decode?_code_append {code : Bytes} (h : IsCode code) (bs : Bytes) :
    decode? (code ++ bs) = (head? code).bind fun p => (decode? bs).map (p.1 :: ·) := by
  cases h with
  | @one b hb =>
    rw [singleton_append, decode?, decodeFrom?]
    simp only [head?, hb, Bool.false_eq_true, if_false]
    cases single? b with
    | none => rfl
    | some c => cases hbs : decodeFrom? 0 bs <;> simp [decode?, hbs]
  | @two a b ha _ =>
    rw [cons_append, singleton_append, decode?, decodeFrom?]
    simp only [head?, ha, if_true]
    cases hc : double? a b with
    | none => simp
    | some c => cases hbs : decodeFrom? 0 bs <;> simp [decode?, decodeFrom?, hbs]

/-- A text that is read again from its bytes. -/
def ComesBack (t : Text) : Prop := (encode? t).bind decode? = some t

instance (t : Text) : Decidable (ComesBack t) := inferInstanceAs (Decidable (_ = _))

theorem comesBack_nil : ComesBack [] := rfl

theorem encode?_cons (c : Char) (t : Text) :
    encode? (c :: t) = (encodeChar? c).bind fun code => (encode? t).map (code ++ ·) := by
  rw [encode?, encode?, mapM_cons]
  cases encodeChar? c with
  | none => rfl
  | some code => cases t.mapM encodeChar? <;> rfl

theorem comesBack_cons_iff (c : Char) (t : Text) :
    ComesBack (c :: t) ↔ ComesBack [c] ∧ ComesBack t := by
  unfold ComesBack
  rw [encode?_singleton, encode?_cons]
  cases hcode : encodeChar? c with
  | none => simp
  | some code =>
    have hread := decode?_code_append (of_encodeChar? hcode).1
    have hone : decode? code = (head? code).map fun p => [p.1] := by
      rw [← append_nil code, hread, append_nil]
      cases head? code <;> rfl
    cases ht : encode? t with
    | none => simp
    | some bs =>
      simp only [Option.bind_some, Option.map_some, hread, hone]
      cases head? code with
      | none => simp
      | some p => cases decode? bs <;> simp

/-- **A text comes back exactly if each of its characters does.** -/
theorem comesBack_iff (t : Text) : ComesBack t ↔ ∀ c ∈ t, ComesBack [c] := by
  induction t with
  | nil => simp [comesBack_nil]
  | cons c t ih => rw [comesBack_cons_iff, ih, forall_mem_cons]

theorem exists_of_encode?_cons (h : encode? (c :: t) = some bs) :
    ∃ code rest, encodeChar? c = some code ∧ encode? t = some rest ∧ code ++ rest = bs := by
  rw [encode?_cons] at h
  obtain ⟨code, hcode, h⟩ := Option.bind_eq_some_iff.mp h
  obtain ⟨rest, hrest, h⟩ := Option.map_eq_some_iff.mp h
  exact ⟨code, rest, hcode, hrest, h⟩

theorem encodeLossy_of_encode? (h : encode? t = some bs) : encodeLossy t = bs := by
  induction t generalizing bs with
  | nil =>
    cases h
    rfl
  | cons c t ih =>
    obtain ⟨code, rest, hcode, hrest, rfl⟩ := exists_of_encode?_cons h
    rw [encodeLossy, flatMap_cons, hcode, ← ih hrest]
    rfl

/-! ### Reading one character -/

theorem decodeLossy_basic (h : b ≤ 0x80) (bs : Bytes) :
    decodeLossy (b :: bs) = Char.ofNat b.toNat :: decodeLossy bs := by
  have hlead : isLead b = false := by
    rw [UInt8.le_iff_toNat_le] at h
    have h80 : (0x80 : UInt8).toNat = 0x80 := rfl
    rw [isLead_eq, decide_eq_false_iff_not]
    omega
  have hhead : head? (b :: bs) = some (Char.ofNat b.toNat, 1) := by
    simp [head?, hlead, single?, if_pos h]
  simp only [decodeLossy, decodeMarkingFrom, hhead, Nat.sub_self]

theorem decodeLossy_double {a : UInt8} (ha : isLead a = true) (h : double? a b = some c)
    (bs : Bytes) : decodeLossy (a :: b :: bs) = c :: decodeLossy bs := by
  have hhead : head? (a :: b :: bs) = some (c, 2) := by
    simp [head?, ha, h]
  simp only [decodeLossy, decodeMarkingFrom, hhead]

end Localizer.Encoding.Cp932
