import Localizer.Proofs.Encoding.Cp932
import Localizer.Proofs.Word
import Localizer.Script.Image

/-!
# Images and string regions

An image that was put together from its regions gives them back: the header points at each region,
and what it points at is what was put in. The only condition is that offsets and sizes fit in words,
which they do in an image of less than 2^32 bytes.
-/

namespace Localizer.Script

open List Word

/-! ### Words in a row -/

/-- Numbers as words, one after another. -/
def wordRow (ns : List Nat) : Bytes := ns.flatMap fun n : Nat => u32 n

theorem wordRow_eq_row (ns : List Nat) : wordRow ns = row (ns.map fun n : Nat => (n : Int)) := by
  rw [wordRow, row, flatMap_map]

theorem length_wordRow (ns : List Nat) : (wordRow ns).length = 4 * ns.length := by
  rw [wordRow_eq_row, length_row, length_map]

theorem u32At_wordRow {pre rest : Bytes} {ns : List Nat} {k offset n : Nat} (hn : ns[k]? = some n)
    (ho : offset = pre.length + 4 * k) :
    u32At (pre ++ (wordRow ns ++ rest)) offset = n % 0x100000000 := by
  have hrow : (ns.map fun n : Nat => (n : Int))[k]? = some (n : Int) := by rw [getElem?_map, hn, Option.map_some]
  rw [wordRow_eq_row, u32At_row hrow ho, ← value_u32_eq_wrap, value_u32]

/-! ### Regions -/

theorem region_append {pre mid post : Bytes} {start size : Nat} (hpre : pre.length = start)
    (hmid : mid.length = size) : region (pre ++ (mid ++ post)) start size = mid := by
  subst hpre hmid
  unfold region
  split
  · next h =>
    simp only [Bool.or_eq_true, decide_eq_true_eq] at h
    rw [length_eq_zero_iff.mp (by omega : mid.length = 0)]
  · rw [Int.toNat_natCast, Int.toNat_natCast, drop_left, take_left]

/-! ### The header -/

section

variable (filename : Text) (table : Bytes) (count : Nat) (code strings1 strings2 : Bytes)

def strings1Start : Nat := (headerSize + table.length + code.length + 3) / 4 * 4

def headerFields : List Nat :=
  [headerSize, count, headerSize + table.length, code.length, strings1Start table code, strings1.length,
    strings1Start table code + strings1.length, strings2.length]

theorem le_strings1Start : headerSize + table.length + code.length ≤ strings1Start table code := by
  unfold strings1Start
  omega

theorem buildImage_eq : ∃ pre, pre.length = 0x24 ∧
    buildImage filename table count code strings1 strings2 =
      pre ++ (wordRow (headerFields table count code strings1 strings2) ++
        (table ++ (code ++ (replicate (strings1Start table code - headerSize - table.length - code.length) 0 ++
          (strings1 ++ strings2))))) := by
  have hname := length_take_le nameSize (basicBytes filename)
  refine ⟨replicate nameOffset 0 ++ (basicBytes filename).take nameSize ++
    replicate (nameSize - ((basicBytes filename).take nameSize).length) 0 ++
    replicate (0x24 - nameOffset - nameSize) 0, ?_, ?_⟩
  · simp only [length_append, length_replicate]
    unfold nameOffset nameSize at *
    omega
  · rw [Nat.sub_sub (strings1Start table code) headerSize table.length]
    unfold buildImage wordRow headerFields strings1Start
    simp [flatMap_cons, flatMap_nil]

theorem length_buildImage : (buildImage filename table count code strings1 strings2).length =
    strings1Start table code + strings1.length + strings2.length := by
  obtain ⟨pre, hpre, heq⟩ := buildImage_eq filename table count code strings1 strings2
  have hle := le_strings1Start table code
  rw [heq]
  simp only [length_append, length_wordRow, hpre, length_replicate, headerFields, length_cons,
    length_nil]
  unfold headerSize at *
  omega

def imageHeader : Header where
  filename := basicText (Text.upTo 0
    (((buildImage filename table count code strings1 strings2).drop nameOffset).take nameSize))
  entryOffset := headerSize
  entryCount := count
  codeOffset := headerSize + table.length
  codeSize := code.length
  strings1Offset := strings1Start table code
  strings1Size := strings1.length
  strings2Offset := strings1Start table code + strings1.length
  strings2Size := strings2.length

variable {filename table count code strings1 strings2} {image : Bytes}
  (himage : buildImage filename table count code strings1 strings2 = image)
  (hcount : count < 0x100000000) (hsize : image.length < 0x100000000)

include himage hcount hsize

theorem readHeader_eq :
    readHeader image = .ok (imageHeader filename table count code strings1 strings2) := by
  have hlen := length_buildImage filename table count code strings1 strings2
  have hle := le_strings1Start table code
  obtain ⟨pre, hpre, heq⟩ := buildImage_eq filename table count code strings1 strings2
  rw [himage] at hlen heq
  -- every field fits in a word
  have hfield : ∀ k n, (headerFields table count code strings1 strings2)[k]? = some n → n < 0x100000000 →
      u32At image (0x24 + 4 * k) = n := by
    intro k n hk hn
    rw [heq, u32At_wordRow hk (by rw [hpre]), Nat.mod_eq_of_lt hn]
  rw [readHeader, if_neg (by omega), hfield 0 headerSize rfl (by omega), hfield 1 count rfl hcount,
    hfield 2 _ rfl (by omega), hfield 3 _ rfl (by omega), hfield 4 _ rfl (by omega), hfield 5 _ rfl (by omega),
    hfield 6 _ rfl (by omega), hfield 7 _ rfl (by omega), imageHeader, himage]

/-- **The header of an image points at the regions that the image was put together from.** -/
theorem readHeader_buildImage :
    ∃ h, readHeader image = .ok h ∧ h.entryCount = count ∧ region image h.entryOffset table.length = table ∧
      h.code image = code ∧ h.strings1 image = strings1 ∧ h.strings2 image = strings2 := by
  refine ⟨_, readHeader_eq himage hcount hsize, rfl, ?_⟩
  have hle := le_strings1Start table code
  obtain ⟨pre, hpre, heq⟩ := buildImage_eq filename table count code strings1 strings2
  rw [himage] at heq
  generalize hpad : replicate (strings1Start table code - headerSize - table.length - code.length) (0 : UInt8) = pad
    at heq
  have hpre' : (pre ++ wordRow (headerFields table count code strings1 strings2)).length = headerSize := by
    rw [length_append, hpre, length_wordRow]
    rfl
  have hpadlen : pad.length = strings1Start table code - headerSize - table.length - code.length := by
    rw [← hpad, length_replicate]
  generalize wordRow (headerFields table count code strings1 strings2) = fields at heq hpre'
  have hstart : (pre ++ fields ++ table ++ code ++ pad).length = strings1Start table code := by
    rw [length_append, length_append, length_append, hpre', hpadlen]
    omega
  refine ⟨?_, ?_, ?_, ?_⟩
  · rw [heq, ← append_assoc]
    exact region_append hpre' rfl
  · rw [heq, Header.code, ← append_assoc, ← append_assoc]
    exact region_append (by rw [length_append, hpre']; rfl) rfl
  · rw [heq, Header.strings1, ← append_assoc, ← append_assoc, ← append_assoc, ← append_assoc]
    exact region_append hstart rfl
  · have hcat : image = (pre ++ fields ++ table ++ code ++ pad ++ strings1) ++ (strings2 ++ []) := by
      rw [heq]
      simp
    rw [hcat, Header.strings2]
    exact region_append (by rw [length_append, hstart]; rfl) rfl

end

/-! ## String regions as they are built and as they are read

A region is read in two ways. `readString` takes the bytes from an offset up to the next zero byte,
and the index of a region finds the maximal run of other bytes that an offset belongs to. `StringAt`
says that a string begins at an offset and is ended there by a zero byte, and both readers then give
that string.

A region is built in a pool. `Pool.Holds` says which texts a pool has written one after another:
first the names, each of them, then the further texts, each once. It also says that every offset the
pool gives out is the place of its text. Adding to a pool keeps this, so every offset given out
stays right whatever is added later. -/

open Encoding Cp932 StringIndex Option

variable {offset : Nat} {t : Text} {ts : List Text}
variable {k j o : Nat} {r region s : Bytes}

/-! ### Runs of bytes -/

theorem mem_runs {bs : Bytes} (h : (j, r) ∈ runs k bs) :
    k ≤ j ∧ j + r.length ≤ k + bs.length ∧ r ≠ [] := by
  fun_induction runs k bs generalizing j r <;> grind

theorem runs_append_zero (k : Nat) (a b : Bytes) :
    runs k (a ++ 0 :: b) = runs k a ++ runs (k + a.length + 1) b := by
  induction a generalizing k with
  | nil => simp [runs]
  | cons x a ih =>
    rw [cons_append, runs, runs, ih]
    have hlen : k + 1 + a.length + 1 = k + (x :: a).length + 1 := by rw [length_cons]; omega
    rw [hlen]
    split
    · rfl
    · cases ha : runs (k + 1) a with
      | cons p rs =>
        simp only [cons_append]
        split <;> rfl
      | nil =>
        -- what follows the zero byte starts too far on to be joined
        cases hb : runs (k + (x :: a).length + 1) b with
        | nil => rfl
        | cons p rs =>
          have hp := (mem_runs (j := p.1) (r := p.2) (hb ▸ mem_cons_self)).1
          rw [nil_append]
          simp only
          rw [if_neg (by omega)]
          rfl

theorem runs_of_zero_not_mem (h0 : 0 ∉ r) (hr : r ≠ []) : runs k r = [(k, r)] := by
  induction r generalizing k with
  | nil => exact absurd rfl hr
  | cons b r ih =>
    obtain ⟨hb, h0⟩ := not_or.mp (fun h => h0 (mem_cons.mpr h))
    rw [runs, if_neg (Ne.symm hb)]
    cases r with
    | nil => rfl
    | cons c r => rw [ih h0 (by simp)]; simp

theorem takeWhile_append_zero (h0 : 0 ∉ s) (t : Bytes) : (s ++ 0 :: t).takeWhile (· ≠ 0) = s := by
  have hs : ∀ b ∈ s, decide (b ≠ 0) = true := fun b hb => decide_eq_true fun h => h0 (h ▸ hb)
  rw [takeWhile_append_of_pos hs]
  simp

/-! ### A string at an offset -/

/-- A string begins at an offset of a region and is ended by a zero byte. -/
def StringAt (region : Bytes) (offset : Nat) (s : Bytes) : Prop :=
  ∃ pre post, region = pre ++ (s ++ 0 :: post) ∧ pre.length = offset ∧ (pre = [] ∨ ∃ p, pre = p ++ [0])

theorem readString_natCast (region : Bytes) (offset : Nat) :
    readString region offset = (region.drop offset).takeWhile (· ≠ 0) := by
  unfold readString
  split
  · rw [Int.toNat_natCast]
  · next h =>
    rw [drop_eq_nil_of_le (by simpa using h)]
    rfl

theorem resolve?_natCast {index : StringIndex} (h : offset < index.size) :
    index.resolve? offset = index.items.find? fun it => it.start ≤ offset && offset ≤ it.stop := by
  unfold resolve?
  rw [if_pos (by simpa using h)]
  simp only [Int.ofNat_le]

theorem StringAt.lt (h : StringAt region offset s) : offset < region.length := by
  obtain ⟨pre, post, rfl, rfl, -⟩ := h
  simp only [length_append, length_cons]
  omega

theorem readString_of_stringAt (h : StringAt region offset s) (h0 : 0 ∉ s) :
    readString region offset = s := by
  obtain ⟨pre, post, rfl, rfl, -⟩ := h
  rw [readString_natCast, drop_left, takeWhile_append_zero h0]

theorem resolve?_of_stringAt (h : StringAt region offset s) (h0 : 0 ∉ s) (hs : s ≠ []) :
    (ofRegion region).resolve? offset = some ⟨offset, offset + s.length, decodeLossy s⟩ := by
  rw [resolve?_natCast h.lt]
  obtain ⟨pre, post, rfl, rfl, rfl | ⟨p, rfl⟩⟩ := h
  · simp [ofRegion, runs_append_zero, runs_of_zero_not_mem h0 hs]
  · -- the runs before the string end before it begins
    have hbefore : ∀ x ∈ runs 0 p, x.1 + x.2.length < p.length + 1 := fun x hx => by
      have := (mem_runs hx).2.1
      omega
    have hnone : (runs 0 p).find? ((fun it : StringItem => it.start ≤ p.length + 1 && p.length + 1 ≤ it.stop) ∘
        fun x => ⟨x.1, x.1 + x.2.length, decodeLossy x.2⟩) = none := by
      rw [find?_eq_none]
      intro x hx
      have := hbefore x hx
      simp
      omega
    have hruns : runs 0 (p ++ [0] ++ (s ++ 0 :: post)) =
        runs 0 p ++ (p.length + 1, s) :: runs (p.length + 1 + s.length + 1) post := by
      rw [append_assoc, singleton_append, runs_append_zero, runs_append_zero, runs_of_zero_not_mem h0 hs,
        Nat.zero_add, singleton_append]
    change ((runs 0 (p ++ [0] ++ (s ++ 0 :: post))).map _).find? _ = _
    rw [hruns, length_append, length_singleton, find?_map, find?_append, hnone, none_or,
      find?_cons_of_pos]
    · rfl
    · simp only [Function.comp, Bool.and_eq_true, decide_eq_true_eq]
      omega

/-! ### Texts one after another -/

/-- The bytes of texts one after another, each ended by a zero byte. -/
def written (ts : List Text) : Bytes := ts.flatMap fun t => encodeLossy t ++ [0]

def places (k : Nat) : List Text → List (Text × Nat)
  | [] => []
  | t :: ts => (t, k) :: places (k + (encodeLossy t).length + 1) ts

theorem written_cons (t : Text) (ts : List Text) :
    written (t :: ts) = encodeLossy t ++ 0 :: written ts := by
  simp [written]

theorem written_append (ts us : List Text) : written (ts ++ us) = written ts ++ written us :=
  flatMap_append

theorem written_snoc (ts : List Text) (t : Text) :
    written (ts ++ [t]) = written ts ++ encodeLossy t ++ [0] := by
  simp [written]

theorem written_end (ts : List Text) : written ts = [] ∨ ∃ p, written ts = p ++ [0] := by
  rcases eq_nil_or_concat ts with rfl | ⟨us, t, rfl⟩
  · exact .inl rfl
  · exact .inr ⟨_, concat_eq_append ▸ written_snoc us t⟩

theorem places_append (k : Nat) (ts us : List Text) :
    places k (ts ++ us) = places k ts ++ places (k + (written ts).length) us := by
  induction ts generalizing k with
  | nil => rfl
  | cons t ts ih =>
    rw [cons_append, places, places, ih, cons_append, written_cons, length_append, length_cons]
    rw [show k + (encodeLossy t).length + 1 + (written ts).length =
      k + ((encodeLossy t).length + ((written ts).length + 1)) by omega]

theorem map_fst_places (k : Nat) (ts : List Text) : (places k ts).map Prod.fst = ts := by
  induction ts generalizing k with
  | nil => rfl
  | cons t ts ih => rw [places, map_cons, ih]

theorem mem_of_mem_places (h : (t, o) ∈ places k ts) : t ∈ ts := by
  rw [← map_fst_places k ts]
  exact mem_map_of_mem h

theorem stringAt_written (h : (t, o) ∈ places 0 ts) : StringAt (written ts) o (encodeLossy t) := by
  have key : ∀ (us ts : List Text), (t, o) ∈ places (written us).length ts →
      StringAt (written (us ++ ts)) o (encodeLossy t) := by
    intro us ts
    induction ts generalizing us with
    | nil => exact nofun
    | cons u ts ih =>
      intro h
      rcases mem_cons.mp h with h | h
      · cases h
        exact ⟨written us, written ts, by rw [written_append, written_cons], rfl, written_end us⟩
      · rw [append_cons]
        refine ih _ ?_
        rwa [written_snoc, length_append, length_append, length_singleton]
  exact key [] ts h

/-- The runs of a region of texts are its texts, apart from those without a byte. -/
theorem mem_runs_written (h0 : ∀ t ∈ ts, '\x00' ∉ t)
    (h : (j, r) ∈ runs k (written ts)) : ∃ t, (t, j) ∈ places k ts ∧ r = encodeLossy t := by
  induction ts generalizing k with
  | nil => simp [written, runs] at h
  | cons t ts ih =>
    rw [written_cons, runs_append_zero, mem_append] at h
    rcases h with h | h
    · have hr : encodeLossy t ≠ [] := by
        intro he
        rw [he, runs] at h
        exact absurd h not_mem_nil
      rw [runs_of_zero_not_mem (zero_not_mem_encodeLossy (h0 t mem_cons_self)) hr] at h
      cases mem_singleton.mp h
      exact ⟨t, mem_cons_self, rfl⟩
    · obtain ⟨u, hu, rfl⟩ := ih (fun u hu => h0 u (mem_cons_of_mem t hu)) h
      exact ⟨u, mem_cons_of_mem _ hu, rfl⟩

/-! ### Pools -/

namespace Pool

variable {pool : Pool} {names extra : List Text}

/-- A text that has its offset needs no other. -/
theorem or_known (h : pool.offset? t = some o) (u : Text) (n : Nat) :
    (pool.offset? u).or (if u = t then some n else none) = pool.offset? u := by
  by_cases hu : u = t
  · rw [hu, h]
    rfl
  · rw [if_neg hu, or_none]

theorem offset?_add (pool : Pool) (t u : Text) :
    (pool.add t).offset? u =
      (pool.offset? u).or (if u = t then some pool.bytes.length else none) := by
  have hone : [(t, pool.bytes.length)].lookup u = if u = t then some pool.bytes.length else none := by
    by_cases hu : u = t
    · simp [hu]
    · simp [lookup_cons, beq_false_of_ne hu, hu]
  unfold add offset?
  cases h : pool.offsets.lookup t with
  | some o =>
    exact (or_known h u _).symm
  | none =>
    simp only [isSome_none, Bool.false_eq_true, if_false]
    rw [lookup_append, hone]

theorem offset?_ensure (pool : Pool) (t u : Text) :
    (pool.ensure t).offset? u =
      (pool.offset? u).or (if u = t then some pool.bytes.length else none) := by
  unfold ensure
  split
  · next h =>
    obtain ⟨o, ho⟩ := isSome_iff_exists.mp h
    exact (or_known ho u _).symm
  · exact offset?_add pool t u

/-- A pool has written names, each of them, and after them further texts, each once; and the offsets
that it gives out are the places of their texts. -/
structure Holds (pool : Pool) (names extra : List Text) : Prop where
  bytes : pool.bytes = written (names ++ extra)
  placed : ∀ t o, pool.offset? t = some o → (t, o) ∈ places 0 (names ++ extra)
  known : ∀ t ∈ names, (pool.offset? t).isSome
  /-- A further text has its place as its offset. -/
  shared : ∀ p ∈ places (written names).length extra, pool.offset? p.1 = some p.2

theorem Holds.empty : empty.Holds [] [] where
  bytes := rfl
  placed t o h := by simp [Pool.empty, offset?] at h
  known t h := absurd h not_mem_nil
  shared p h := absurd h not_mem_nil

theorem placed_or {u : Text} (hb : pool.bytes = written ts)
    (hp : ∀ t o, pool.offset? t = some o → (t, o) ∈ places 0 ts)
    (hu : (pool.offset? u).or (if u = t then some pool.bytes.length else none) = some o) :
    (u, o) ∈ places 0 (ts ++ [t]) := by
  rw [places_append, mem_append]
  rcases or_eq_some_iff.mp hu with hold | ⟨-, hnew⟩
  · exact .inl (hp u o hold)
  · split at hnew
    · next heq =>
      rw [← some.inj hnew, heq, hb, Nat.zero_add]
      exact .inr mem_cons_self
    · cases hnew

theorem Holds.add (h : pool.Holds names []) (t : Text) :
    (pool.add t).Holds (names ++ [t]) [] where
  bytes := by
    have hb := h.bytes
    rw [append_nil] at hb ⊢
    rw [written_snoc, ← hb]
    rfl
  placed u o hu := by
    rw [offset?_add] at hu
    have hb := h.bytes
    have hp := h.placed
    rw [append_nil] at hb hp ⊢
    exact placed_or hb hp hu
  known u hu := by
    rw [offset?_add, isSome_or, Bool.or_eq_true]
    rcases mem_append.mp hu with hu | hu
    · exact .inl (h.known u hu)
    · rw [mem_singleton.mp hu, if_pos rfl]
      exact .inr rfl
  shared p hp := absurd hp not_mem_nil

variable (h : pool.Holds names extra)
include h

theorem Holds.add_new (ht : pool.offset? t = none) : (pool.add t).Holds names (extra ++ [t]) where
  bytes := by
    rw [← append_assoc, written_snoc, ← h.bytes]
    rfl
  placed u o hu := by
    rw [offset?_add] at hu
    rw [← append_assoc]
    exact placed_or h.bytes h.placed hu
  known u hu := by
    rw [offset?_add, isSome_or, h.known u hu, Bool.true_or]
  shared p hp := by
    rw [places_append, mem_append] at hp
    rw [offset?_add]
    rcases hp with hp | hp
    · rw [h.shared p hp]
      rfl
    · cases mem_singleton.mp hp
      rw [ht, if_pos rfl, h.bytes, written_append, length_append]
      rfl

theorem Holds.ensure (t : Text) :
    ∃ extra', (pool.ensure t).Holds names extra' ∧ ∀ u ∈ extra', u ∈ extra ∨ u = t := by
  unfold Pool.ensure
  split
  · exact ⟨extra, h, fun u hu => .inl hu⟩
  · next ht =>
    refine ⟨extra ++ [t], h.add_new (by simpa using ht), fun u hu => ?_⟩
    simpa using hu

/-- What adding further texts does: the texts are all there, and nothing else is. -/
theorem Holds.ensureAll (ts : List Text) :
    ∃ extra', (ts.foldl Pool.ensure pool).Holds names extra' ∧ (∀ u ∈ extra', u ∈ extra ∨ u ∈ ts) ∧
      ∀ t, t ∈ ts ∨ (pool.offset? t).isSome → ((ts.foldl Pool.ensure pool).offset? t).isSome := by
  induction ts generalizing pool extra with
  | nil => exact ⟨extra, h, fun u hu => .inl hu, by simp⟩
  | cons t ts ih =>
    obtain ⟨extra₁, h₁, hsub₁⟩ := h.ensure t
    obtain ⟨extra₂, h₂, hsub₂, hknown₂⟩ := ih h₁
    refine ⟨extra₂, h₂, fun u hu => ?_, fun u hu => hknown₂ u ?_⟩
    · rcases hsub₂ u hu with hu | hu
      · rcases hsub₁ u hu with hu | rfl
        · exact .inl hu
        · exact .inr mem_cons_self
      · exact .inr (mem_cons_of_mem t hu)
    · rw [offset?_ensure, isSome_or, Bool.or_eq_true]
      rcases hu with hu | hu
      · rcases mem_cons.mp hu with rfl | hu
        · rw [if_pos rfl]
          exact .inr (.inr rfl)
        · exact .inl hu
      · exact .inr (.inl hu)

theorem Holds.stringAt (ho : pool.offset? t = some o) : StringAt pool.bytes o (encodeLossy t) := by
  rw [h.bytes]
  exact stringAt_written (h.placed t o ho)

end Pool

/-! ## Offsets inside of strings

A string region is read in two ways. `readString` takes the bytes from an offset up to the next zero
byte, and serves the names of entry points. The index looks for the string that an offset belongs
to, from its first byte to the zero byte behind it, and serves the operands of instructions: it
gives the whole string, wherever in it the offset lies. Both are described by the maximal runs of
non-zero bytes (`eq_of_mem_runs`, `exists_mem_runs`), so the one reader is found from the other
(`readString_resolve?`). -/

open Encoding StringIndex Int
open Text (slice)

variable {bs : Bytes} {i m n : Nat} {it : StringItem} {offset : Int}

/-! ### Runs as they are read -/

theorem region_induction {P : Bytes → Prop} (whole : ∀ s, 0 ∉ s → P s)
    (cut : ∀ s t, 0 ∉ s → P t → P (s ++ 0 :: t)) (bs : Bytes) : P bs := by
  induction hlen : bs.length using Nat.strong_induction_on generalizing bs with
  | _ n ih =>
    by_cases h0 : 0 ∈ bs
    · obtain ⟨s, t, rfl, hs⟩ := eq_append_cons_of_mem h0
      refine cut s t hs (ih t.length ?_ t rfl)
      rw [← hlen, length_append, length_cons]
      omega
    · exact whole bs h0

theorem eq_of_mem_runs_of_zero_not_mem (h0 : 0 ∉ s) (h : (j, r) ∈ runs k s) : j = k ∧ r = s := by
  by_cases hs : s = []
  · rw [hs] at h
    exact absurd h not_mem_nil
  · rw [runs_of_zero_not_mem h0 hs] at h
    cases mem_singleton.mp h
    exact ⟨rfl, rfl⟩

theorem eq_of_mem_runs (h : (j, r) ∈ runs k bs) : (bs.drop (j - k)).takeWhile (· ≠ 0) = r := by
  induction bs using region_induction generalizing k with
  | whole s h0 =>
    obtain ⟨rfl, rfl⟩ := eq_of_mem_runs_of_zero_not_mem h0 h
    rw [Nat.sub_self, drop_zero, takeWhile_eq_self_iff]
    intro b hb
    exact decide_eq_true fun h => h0 (h ▸ hb)
  | cut s t h0 ih =>
    rw [runs_append_zero, mem_append] at h
    rcases h with h | h
    · obtain ⟨rfl, rfl⟩ := eq_of_mem_runs_of_zero_not_mem h0 h
      rw [Nat.sub_self, drop_zero, takeWhile_append_zero h0]
    · have hle := (mem_runs h).1
      have hdrop : (s ++ 0 :: t).drop (j - k) = t.drop (j - (k + s.length + 1)) := by
        rw [show j - k = s.length + ((j - (k + s.length + 1)) + 1) by omega, drop_length_add_append,
          drop_succ_cons]
      rw [hdrop]
      exact ih h

theorem mem_runs_of_zero_not_mem (h0 : 0 ∉ s) (hi : i < s.length) : (k, s) ∈ runs k s := by
  rw [runs_of_zero_not_mem h0 (ne_nil_of_length_pos (by omega))]
  exact mem_singleton_self _

/-! ### Maximal runs -/

/-- The byte at an offset. Behind the end of the bytes it counts as zero. -/
def byteAt (bs : Bytes) (i : Nat) : UInt8 := bs[i]?.getD 0

theorem lt_length_of_byteAt (h : byteAt bs i ≠ 0) : i < bs.length := by
  by_contra hge
  rw [byteAt, getElem?_eq_none (by omega)] at h
  exact h rfl

theorem byteAt_append_right (s t : Bytes) (i : Nat) :
    byteAt (s ++ t) (s.length + i) = byteAt t i := by
  rw [byteAt, getElem?_append_right (by omega), Nat.add_sub_cancel_left, byteAt]

theorem exists_mem_runs (hb : byteAt bs i ≠ 0) :
    ∃ j r, (j, r) ∈ runs k bs ∧ j ≤ k + i ∧ k + i < j + r.length := by
  induction bs using region_induction generalizing k i with
  | whole s h0 =>
    have hi := lt_length_of_byteAt hb
    exact ⟨k, s, mem_runs_of_zero_not_mem h0 hi, by omega, by omega⟩
  | cut s t h0 ih =>
    rw [runs_append_zero]
    rcases lt_or_ge i s.length with hi | hge
    · exact ⟨k, s, mem_append_left _ (mem_runs_of_zero_not_mem h0 hi), by omega, by omega⟩
    · -- the zero byte itself is not meant, so the byte lies behind it
      obtain ⟨m, rfl⟩ := Nat.exists_eq_add_of_le hge
      rw [byteAt_append_right] at hb
      cases m with
      | zero => exact absurd rfl hb
      | succ m =>
        obtain ⟨j, r, hr, hle, hlt⟩ := ih (k := k + s.length + 1) hb
        exact ⟨j, r, mem_append_right _ hr, by omega, by omega⟩

/-- Bytes other than zero from `start` up to `stop`, with zero bytes or the ends of the region
around them. -/
structure IsRun (bs : Bytes) (start stop : Nat) : Prop where
  lt : start < stop
  inside : ∀ i, start ≤ i → i < stop → byteAt bs i ≠ 0
  before : ∀ i, i + 1 = start → byteAt bs i = 0
  behind : byteAt bs stop = 0

theorem byteAt_takeWhile (bs : Bytes) : (∀ i < (bs.takeWhile (· ≠ 0)).length, byteAt bs i ≠ 0) ∧
    byteAt bs (bs.takeWhile (· ≠ 0)).length = 0 := by
  induction bs with
  | nil => exact ⟨nofun, rfl⟩
  | cons b bs ih =>
    by_cases hb : b = 0
    · rw [takeWhile_cons_of_neg (by simpa using hb)]
      exact ⟨nofun, hb⟩
    · rw [takeWhile_cons_of_pos (by simpa using hb), length_cons]
      refine ⟨fun i hi => ?_, ih.2⟩
      cases i with
      | zero => exact hb
      | succ i => exact ih.1 i (Nat.lt_of_succ_lt_succ hi)

theorem byteAt_before_run (h : (k + (i + 1), r) ∈ runs k bs) : byteAt bs i = 0 := by
  induction bs using region_induction generalizing k i with
  | whole s h0 =>
    have := (eq_of_mem_runs_of_zero_not_mem h0 h).1
    omega
  | cut s t h0 ih =>
    rw [runs_append_zero, mem_append] at h
    rcases h with h | h
    · have := (eq_of_mem_runs_of_zero_not_mem h0 h).1
      omega
    · obtain ⟨n, rfl⟩ := Nat.exists_eq_add_of_le (show s.length ≤ i by have := (mem_runs h).1; omega)
      rw [byteAt_append_right]
      cases n with
      | zero => rfl
      | succ n =>
        rw [show k + (s.length + (n + 1) + 1) = k + s.length + 1 + (n + 1) by omega] at h
        exact ih h

theorem isRun_of_mem_runs (h : (j, r) ∈ runs 0 bs) : IsRun bs j (j + r.length) := by
  have hbyte : ∀ i, byteAt bs (j + i) = byteAt (bs.drop j) i := fun i => by rw [byteAt, byteAt, getElem?_drop]
  have hread : (bs.drop j).takeWhile (· ≠ 0) = r := eq_of_mem_runs h
  obtain ⟨hinside, hbehind⟩ := byteAt_takeWhile (bs.drop j)
  rw [hread] at hinside hbehind
  refine ⟨Nat.lt_add_of_pos_right (length_pos_iff.mpr (mem_runs h).2.2), fun i hi hlt => ?_, ?_, (hbyte _).trans hbehind⟩
  · obtain ⟨n, rfl⟩ := Nat.exists_eq_add_of_le hi
    rw [hbyte]
    exact hinside n (by omega)
  · rintro i rfl
    exact byteAt_before_run (by rwa [Nat.zero_add])

theorem IsRun.unique (h : IsRun bs j k) (h' : IsRun bs m n) (hj : j ≤ i ∧ i ≤ k)
    (hm : m ≤ i ∧ i ≤ n) : j = m ∧ k = n := by
  constructor
  · rcases Nat.lt_trichotomy j m with hlt | heq | hlt
    · exact absurd (h'.before (m - 1) (by omega)) (h.inside _ (by omega) (by omega))
    · exact heq
    · exact absurd (h.before (j - 1) (by omega)) (h'.inside _ (by omega) (by omega))
  · rcases Nat.lt_trichotomy k n with hlt | heq | hlt
    · exact absurd h.behind (h'.inside k (by omega) hlt)
    · exact heq
    · exact absurd h'.behind (h.inside n (by omega) hlt)

theorem pairwise_runs (k : Nat) (bs : Bytes) :
    (runs k bs).Pairwise fun x y => x.1 + x.2.length < y.1 := by
  have hwhole : ∀ s k, 0 ∉ s → (runs k s).Pairwise fun x y => x.1 + x.2.length < y.1 := fun s k h0 => by
    by_cases hs : s = []
    · rw [hs]
      exact .nil
    · rw [runs_of_zero_not_mem h0 hs]
      exact pairwise_singleton _ _
  induction bs using region_induction generalizing k with
  | whole s h0 => exact hwhole s k h0
  | cut s t h0 ih =>
    rw [runs_append_zero, pairwise_append]
    refine ⟨hwhole s k h0, ih _, fun x hx y hy => ?_⟩
    have := (mem_runs hx).2.1
    have := (mem_runs hy).1
    omega

/-! ### The index -/

theorem mem_items_iff : it ∈ (ofRegion region).items ↔
      ∃ r, (it.start, r) ∈ runs 0 region ∧ it.stop = it.start + r.length ∧ it.text = Cp932.decodeLossy r := by
  unfold ofRegion
  simp only [List.mem_map]
  constructor
  · rintro ⟨⟨j, r⟩, hr, rfl⟩
    exact ⟨r, hr, rfl, rfl⟩
  · rintro ⟨r, hr, hstop, htext⟩
    exact ⟨(it.start, r), hr, by rw [← hstop, ← htext]⟩

theorem mem_items_iff_isRun : it ∈ (ofRegion region).items ↔
    IsRun region it.start it.stop ∧ it.text = Cp932.decodeLossy (slice region it.start it.stop) := by
  have hslice : ∀ {j r}, (j, r) ∈ runs 0 region → slice region j (j + r.length) = r := fun {j r} h => by
    have hread : (region.drop j).takeWhile (· ≠ 0) = r := eq_of_mem_runs h
    rw [slice, drop_take, Nat.add_sub_cancel_left, ← hread]
    exact Eq.symm <| prefix_iff_eq_take.mp <| takeWhile_prefix _
  rw [mem_items_iff]
  constructor
  · rintro ⟨r, hr, hstop, htext⟩
    rw [hstop, hslice hr]
    exact ⟨isRun_of_mem_runs hr, htext⟩
  · rintro ⟨hrun, htext⟩
    obtain ⟨j, r, hr, hle, hlt⟩ := exists_mem_runs (k := 0) (hrun.inside it.start le_rfl hrun.lt)
    obtain ⟨rfl, hstop⟩ := (isRun_of_mem_runs hr).unique hrun (i := it.start) (by omega) ⟨le_rfl, hrun.lt.le⟩
    exact ⟨r, hr, hstop.symm, by rw [htext, ← hstop, hslice hr]⟩

theorem pairwise_items (region : Bytes) :
    (ofRegion region).items.Pairwise fun x y => x.stop < y.start :=
  pairwise_map.mpr (pairwise_runs 0 region)

theorem eq_of_mem_items {it' : StringItem} (h : it ∈ (ofRegion region).items)
    (h' : it' ∈ (ofRegion region).items) (hi : it.start ≤ i ∧ i ≤ it.stop)
    (hi' : it'.start ≤ i ∧ i ≤ it'.stop) : it = it' := by
  obtain ⟨hrun, htext⟩ := mem_items_iff_isRun.mp h
  obtain ⟨hrun', htext'⟩ := mem_items_iff_isRun.mp h'
  obtain ⟨hstart, hstop⟩ := hrun.unique hrun' hi hi'
  cases it
  cases it'
  simp_all

theorem exists_mem_items (h : byteAt region i ≠ 0) :
    ∃ it ∈ (ofRegion region).items, it.start ≤ i ∧ i < it.stop := by
  obtain ⟨j, r, hr, hle, hlt⟩ := exists_mem_runs (k := 0) h
  exact ⟨⟨j, j + r.length, Cp932.decodeLossy r⟩, mem_items_iff.mpr ⟨r, hr, rfl, rfl⟩, (Nat.zero_add i ▸ hle),
    Nat.zero_add i ▸ hlt⟩

theorem resolve?_of_not_range (h : ¬ (0 ≤ offset ∧ offset < region.length)) :
    (ofRegion region).resolve? offset = none :=
  if_neg (by rwa [Bool.and_eq_true, decide_eq_true_iff, decide_eq_true_iff])

/-- **What the index finds** is the string that the offset belongs to. -/
theorem resolve?_eq_some_iff : (ofRegion region).resolve? offset = some it ↔
    (0 ≤ offset ∧ offset < region.length) ∧ it ∈ (ofRegion region).items ∧ it.start ≤ offset ∧ offset ≤ it.stop := by
  by_cases hrange : 0 ≤ offset ∧ offset < region.length
  · obtain ⟨i, rfl⟩ := eq_ofNat_of_zero_le hrange.1
    rw [resolve?_natCast (ofNat_lt.mp hrange.2), and_iff_right hrange, ofNat_le, ofNat_le]
    refine ⟨fun h => ⟨mem_of_find?_eq_some h, by simpa using find?_some h⟩, fun ⟨hmem, hi⟩ => ?_⟩
    cases hfind : (ofRegion region).items.find? fun it => it.start ≤ i && i ≤ it.stop with
    | none => exact absurd (by simpa using hi) (find?_eq_none.mp hfind it hmem)
    | some it' => exact congrArg some (eq_of_mem_items (mem_of_find?_eq_some hfind) hmem (by simpa using find?_some hfind) hi)
  · rw [resolve?_of_not_range hrange]
    exact iff_of_false nofun fun h => hrange h.1

/-- **Where the index finds nothing:** outside of the region, and at a zero byte that is not behind
another byte. -/
theorem resolve?_eq_none_iff :
    (ofRegion region).resolve? offset = none ↔ ¬ (0 ≤ offset ∧ offset < region.length) ∨
    byteAt region offset.toNat = 0 ∧ (offset = 0 ∨ byteAt region (offset.toNat - 1) = 0) := by
  by_cases hrange : 0 ≤ offset ∧ offset < region.length
  · obtain ⟨i, rfl⟩ := eq_ofNat_of_zero_le hrange.1
    simp only [Option.eq_none_iff_forall_ne_some, ne_eq, resolve?_eq_some_iff, ofNat_le, hrange, true_and,
      toNat_natCast, natCast_eq_zero, not_true, false_or, and_self]
    constructor
    · refine fun hnone => ⟨?_, or_iff_not_imp_left.mpr fun hi => ?_⟩
      · by_contra hbyte
        obtain ⟨it, hit, hle, hlt⟩ := exists_mem_items hbyte
        exact hnone it ⟨hit, hle, hlt.le⟩
      · by_contra hbyte
        obtain ⟨it, hit, hle, hlt⟩ := exists_mem_items hbyte
        exact hnone it ⟨hit, by omega, by omega⟩
    · rintro ⟨hzero, hprev⟩ it ⟨hit, hle, hstop⟩
      obtain ⟨hrun, -⟩ := mem_items_iff_isRun.mp hit
      have hlt := hrun.lt
      have hend : ¬ i < it.stop := fun h => hrun.inside i hle h hzero
      rcases hprev with rfl | hprev
      · omega
      · exact hrun.inside (i - 1) (by omega) (by omega) hprev
  · simp [resolve?_of_not_range hrange, hrange]

/-- **The index of a region holds its maximal runs**, in ascending order and apart from each other.
Every byte other than zero lies in one of them. An offset leads to the one that it belongs to, the
zero byte behind it included. It leads nowhere exactly if it is out of range, or that of a zero byte
that does not follow another byte. -/
theorem items_maximal_runs (region : Bytes) :
    (∀ it, it ∈ (ofRegion region).items ↔
      IsRun region it.start it.stop ∧ it.text = Cp932.decodeLossy (slice region it.start it.stop)) ∧
    ((ofRegion region).items.Pairwise fun x y => x.stop < y.start) ∧
    (∀ i, byteAt region i ≠ 0 → ∃! it, it ∈ (ofRegion region).items ∧ it.start ≤ i ∧ i < it.stop) ∧
    ∀ offset : Int, (∀ it, (ofRegion region).resolve? offset = some it ↔ (0 ≤ offset ∧ offset < region.length) ∧
        it ∈ (ofRegion region).items ∧ it.start ≤ offset ∧ offset ≤ it.stop) ∧
      ((ofRegion region).resolve? offset = none ↔ ¬ (0 ≤ offset ∧ offset < region.length) ∨
        byteAt region offset.toNat = 0 ∧ (offset = 0 ∨ byteAt region (offset.toNat - 1) = 0)) := by
  refine ⟨fun it => mem_items_iff_isRun, pairwise_items region, fun i hbyte => ?_, fun offset =>
    ⟨fun it => resolve?_eq_some_iff, resolve?_eq_none_iff⟩⟩
  obtain ⟨it, hit, hle, hlt⟩ := exists_mem_items hbyte
  exact ⟨it, ⟨hit, hle, hlt⟩, fun it' h => eq_of_mem_items h.1 hit ⟨h.2.1, h.2.2.le⟩ ⟨hle, hlt.le⟩⟩

/-! ### The two readers -/

theorem takeWhile_drop {p : UInt8 → Bool} {d : Nat} (h : d ≤ (bs.takeWhile p).length) :
    (bs.drop d).takeWhile p = (bs.takeWhile p).drop d := by
  induction d generalizing bs with
  | zero => rfl
  | succ d ih =>
    cases bs with
    | nil => rfl
    | cons b bs =>
      by_cases hb : p b = true
      · rw [takeWhile_cons_of_pos hb, length_cons] at h
        rw [takeWhile_cons_of_pos hb, drop_succ_cons, drop_succ_cons]
        exact ih (by omega)
      · rw [takeWhile_cons_of_neg hb] at h
        simp at h

theorem readString_of_resolve?_eq_none
    (h : (ofRegion region).resolve? offset = none) : readString region offset = [] := by
  rw [readString]
  split
  · next hrange =>
    obtain hout | ⟨hzero, -⟩ := resolve?_eq_none_iff.mp h
    · exact absurd (by simpa using hrange) hout
    · rw [← length_eq_zero_iff]
      by_contra hlen
      exact (byteAt_takeWhile (region.drop offset.toNat)).1 0 (Nat.pos_of_ne_zero hlen) (by simpa [byteAt] using hzero)
  · rfl

/-- **What the index finds, as it is read.** Where the index finds no string, none is read. Where it
finds one, the offset lies between the first byte of the string and the byte behind its last one,
and the index gives the text that is read from the first byte, while reading from the offset gives
what is left of the string there. So the two readers take the same bytes exactly if the offset is
that of the first byte, and then they give the same text. -/
theorem readString_resolve? (region : Bytes) (offset : Int) :
    ((StringIndex.ofRegion region).resolve? offset = none → readString region offset = []) ∧
    ∀ it, (StringIndex.ofRegion region).resolve? offset = some it →
      it.start ≤ offset ∧ offset ≤ it.stop ∧ it.stop = it.start + (readString region it.start).length ∧
      it.text = Cp932.decodeLossy (readString region it.start) ∧
      readString region offset = (readString region it.start).drop (offset - it.start).toNat ∧
      (readString region offset = readString region it.start ↔ offset = it.start) ∧
      (offset = it.start → it.text = Cp932.decodeLossy (readString region offset)) := by
  refine ⟨readString_of_resolve?_eq_none, fun it h => ?_⟩
  obtain ⟨⟨hpos, -⟩, hmem, hstart, hstop⟩ := resolve?_eq_some_iff.mp h
  obtain ⟨i, rfl⟩ := eq_ofNat_of_zero_le hpos
  obtain ⟨r, hr, hend, htext⟩ := mem_items_iff.mp hmem
  have hread : readString region it.start = r := (readString_natCast region it.start).trans (eq_of_mem_runs hr)
  have hrest : readString region i = r.drop (i - it.start) := by
    rw [readString_natCast, ← eq_of_mem_runs hr, Nat.sub_zero, ← takeWhile_drop, drop_drop]
    · rw [show it.start + (i - it.start) = i by omega]
    · have hlen : ((region.drop it.start).takeWhile (· ≠ 0)).length = r.length := congrArg length (eq_of_mem_runs hr)
      omega
  have hskip : ((i : Int) - it.start).toNat = i - it.start := by omega
  rw [hread, hskip]
  refine ⟨by omega, by omega, hend, htext, hrest, ⟨fun hsame => ?_, fun heq => ?_⟩, fun heq => ?_⟩
  · -- a string has a byte, so that what is left behind its first one is shorter
    have hne := (mem_runs hr).2.2
    have hlength := congrArg length (hrest.symm.trans hsame)
    rw [length_drop] at hlength
    omega
  · rw [hrest, show i - it.start = 0 by omega, drop_zero]
  · rw [hrest, show i - it.start = 0 by omega, drop_zero, htext]

/-- Three strings: `ab`, one without a byte, and `c`, which ends with the region. -/
def threeStrings : Bytes := [0x61, 0x62, 0, 0, 0x63]

/-- The index finds `ab` at its first byte, where it is read as well, and at the zero byte behind
it, where nothing is left to read. At the next zero byte it finds nothing. -/
theorem readString_resolve?_threeStrings :
    (StringIndex.ofRegion threeStrings).resolve? 0 = some ⟨0, 2, "ab"⟩ ∧ readString threeStrings 0 = [0x61, 0x62] ∧
    (StringIndex.ofRegion threeStrings).resolve? 2 = some ⟨0, 2, "ab"⟩ ∧ readString threeStrings 2 = [] ∧
    (StringIndex.ofRegion threeStrings).resolve? 3 = none ∧ readString threeStrings 3 = [] ∧
    (StringIndex.ofRegion threeStrings).resolve? 4 = some ⟨4, 5, "c"⟩ ∧
    Cp932.decodeLossy (readString threeStrings 4) = "c" := by
  have hfirst : (ofRegion threeStrings).resolve? 0 = some ⟨0, 2, "ab"⟩ := by decide
  have hzero : (ofRegion threeStrings).resolve? 2 = some ⟨0, 2, "ab"⟩ := by decide
  have hnone : (ofRegion threeStrings).resolve? 3 = none := by decide
  have hlast : (ofRegion threeStrings).resolve? 4 = some ⟨4, 5, "c"⟩ := by decide
  have hread : readString threeStrings 0 = [0x61, 0x62] := by decide
  obtain ⟨-, -, -, -, hrest, -, -⟩ := (readString_resolve? threeStrings 2).2 _ hzero
  obtain ⟨-, -, -, -, -, -, htext⟩ := (readString_resolve? threeStrings 4).2 _ hlast
  exact ⟨hfirst, hread, hzero, by rw [hrest]; decide, hnone, (readString_resolve? threeStrings 3).1 hnone, hlast,
    (htext rfl).symm⟩

/-- Inside of a string the two readers differ: at the second byte of `ab` the index finds `ab`, and
`b` is read. -/
theorem resolve?_ne_readString_inside :
    (StringIndex.ofRegion threeStrings).resolve? 1 = some ⟨0, 2, "ab"⟩ ∧
      ("ab" : Text) ≠ Cp932.decodeLossy (readString threeStrings 1) := by
  decide

end Localizer.Script
