import Localizer.Proofs.Script.CodeLine

/-!
# Pushes that become texts

A call of a function that takes texts turns pushes before it into texts. Which ones is decided by
the row of pushes that stands directly before the call, whatever number of arguments the call has: a
position of the table counts from the first push of that row. Here every text of a listing is traced
back to the call that made it (`BecomesText`), and its place is found (`becomesText_iff`). It is the
argument that the position is meant to name exactly if the row is as long as the call has arguments
(`texts_of_calls`).
-/

namespace Localizer.Script

open List Word Nat Item

variable {i : Instruction} {code : List Instruction}
variable {j k : Nat} {positions : List Ordinal} (call : Instruction) (function : Nat) (args : List Item)

/-! ### One argument -/

def Instruction.PushesString (strings1 : StringIndex) (i : Instruction) : Prop :=
  i.name = "PUSHI" ∧ i.payload.length = 4 ∧ (strings1.resolve? (value i.payload)).isSome = true

def Item.isText : Item → Bool
  | instruction _ => false
  | text _ _ => true

def Item.asText (strings1 : StringIndex) : Item → Item
  | instruction i =>
    if i.name = "PUSHI" && i.payload.length = 4 then
      (strings1.resolve? (value i.payload)).elim (instruction i) fun it => text i.payload (escapeLine it.text)
    else instruction i
  | text payload t => text payload t

section

variable {strings1 strings2 : StringIndex}

theorem asText_instruction_cases (strings1 : StringIndex) (i : Instruction) :
    (¬ i.PushesString strings1 ∧ (instruction i).asText strings1 = .instruction i) ∨
      i.PushesString strings1 ∧ ((instruction i).asText strings1).isText = true := by
  unfold Instruction.PushesString asText
  by_cases hpush : i.name = "PUSHI" ∧ i.payload.length = 4
  · cases hit : strings1.resolve? (value i.payload) with
    | none => simp [hpush.1, hpush.2, hit]
    | some it => simp [hpush.1, hpush.2, hit, isText]
  · left
    refine ⟨fun h => hpush ⟨h.1, h.2.1⟩, if_neg ?_⟩
    simpa using fun h => fun h' => hpush ⟨h, h'⟩

theorem asText_of_isText {it : Item} (h : it.isText = true) : it.asText strings1 = it := by
  cases it with
  | instruction i => cases h
  | text payload t => rfl

theorem asText_asText (it : Item) : (it.asText strings1).asText strings1 = it.asText strings1 := by
  cases it with
  | text payload t => rfl
  | instruction i =>
    rcases asText_instruction_cases strings1 i with ⟨-, hsame⟩ | ⟨-, htext⟩
    · rw [hsame, hsame]
    · exact asText_of_isText htext

theorem getElem?_replaceArgument (found : Found) (position : Ordinal) (k : Nat) :
    (replaceArgument strings1 call function (args, found) position).1[k]? =
      if position.toInt = k + 1 then args[k]?.map (asText strings1) else args[k]? := by
  unfold replaceArgument
  simp only
  split
  · next hle => rw [if_neg (by omega)]
  · by_cases hk : position.toInt = k + 1
    · have hindex : position.toInt.toNat - 1 = k := by omega
      rw [if_pos hk, hindex]
      split
      · next name payload operands harg =>
        rw [harg, Option.map_some, asText]
        split
        · split
          · next hnone => rw [hnone, harg]; rfl
          · next it hit =>
            rw [hit, getElem?_set_self (List.getElem?_eq_some_iff.mp harg).1]
            rfl
        · exact harg
      · next hother =>
        cases harg : args[k]? with
        | none => rfl
        | some a =>
          cases a with
          | instruction i => exact absurd harg (hother i.name i.payload i.operands)
          | text payload t => rfl
    · rw [if_neg hk]
      split
      · split
        · split
          · rfl
          · exact getElem?_set_ne (by omega)
        · rfl
      · rfl

def withTexts (strings1 : StringIndex) (positions : List Ordinal) (args : List Item) : List Item :=
  args.mapIdx fun k it => if ∃ p ∈ positions, p.toInt = k + 1 then it.asText strings1 else it

theorem withTexts_nil : withTexts strings1 [] args = args := by
  refine ext_getElem? fun k => ?_
  simp [withTexts]

theorem foldl_replaceArgument_eq_withTexts (positions : List Ordinal) (args : List Item)
    (found : Found) :
    (positions.foldl (replaceArgument strings1 call function) (args, found)).1 =
      withTexts strings1 positions args := by
  refine ext_getElem? fun k => ?_
  rw [withTexts, getElem?_mapIdx]
  induction positions generalizing args found with
  | nil => simp
  | cons p positions ih =>
    rw [foldl_cons, ih, getElem?_replaceArgument]
    by_cases hp : p.toInt = k + 1
    · have hany : ∃ q ∈ p :: positions, q.toInt = k + 1 := ⟨p, mem_cons_self, hp⟩
      rw [if_pos hp, Option.map_map]
      congr 1
      funext it
      split
      · exact asText_asText it
      · rfl
    · simp [hp]

end

/-! ### One instruction -/

def textPositions? (table : ArgumentTable) (call : Instruction) : Option (List Ordinal) :=
  if textCalls.contains call.name && 4 ≤ call.payload.length then
    (table.lookup call.name).bind fun fs => Assoc.get? (value (call.payload.take 4) : Int) fs
  else none

/-- The positions of the pushes that become texts, out of a row of `count` pushes before an
instruction. -/
def textTargets (table : ArgumentTable) (i : Instruction) (count : Nat) : List Ordinal :=
  (textPositions? table i).elim [] fun positions => targetPositions positions count

section

variable {table : ArgumentTable}

theorem mem_textTargets {count : Nat} {p : Ordinal} :
    p ∈ textTargets table i count ↔
      ∃ positions, textPositions? table i = some positions ∧ p ∈ targetPositions positions count := by
  unfold textTargets
  cases textPositions? table i with
  | none
  | some positions => simp

theorem textTargets_of_not_call (h : textCalls.contains i.name = false) (count : Nat) :
    textTargets table i count = [] := by
  rw [textTargets, textPositions?, h]
  rfl

variable (table strings1 strings2) in
/-- **What one instruction does.** It is listed behind the items before it, and of the row of pushes
directly before it those at the positions that are asked for become texts. -/
theorem replaceOffsets_row {row rest : List Item} (hrow : (row ++ rest).takeWhile isPush = row) (found : Found)
    (i : Instruction) :
    ∃ i' : Instruction, i'.name = i.name ∧ (namesScript i.name = false → i' = i) ∧
      (replaceOffsets table strings1 strings2 (row ++ rest, found) i).1 =
        .instruction i' :: (withTexts strings1 (textTargets table i row.length) row.reverse).reverse ++ rest := by
  have hsame : ∀ i' : Instruction, textTargets table i row.length = [] → (instruction i' :: (row ++ rest)) =
      .instruction i' :: (withTexts strings1 (textTargets table i row.length) row.reverse).reverse ++ rest := by
    intro i' h
    rw [h, withTexts_nil, reverse_reverse, cons_append]
  unfold replaceOffsets
  simp only
  split
  · next hjump =>
    simp only [Bool.and_eq_true, decide_eq_true_eq] at hjump
    refine ⟨_, ?_, ?_, hsame _ (textTargets_of_not_call (by rw [hjump.1]; decide) _)⟩
    · rfl
    · rw [hjump.1]
      exact fun h => absurd h (by decide)
  split
  · next hcallg =>
    simp only [Bool.and_eq_true, decide_eq_true_eq] at hcallg
    refine ⟨_, ?_, ?_, hsame _ (textTargets_of_not_call (by rw [hcallg.1]; decide) _)⟩
    · rfl
    · rw [hcallg.1]
      exact fun h => absurd h (by decide)
  refine ⟨i, rfl, fun _ => rfl, ?_⟩
  split
  · next hcall =>
    have hpositions : textPositions? table i =
        (table.lookup i.name).bind fun fs => Assoc.get? (value (i.payload.take 4) : Int) fs := if_pos hcall
    split
    · next hnone =>
      refine hsame i ?_
      rw [textTargets, hpositions, hnone]
      rfl
    · next positions hsome =>
      have htargets : textTargets table i row.length = targetPositions positions row.length := by
        rw [textTargets, hpositions, hsome]
        rfl
      rw [htargets, hrow, foldl_replaceArgument_eq_withTexts, length_reverse, drop_left]
  · next hcall =>
    refine hsame i ?_
    rw [textTargets, textPositions?, if_neg hcall]
    rfl

end

/-! ### All instructions -/

def Instruction.isPush (i : Instruction) : Bool := (Item.instruction i).isPush

theorem Instruction.not_call_of_isPush (h : i.isPush = true) :
    namesScript i.name = false ∧ textCalls.contains i.name = false := by
  have hname : i.name ∈ (["PUSHI", "PUSHL", "PUSHG", "PUSHF", "PUSHR"] : List Text) := contains_iff_mem.mp h
  have hall : ∀ name ∈ (["PUSHI", "PUSHL", "PUSHG", "PUSHF", "PUSHR"] : List Text),
      namesScript name = false ∧ textCalls.contains name = false := by
    decide
  exact hall i.name hname

section

variable (table : ArgumentTable) (strings1 strings2 : StringIndex) (names : List Int)

def itemsOf (is : List Instruction) : List Item := (toItems table strings1 strings2 names is).1

theorem itemsOf_concat (is : List Instruction) (i : Instruction) :
    ∃ i' : Instruction, i'.name = i.name ∧ (namesScript i.name = false → i' = i) ∧
      itemsOf table strings1 strings2 names (is ++ [i]) =
        (itemsOf table strings1 strings2 names is).rdropWhile isPush ++
          withTexts strings1
            (textTargets table i ((itemsOf table strings1 strings2 names is).rtakeWhile isPush).length)
            ((itemsOf table strings1 strings2 names is).rtakeWhile isPush) ++ [.instruction i'] := by
  unfold itemsOf toItems
  simp only [foldl_concat]
  generalize is.foldl (replaceOffsets table strings1 strings2) ([], names.foldl (fun f o => f.use1 (strings1.resolve? o)) {}) =
    state
  obtain ⟨before, found⟩ := state
  have hcut : before.takeWhile isPush ++ before.dropWhile isPush = before := takeWhile_append_dropWhile
  have hrow : (before.takeWhile isPush ++ before.dropWhile isPush).takeWhile isPush =
      before.takeWhile isPush := by rw [hcut]
  obtain ⟨i', hname, hsame, hitems⟩ := replaceOffsets_row table strings1 strings2 hrow found i
  rw [hcut] at hitems
  refine ⟨i', hname, hsame, ?_⟩
  rw [hitems, rdropWhile_reverse, rtakeWhile_reverse, length_reverse]
  simp

/-- **The row of pushes before an instruction is listed as it is**, until a call comes that takes
texts. -/
theorem rtakeWhile_itemsOf (is : List Instruction) :
    (itemsOf table strings1 strings2 names is).rtakeWhile isPush =
      (is.rtakeWhile Instruction.isPush).map .instruction := by
  induction is using reverseRecOn with
  | nil => rfl
  | append_singleton is i ih =>
    obtain ⟨i', hname, hsame, hitems⟩ := itemsOf_concat table strings1 strings2 names is i
    rw [hitems]
    by_cases hpush : i.isPush = true
    · obtain ⟨hnames, hcall⟩ := Instruction.not_call_of_isPush hpush
      rw [hsame hnames, textTargets_of_not_call hcall, withTexts_nil, rdropWhile_append_rtakeWhile,
        rtakeWhile_concat_pos isPush _ _ hpush, rtakeWhile_concat_pos Instruction.isPush _ _ hpush, ih,
        map_append]
      rfl
    · have hpush' : ¬ (instruction i').isPush = true := by
        simpa only [Instruction.isPush, isPush, hname] using hpush
      rw [rtakeWhile_concat_neg _ _ _ hpush', rtakeWhile_concat_neg _ _ _ hpush]
      rfl

theorem length_itemsOf (is : List Instruction) :
    (itemsOf table strings1 strings2 names is).length = is.length := by
  induction is using reverseRecOn with
  | nil => rfl
  | append_singleton is i ih =>
    obtain ⟨i', -, -, hitems⟩ := itemsOf_concat table strings1 strings2 names is i
    have hcut := congrArg length
      (rdropWhile_append_rtakeWhile (p := isPush) (l := itemsOf table strings1 strings2 names is))
    rw [length_append] at hcut
    rw [hitems, length_append, length_append, length_append, withTexts, length_mapIdx, hcut, ih]
    rfl

/-! ### Which pushes become texts -/

/-- The number of pushes that stand directly before the instruction at `i`. -/
def pushCount (code : List Instruction) (i : Nat) : Nat :=
  ((code.take i).rtakeWhile Instruction.isPush).length

/-- The instruction at `j` is the `p`-th of the `n` instructions directly before the one at `i`. -/
def IsArgument (i n : Nat) (p : Int) (j : Nat) : Prop := 1 ≤ p ∧ p ≤ n ∧ (j : Int) + n + 1 = i + p

def IsTextAt (items : List Item) (j : Nat) : Prop := ∃ it, items[j]? = some it ∧ it.isText = true

def BecomesText (code : List Instruction) (i j : Nat) : Prop :=
  IsTextAt (itemsOf table strings1 strings2 names (code.take (i + 1))) j ∧
    ¬ IsTextAt (itemsOf table strings1 strings2 names (code.take i)) j

variable {table strings1 strings2 names}

theorem isTextAt_append {as bs : List Item} :
    IsTextAt (as ++ bs) j ↔ IsTextAt as j ∨ as.length ≤ j ∧ IsTextAt bs (j - as.length) := by
  unfold IsTextAt
  by_cases hj : j < as.length
  · simp [getElem?_append_left hj, not_le.mpr hj]
  · have hle : as.length ≤ j := not_lt.mp hj
    simp [getElem?_append_right hle, hle]

theorem not_isTextAt_instructions (is : List Instruction) (j : Nat) :
    ¬ IsTextAt (is.map .instruction) j := by
  rintro ⟨it, hit, htext⟩
  obtain ⟨i, -, rfl⟩ := mem_map.mp (mem_of_getElem? hit)
  cases htext

theorem isTextAt_withTexts {is : List Instruction} : IsTextAt (withTexts strings1 positions (is.map .instruction)) k ↔
      (∃ p ∈ positions, p.toInt = k + 1) ∧ ∃ push, is[k]? = some push ∧ push.PushesString strings1 := by
  unfold IsTextAt withTexts
  rw [getElem?_mapIdx, getElem?_map]
  cases hk : is[k]? with
  | none => simp
  | some i =>
    simp only [Option.map_some, Option.some.injEq, exists_eq_left']
    by_cases hp : ∃ p ∈ positions, p.toInt = k + 1
    · rw [if_pos hp]
      rcases asText_instruction_cases strings1 i with ⟨hno, hsame⟩ | ⟨hyes, htext⟩
      · simp [hno, hsame, isText]
      · exact ⟨fun _ => ⟨hp, hyes⟩, fun _ => htext⟩
    · simp [hp, isText]

theorem isTextAt_row_iff {front : List Item} {row : List Instruction} :
    (IsTextAt (front ++ withTexts strings1 positions (row.map .instruction) ++ [.instruction i]) j ∧
      ¬ IsTextAt (front ++ row.map .instruction) j) ↔
    front.length ≤ j ∧ (∃ p ∈ positions, p.toInt = (j - front.length : Nat) + 1) ∧
      ∃ push, row[j - front.length]? = some push ∧ push.PushesString strings1 := by
  have hlast : ∀ k, ¬ IsTextAt [instruction i] k := not_isTextAt_instructions [i]
  have hfront : IsTextAt front j → j < front.length := fun ⟨_, hit, _⟩ => (List.getElem?_eq_some_iff.mp hit).1
  rw [isTextAt_append, isTextAt_append, isTextAt_append, isTextAt_withTexts]
  constructor
  · rintro ⟨(hold | hnew) | hend, hnot⟩
    · exact absurd (.inl hold) hnot
    · exact hnew
    · exact absurd hend.2 (hlast _)
  · rintro ⟨hle, hpush⟩
    refine ⟨.inl (.inr ⟨hle, hpush⟩), ?_⟩
    rintro (hold | hrow)
    · exact absurd (hfront hold) (not_lt.mpr hle)
    · exact not_isTextAt_instructions row _ hrow.2

theorem getElem?_row {i : Nat} (hi : i ≤ code.length) {push : Instruction} :
    ((code.take i).rtakeWhile Instruction.isPush)[k]? = some push ↔
      k < pushCount code i ∧ code[i - pushCount code i + k]? = some push := by
  have hcut := rdropWhile_append_rtakeWhile (p := Instruction.isPush) (l := code.take i)
  have hlength := congrArg length hcut
  rw [length_append, length_take, min_eq_left hi] at hlength
  unfold pushCount
  generalize (code.take i).rtakeWhile Instruction.isPush = row at hcut hlength
  by_cases hk : k < row.length
  · have hplace : code[i - row.length + k]? = row[k]? := by
      rw [← getElem?_take_of_lt (show i - row.length + k < i by omega), ← hcut,
        getElem?_append_right (by omega)]
      congr 1
      omega
    simp [hk, hplace]
  · simp [hk]

variable (table strings1 strings2 names) in
theorem itemsOf_take_succ {i : Nat} {call : Instruction} (hcall : code[i]? = some call) :
    ∃ front i', front.length + pushCount code i = i ∧
      itemsOf table strings1 strings2 names (code.take i) =
        front ++ ((code.take i).rtakeWhile Instruction.isPush).map .instruction ∧
      itemsOf table strings1 strings2 names (code.take (i + 1)) =
        front ++ withTexts strings1 (textTargets table call (pushCount code i))
          (((code.take i).rtakeWhile Instruction.isPush).map .instruction) ++ [.instruction i'] := by
  have hi : i < code.length := (List.getElem?_eq_some_iff.mp hcall).1
  have htake : code.take (i + 1) = code.take i ++ [call] := by
    rw [take_add_one, hcall]
    rfl
  obtain ⟨i', -, -, hitems⟩ := itemsOf_concat table strings1 strings2 names (code.take i) call
  have hcut := rdropWhile_append_rtakeWhile (p := isPush)
    (l := itemsOf table strings1 strings2 names (code.take i))
  rw [rtakeWhile_itemsOf] at hitems hcut
  refine ⟨_, i', ?_, hcut.symm, ?_⟩
  · have hlength := congrArg length hcut
    rwa [length_append, length_map, length_itemsOf, length_take, min_eq_left hi.le] at hlength
  · rw [htake, hitems, length_map]
    rfl

/-- **Which instructions become texts.** A call with positions in the table makes texts of the
pushes that stand at these positions of the row of pushes directly before it, if their operand
points at a string. -/
theorem becomesText_iff {i : Nat} : BecomesText table strings1 strings2 names code i j ↔
      ∃ call positions p push, code[i]? = some call ∧ textPositions? table call = some positions ∧
        p ∈ targetPositions positions (pushCount code i) ∧ IsArgument i (pushCount code i) p.toInt j ∧
        code[j]? = some push ∧ push.PushesString strings1 := by
  cases hcall : code[i]? with
  | none =>
    have hle : code.length ≤ i := getElem?_eq_none_iff.mp hcall
    unfold BecomesText
    rw [take_of_length_le hle, take_of_length_le (by omega)]
    simp
  | some call =>
    have hi : i < code.length := (List.getElem?_eq_some_iff.mp hcall).1
    obtain ⟨front, i', hlength, hbefore, hafter⟩ := itemsOf_take_succ table strings1 strings2 names hcall
    rw [BecomesText, hbefore, hafter, isTextAt_row_iff]
    constructor
    · rintro ⟨hle, ⟨p, hp, hplace⟩, push, hpush, hstring⟩
      obtain ⟨hlt, hcode⟩ := (getElem?_row hi.le).mp hpush
      obtain ⟨positions, hpositions, hp⟩ := mem_textTargets.mp hp
      refine ⟨call, positions, p, push, rfl, hpositions, hp, ⟨by omega, by omega, by omega⟩, ?_, hstring⟩
      rwa [show i - pushCount code i + (j - front.length) = j by omega] at hcode
    · rintro ⟨_, positions, p, push, hsame, hpositions, hp, ⟨hfirst, hlast, hplace⟩, hcode, hstring⟩
      cases hsame
      refine ⟨by omega, ⟨p, mem_textTargets.mpr ⟨positions, hpositions, hp⟩, by omega⟩, push, ?_, hstring⟩
      refine (getElem?_row hi.le).mpr ⟨by omega, ?_⟩
      rwa [show i - pushCount code i + (j - front.length) = j by omega]

theorem isTextAt_take_succ {i : Nat}
    (h : IsTextAt (itemsOf table strings1 strings2 names (code.take i)) j) :
    IsTextAt (itemsOf table strings1 strings2 names (code.take (i + 1))) j := by
  cases hcall : code[i]? with
  | none =>
    have hle : code.length ≤ i := getElem?_eq_none_iff.mp hcall
    rwa [take_of_length_le hle, ← take_of_length_le (le_succ_of_le hle)] at h
  | some call =>
    obtain ⟨front, i', -, hbefore, hafter⟩ := itemsOf_take_succ table strings1 strings2 names hcall
    rw [hbefore, isTextAt_append] at h
    rw [hafter, isTextAt_append, isTextAt_append]
    rcases h with hfront | hrow
    · exact .inl (.inl hfront)
    · exact absurd hrow.2 (not_isTextAt_instructions _ _)

/-- **Every text is made by some instruction.** -/
theorem isTextAt_take_iff {n : Nat} :
    IsTextAt (itemsOf table strings1 strings2 names (code.take n)) j ↔
      ∃ i < n, BecomesText table strings1 strings2 names code i j := by
  induction n with
  | zero =>
    constructor
    · rintro ⟨it, hit, -⟩
      cases hit
    · rintro ⟨i, hi, -⟩
      cases hi
  | succ n ih =>
    by_cases hbefore : IsTextAt (itemsOf table strings1 strings2 names (code.take n)) j
    · obtain ⟨i, hi, hmade⟩ := ih.mp hbefore
      exact iff_of_true (isTextAt_take_succ hbefore) ⟨i, lt_succ_of_lt hi, hmade⟩
    · constructor
      · intro hafter
        exact ⟨n, lt_succ_self n, hafter, hbefore⟩
      · rintro ⟨i, hi, hmade⟩
        rcases Nat.lt_succ_iff_lt_or_eq.mp hi with hlt | rfl
        · exact absurd (ih.mpr ⟨i, hlt, hmade⟩) hbefore
        · exact hmade.1

/-! ### The arguments of a call -/

/-- The `p`-th of `m` instructions before a call is one of the last `n` of them if it is not too far
in front, and it is the `p`-th of these only if `m` and `n` are the same. -/
theorem IsArgument.of_row {i m : Nat} {p : Int} (h : IsArgument i m p j) (n : Nat) :
    ((∃ q, IsArgument i n q j) ↔ (m : Int) < n + p) ∧ (IsArgument i n p j ↔ m = n) := by
  obtain ⟨hfirst, hlast, hplace⟩ := h
  refine ⟨⟨?_, fun hlt => ⟨p + n - m, ?_, ?_, ?_⟩⟩, ⟨?_, ?_⟩⟩
  · rintro ⟨q, hq, -, hq'⟩
    omega
  · omega
  · omega
  · omega
  · rintro ⟨-, -, hn⟩
    omega
  · rintro rfl
    exact ⟨hfirst, hlast, hplace⟩

end

/-- **Texts are made of the row of pushes before a call.** Every text of the items is made by one
instruction. That is a call for which the table gives positions, and what it makes texts of are the
pushes of strings at these positions of the row of pushes directly before it. Such a push is one of
the `n` arguments of the call if the row has fewer than `n + p` pushes, where `p` is its position,
and it is the `p`-th of them exactly if the row has `n`. -/
theorem texts_of_calls (table : ArgumentTable) (strings1 strings2 : StringIndex) (names : List Int)
    (code : List Instruction) :
    (∀ j, IsTextAt (toItems table strings1 strings2 names code).1 j ↔
      ∃ i < code.length, BecomesText table strings1 strings2 names code i j) ∧
    (∀ i j, BecomesText table strings1 strings2 names code i j ↔
      ∃ call positions p push, code[i]? = some call ∧ textPositions? table call = some positions ∧
        p ∈ targetPositions positions (pushCount code i) ∧ IsArgument i (pushCount code i) p.toInt j ∧
        code[j]? = some push ∧ push.PushesString strings1) ∧
    ∀ i call n, code[i]? = some call → argumentCount? call = some n →
      ∀ j, BecomesText table strings1 strings2 names code i j →
        ∃ positions p, textPositions? table call = some positions ∧ p ∈ targetPositions positions (pushCount code i) ∧
          IsArgument i (pushCount code i) p.toInt j ∧
          ((∃ q, IsArgument i n q j) ↔ (pushCount code i : Int) < n + p.toInt) ∧
          (IsArgument i n p.toInt j ↔ pushCount code i = n) := by
  refine ⟨fun j => ?_, fun i j => becomesText_iff, fun i call n hcall _ j hmade => ?_⟩
  · have hall : itemsOf table strings1 strings2 names (code.take code.length) =
        (toItems table strings1 strings2 names code).1 := by
      rw [List.take_length]
      rfl
    rw [← hall]
    exact isTextAt_take_iff
  · obtain ⟨call', positions, p, push, hcall', hpositions, hp, hplace, -, -⟩ := becomesText_iff.mp hmade
    obtain rfl : call = call' := Option.some.inj (hcall.symm.trans hcall')
    exact ⟨positions, p, hpositions, hp, hplace, hplace.of_row n⟩

/-- A call of the function that shows texts, with one argument. -/
def callShow : Instruction := ⟨"CALLB", [1, 0, 0, 0, 1], ["01", "00000001"]⟩

def pushFirst : Instruction := ⟨"PUSHI", [0, 0, 0, 0], ["00000000"]⟩

/-- With one push before the call, the argument becomes a text. -/
theorem texts_of_calls_callShow :
    let strings := StringIndex.ofRegion [0x61, 0x62, 0]
    argumentCount? callShow = some 1 ∧
      BecomesText argumentTable strings (.ofRegion []) [] [pushFirst, callShow] 1 0 ∧ IsArgument 1 1 1 0 := by
  intro strings
  have hmade : BecomesText argumentTable strings (.ofRegion []) [] [pushFirst, callShow] 1 0 := by
    refine ⟨⟨.text [0, 0, 0, 0] "ab", by decide, rfl⟩, ?_⟩
    exact not_isTextAt_instructions [pushFirst] 0
  obtain ⟨-, -, hcalls⟩ := texts_of_calls argumentTable strings (.ofRegion []) [] [pushFirst, callShow]
  obtain ⟨positions, p, -, -, -, -, hplace⟩ := hcalls 1 callShow 1 rfl rfl 0 hmade
  have hargument : IsArgument 1 1 p.toInt 0 := hplace.mpr (by decide)
  have hp : p.toInt = 1 := by
    have := hargument.2.2
    omega
  rw [hp] at hargument
  exact ⟨rfl, hmade, hargument⟩

/-- With two pushes before the call, both become texts, and the first one is not the argument. -/
theorem becomesText_not_argument :
    let strings := StringIndex.ofRegion [0x61, 0x62, 0]
    argumentCount? callShow = some 1 ∧
      BecomesText argumentTable strings (.ofRegion []) [] [pushFirst, pushFirst, callShow] 2 0 ∧
      ¬ ∃ q, IsArgument 2 1 q 0 := by
  refine ⟨rfl, ⟨⟨.text [0, 0, 0, 0] "ab", by decide, rfl⟩, ?_⟩, ?_⟩
  · exact not_isTextAt_instructions [pushFirst, pushFirst] 0
  · rintro ⟨q, hq, -, hplace⟩
    omega

end Localizer.Script
