import Localizer.Proofs.Fault
import Localizer.Proofs.Text.Words
import Localizer.Proofs.Word
import Localizer.Script.Listing

/-!
# Tokens and instructions read back

A number that is written as a token is read as the same number, operands that are joined are found
again, and a line without a line feed is what writing its text on one line gives. A text is what its
line says unless it holds a written line feed itself.
-/

namespace Localizer.Script

open List hiding replace splitOn
open Text

variable {t : Text} (width n : Nat)

/-! ### Lists side by side -/

theorem forall₂_append_left {α β : Type} {R : α → β → Prop} {as bs : List α} {cs : List β}
    (h : Forall₂ R (as ++ bs) cs) :
    ∃ cs₁ cs₂, cs = cs₁ ++ cs₂ ∧ Forall₂ R as cs₁ ∧ Forall₂ R bs cs₂ := by
  induction as generalizing cs with
  | nil => exact ⟨[], cs, rfl, .nil, h⟩
  | cons a as ih =>
    cases h with
    | cons hac hrest =>
      obtain ⟨cs₁, cs₂, rfl, h₁, h₂⟩ := ih hrest
      exact ⟨_ :: cs₁, cs₂, rfl, .cons hac h₁, h₂⟩

/-! ### Hexadecimal tokens -/

theorem readHexToken_of_isHexToken (h : isHexToken t = true) : ∃ n, readHexToken t = .ok n := by
  obtain ⟨ds, hds⟩ := Option.isSome_iff_exists.mp h
  have hne : (trim t).isEmpty = false := by
    cases ht : trim t with
    | nil => rw [ht] at hds; cases hds
    | cons c cs => rfl
  rw [readHexToken, hne, hds]
  exact ⟨_, rfl⟩

theorem trim_upperHex : trim (upperHex width n) = upperHex width n :=
  trim_eq_self_of_forall (forall_mem_upperHex (by decide))

theorem hexDigits?_of_forall (hne : t ≠ []) (h : ∀ c ∈ t, (hexValue? c).isSome = true) :
    hexDigits? t = some t := by
  have hdigits : (!t.isEmpty && t.all fun c => (hexValue? c).isSome) = true := by
    rw [Bool.and_eq_true, all_eq_true]
    exact ⟨by simpa using hne, h⟩
  have hx : ∀ x ∈ t, ¬ (x = 'x' || x = 'X') = true := by
    rintro x hx hmark
    have hdigit := h x hx
    rcases Bool.or_eq_true_iff.mp hmark with hmark | hmark
    · rw [of_decide_eq_true hmark] at hdigit
      exact absurd hdigit (by decide)
    · rw [of_decide_eq_true hmark] at hdigit
      exact absurd hdigit (by decide)
  unfold hexDigits?
  simp only
  split
  · next x ds => rw [if_neg (hx x (by simp)), if_pos hdigits]
  · rw [if_pos hdigits]

theorem hexDigits?_upperHex : hexDigits? (upperHex width n) = some (upperHex width n) :=
  hexDigits?_of_forall (upperHex_ne_nil width n)
    (forall_mem_upperHex fun d hd => by rw [hexValue?_upperHexDigit d hd]; rfl)

theorem isHexToken_upperHex : isHexToken (upperHex width n) = true := by
  rw [isHexToken, trim_upperHex, hexDigits?_upperHex]
  rfl

theorem readHexToken_upperHex : readHexToken (upperHex width n) = .ok n := by
  have hne : (upperHex width n).isEmpty = false := by simpa using upperHex_ne_nil width n
  rw [readHexToken, trim_upperHex, hne, hexDigits?_upperHex]
  exact congrArg Except.ok (hexNumber_upperHex width n)

theorem readHexToken_hexWord {n : Nat} (h : n < 0x100000000) : readHexToken (hexWord n) = .ok n := by
  rw [hexWord, readHexToken_upperHex, Word.wrap_of_lt h]

theorem readHexToken_hexByte (b : UInt8) : readHexToken (hexByte b.toNat) = .ok b.toNat := by
  rw [hexByte, readHexToken_upperHex, Word.wrap_of_lt b.toNat_lt]

/-! ### Operands -/

/-- A text that can stand among operands: it is not blank and has no comma in it. -/
def IsOperand (t : Text) : Prop := trim t ≠ [] ∧ ',' ∉ t

theorem isOperand_upperHex : IsOperand (upperHex width n) := by
  refine ⟨?_, fun h => ?_⟩
  · rw [trim_upperHex]
    exact upperHex_ne_nil width n
  · exact (forall_mem_upperHex (P := fun c => c ≠ ',') (by decide) _ h) rfl

theorem splitOperands_join {os : List Text} (h : ∀ o ∈ os, IsOperand o) (hne : os ≠ []) :
    splitOperands (' ' :: join ", ".toList os) = os.map trim := by
  have hcut : splitOn ',' (' ' :: join ", ".toList os) = os.map (' ' :: ·) := by
    induction os with
    | nil => exact absurd rfl hne
    | cons o os ih =>
      have hcomma : ',' ∉ ' ' :: o := fun hm => by
        rcases mem_cons.mp hm with hm | hm
        · cases hm
        · exact (h o mem_cons_self).2 hm
      cases os with
      | nil => rw [join_singleton, splitOn_of_not_mem hcomma]; rfl
      | cons p os =>
        change splitOn ',' ((' ' :: o) ++ ',' :: (' ' :: join _ (p :: os))) = _
        rw [splitOn_append_sep hcomma, ih (fun o ho => h o (mem_cons_of_mem _ ho)) (by simp)]
        rfl
  rw [splitOperands, hcut, map_map, filter_eq_self.mpr]
  · rfl
  · intro o ho
    obtain ⟨p, hp, rfl⟩ := mem_map.mp ho
    have hp : trim p ≠ [] := (h p hp).1
    simpa [trim_space_cons] using hp

theorem splitOperands_append_blanks {s : Text} (hs : ∀ c ∈ s, isBlank c = true) :
    splitOperands (t ++ s) = splitOperands t := by
  have hcomma : ',' ∉ s := fun hm => absurd (hs _ hm) (by decide)
  obtain ⟨ps, p, h₁, h₂⟩ := splitOn_append_of_not_mem (t := t) hcomma
  rw [splitOperands, splitOperands, h₁, h₂, map_append, map_append, map_singleton, map_singleton,
    trim_append_of_forall hs]

/-! ### Texts on one line -/

theorem escapeLine_eq (t : Text) :
    escapeLine t = t.flatMap fun c => if c = '\n' then ['\\', 'n'] else [c] := by
  induction t with
  | nil => rfl
  | cons c t ih =>
    rw [flatMap_cons, ← ih]
    split_ifs with hc
    · subst hc
      exact replace_found
    · exact replace_step fun hpre => hc (cons_prefix_cons.mp hpre).1.symm

theorem unescapeLine_break (t : Text) : unescapeLine ('\\' :: 'n' :: t) = '\n' :: unescapeLine t :=
  replace_found

theorem unescapeLine_cons {c : Char} (h : c = '\\' → t.head? ≠ some 'n') :
    unescapeLine (c :: t) = c :: unescapeLine t :=
  replace_pair_step h

theorem line_induction {P : Text → Prop} (nil : P []) (found : ∀ t, P t → P ('\\' :: 'n' :: t))
    (step : ∀ c t, (c = '\\' → t.head? ≠ some 'n') → P t → P (c :: t)) (t : Text) : P t := by
  -- a written line feed takes two characters, so the statement is carried for the tail as well
  have key : P t ∧ P t.tail := by
    induction t with
    | nil => exact ⟨nil, nil⟩
    | cons c t ih =>
      refine ⟨?_, ih.1⟩
      by_cases hc : c = '\\' ∧ t.head? = some 'n'
      · obtain ⟨rfl, hn⟩ := hc
        obtain ⟨u, rfl⟩ := head?_eq_some_iff.mp hn
        exact found u ih.2
      · exact step c t (fun hb hn => hc ⟨hb, hn⟩) ih.1
  exact key.1

theorem unescapeLine_eq_self (h : '\\' ∉ t) : unescapeLine t = t := by
  induction t with
  | nil => rfl
  | cons c t ih =>
    rw [unescapeLine_cons fun hc => absurd (hc ▸ mem_cons_self) h, ih fun hm => h (mem_cons_of_mem _ hm)]

/-- **A line without a line feed is what writing its text on one line gives.** -/
theorem escapeLine_unescapeLine (h : '\n' ∉ t) : escapeLine (unescapeLine t) = t := by
  induction t using line_induction with
  | nil => rfl
  | found t ih =>
    rw [unescapeLine_break, escapeLine_eq, flatMap_cons, ← escapeLine_eq, ih (by simpa using h)]
    rfl
  | step c t hc ih =>
    rw [mem_cons, not_or] at h
    rw [unescapeLine_cons hc, escapeLine_eq, flatMap_cons, ← escapeLine_eq, ih h.2, if_neg (Ne.symm h.1)]
    rfl

/-- **A text without a written line feed is what its line says.** -/
theorem unescapeLine_escapeLine (h : ¬ ['\\', 'n'] <:+: t) : unescapeLine (escapeLine t) = t := by
  induction t with
  | nil => rfl
  | cons c t ih =>
    have hrest := ih fun hin => h (hin.trans (suffix_cons c t).isInfix)
    rw [escapeLine_eq] at hrest ⊢
    rw [flatMap_cons]
    by_cases hc : c = '\n'
    · subst hc
      exact (unescapeLine_break _).trans (congrArg _ hrest)
    · rw [if_neg hc, singleton_append, unescapeLine_cons, hrest]
      rintro rfl hn
      -- the rest begins with the letter only if the text does
      cases t with
      | nil => cases hn
      | cons d t =>
        by_cases hd : d = '\n'
        · subst hd
          exact absurd hn (by simp)
        · rw [flatMap_cons, if_neg hd, singleton_append, head?_cons, Option.some_inj] at hn
          subst hn
          exact h ⟨[], t, rfl⟩

theorem not_writtenBreak_unescapeLine (t : Text) : ¬ ['\\', 'n'] <:+: unescapeLine t := by
  have hhead : ∀ u : Text, (unescapeLine u).head? = some 'n' → u.head? = some 'n' := fun u => by
    induction u using line_induction with
    | nil => exact id
    | found u _ => simp [unescapeLine_break]
    | step c u hc _ => simp [unescapeLine_cons hc]
  induction t using line_induction with
  | nil => decide
  | found t ih => simpa [unescapeLine_break, infix_cons_iff] using ih
  | step c t hc ih =>
    rw [unescapeLine_cons hc, infix_cons_iff, not_or]
    refine ⟨fun hpre => ?_, ih⟩
    obtain ⟨hb, u, hu⟩ := cons_prefix_cons.mp hpre
    exact hc hb.symm (hhead t (by rw [← hu]; rfl))

/-- **A text is what its line says exactly if it holds no written line feed.** -/
theorem unescapeLine_escapeLine_iff (t : Text) :
    unescapeLine (escapeLine t) = t ↔ ¬ ['\\', 'n'] <:+: t :=
  ⟨fun h => h ▸ not_writtenBreak_unescapeLine (escapeLine t), unescapeLine_escapeLine⟩

/-- A string of a region that holds a written line feed comes back as a line feed. -/
theorem unescapeLine_escapeLine_break :
    (StringIndex.ofRegion [0x5C, 0x6E, 0]).items.map StringItem.text = [['\\', 'n']] ∧
    unescapeLine (escapeLine ['\\', 'n']) ≠ ['\\', 'n'] := by
  decide

/-! ## Complete instructions

Code that is a row of complete instructions is taken apart into just those instructions
(`disassemble_flatten`). What a listing shows of an instruction is enough to put it together again:
its operands are accepted after its name, and encoding them gives its payload back, whatever texts
the two pools hold (`encodeOperands_operands`). -/

open Word

variable {op : Opcode} {bs : Bytes}
variable {k n : Nat} {p : Bytes} {codes : List Bytes}

/-! ### The table of opcodes -/

theorem find?_of_mem_opcodes :
    ∀ e ∈ opcodes.zipIdx, opcodes.find? e.1.name = some (e.2, e.1) := by decide +kernel

theorem find?_opcodes (h : opcodes[k]? = some op) : opcodes.find? op.name = some (k, op) :=
  find?_of_mem_opcodes (op, k) (mk_mem_zipIdx_iff_getElem?.mpr h)

theorem of_find?_opcodes {name : Text} (h : opcodes.find? name = some (k, op)) :
    opcodes[k]? = some op ∧ op.name = name := by
  obtain ⟨e, he, heq⟩ := Option.map_eq_some_iff.mp h
  cases heq
  have hmem := mem_reverse.mp (mem_of_find?_eq_some he)
  exact ⟨mk_mem_zipIdx_iff_getElem?.mp hmem, by simpa using find?_some he⟩

theorem toNat_ofNat_of_getElem?_opcodes (h : opcodes[k]? = some op) : (UInt8.ofNat k).toNat = k := by
  have hk : k < 45 := (List.getElem?_eq_some_iff.mp h).1
  rw [UInt8.toNat_ofNat', Nat.mod_eq_of_lt (by omega)]

theorem payload_of_mem_opcodes : ∀ op ∈ opcodes, op.payload = .table ∨ op.payload = .bytes 0 ∨
    op.payload = .bytes 1 ∨ op.payload = .bytes 4 ∨ op.payload = .bytes 5 ∨ op.payload = .bytes 8 ∨
    op.payload = .bytes 9 := by
  decide

theorem eq_of_namesScript : ∀ op ∈ opcodes, namesScript op.name = true →
    op = ⟨"JMPG", .bytes 8⟩ ∨ op = ⟨"CALLG", .bytes 9⟩ := by
  decide

theorem find?_pushi : opcodes.find? "PUSHI" = some (0x01, ⟨"PUSHI", .bytes 4⟩) :=
  find?_opcodes (show opcodes[0x01]? = some ⟨"PUSHI", .bytes 4⟩ from rfl)

/-! ### Complete payloads -/

def Payload.Complete : Payload → Bytes → Prop
  | .table, p => ∃ count words, p = count :: words ∧ words.length = count.toNat * 4
  | .bytes size, p => p.length = size

instance : (p : Payload) → (bs : Bytes) → Decidable (p.Complete bs)
  | .table, [] => .isFalse nofun
  | .table, count :: words => decidable_of_iff (words.length = count.toNat * 4) (by simp [Payload.Complete])
  | .bytes size, bs => inferInstanceAs (Decidable (bs.length = size))

def Payload.operands : Payload → Bytes → List Text
  | .table, [] => []
  | .table, count :: words => hexByte count.toNat :: showWords count.toNat words
  | .bytes _, p => showOperands p

theorem showWords_append (h : bs.length = n * 4) (rest : Bytes) :
    showWords n (bs ++ rest) = showWords n bs := by
  induction n generalizing bs with
  | zero => rfl
  | succ n ih =>
    rw [showWords, showWords, take_append_of_le_length (by omega), drop_append_of_le_length (by omega),
      ih (by rw [length_drop]; omega)]

theorem Opcode.read?_append (h : op.payload.Complete p) (rest : Bytes) :
    op.read? (p ++ rest) = some (⟨op.name, p, op.payload.operands p⟩, rest) := by
  unfold Opcode.read?
  cases hp : op.payload with
  | table =>
    rw [hp] at h
    obtain ⟨count, words, rfl, hwords⟩ := h
    simp only [cons_append]
    rw [if_neg (by rw [length_append]; omega), take_left' hwords, drop_left' hwords,
      showWords_append hwords]
    rfl
  | bytes size =>
    rw [hp] at h
    change p.length = size at h
    simp only
    rw [if_neg (by rw [length_append]; omega), take_left' h, drop_left' h]
    rfl

/-! ### Rows of instructions -/

def Encodes (i : Instruction) (code : Bytes) : Prop :=
  ∃ b op, opcodes[b.toNat]? = some op ∧ op.payload.Complete i.payload ∧
    i = ⟨op.name, i.payload, op.payload.operands i.payload⟩ ∧ code = b :: i.payload

/-- Code that is one complete instruction of the table. -/
def IsInstruction (code : Bytes) : Prop :=
  ∃ b payload op, code = b :: payload ∧ opcodes[b.toNat]? = some op ∧ op.payload.Complete payload

instance : DecidablePred IsInstruction
  | [] => .isFalse nofun
  | b :: payload => decidable_of_iff (∃ op ∈ opcodes[b.toNat]?, op.payload.Complete payload) (by simp [IsInstruction])

theorem exists_instructions (h : ∀ code ∈ codes, IsInstruction code) :
    ∃ is, Forall₂ Encodes is codes := by
  induction codes with
  | nil => exact ⟨[], .nil⟩
  | cons code codes ih =>
    obtain ⟨b, payload, op, rfl, hop, hcomplete⟩ := h code mem_cons_self
    obtain ⟨is, his⟩ := ih fun code hcode => h code (mem_cons_of_mem _ hcode)
    exact ⟨⟨op.name, payload, op.payload.operands payload⟩ :: is, .cons ⟨b, op, hop, hcomplete, rfl, rfl⟩ his⟩

theorem disassemble_append {i : Instruction} {code : Bytes} (h : Encodes i code) (rest : Bytes) :
    disassemble opcodes (code ++ rest) = i :: disassemble opcodes rest := by
  obtain ⟨b, op, hop, hcomplete, hi, rfl⟩ := h
  rw [cons_append, disassemble, hop]
  simp only
  rw [Opcode.read?_append hcomplete, ← hi]

/-- **A row of complete instructions is taken apart into those instructions.** -/
theorem disassemble_flatten {is : List Instruction} (h : Forall₂ Encodes is codes) :
    disassemble opcodes codes.flatten = is := by
  induction h with
  | nil => rw [flatten_nil, disassemble]
  | cons h _ ih => rw [flatten_cons, disassemble_append h, ih]

/-! ### Operands as they are written -/

/-- Every operand that is written for a payload is a number of some width. -/
def IsNumber (t : Text) : Prop := ∃ width n, t = upperHex width n

theorem isNumber_hexWord (n : Int) : IsNumber (hexWord n) := ⟨8, _, rfl⟩

theorem isNumber_hexByte (n : Int) : IsNumber (hexByte n) := ⟨2, _, rfl⟩

theorem IsNumber.isOperand (h : IsNumber t) : IsOperand t := by
  obtain ⟨width, n, rfl⟩ := h
  exact isOperand_upperHex width n

theorem IsNumber.isHexToken (h : IsNumber t) : isHexToken t = true := by
  obtain ⟨width, n, rfl⟩ := h
  exact isHexToken_upperHex width n

theorem IsNumber.unescapeLine_trim (h : IsNumber t) : unescapeLine (trim t) = t := by
  obtain ⟨width, n, rfl⟩ := h
  rw [trim_upperHex]
  exact unescapeLine_eq_self fun hm => forall_mem_upperHex (P := fun c => c ≠ '\\') (by decide) _ hm rfl

theorem isNumber_showWords (n : Nat) (bs : Bytes) : ∀ o ∈ showWords n bs, IsNumber o := by
  induction n generalizing bs with
  | zero => exact nofun
  | succ n ih =>
    intro o ho
    rcases mem_cons.mp ho with rfl | ho
    · exact isNumber_hexWord _
    · exact ih _ o ho

theorem isNumber_showOperands (raw : Bytes) : ∀ o ∈ showOperands raw, IsNumber o := by
  intro o ho
  unfold showOperands at ho
  split at ho <;>
    simp only [mem_cons, not_mem_nil, or_false, mem_map] at ho
  · rw [ho]; exact isNumber_hexByte _
  · rw [ho]; exact isNumber_hexWord _
  · rcases ho with rfl | rfl
    · exact isNumber_hexByte _
    · exact isNumber_hexWord _
  · rcases ho with rfl | rfl <;> exact isNumber_hexWord _
  · rcases ho with rfl | rfl | rfl
    · exact isNumber_hexWord _
    · exact isNumber_hexWord _
    · exact isNumber_hexByte _
  · obtain ⟨b, -, rfl⟩ := ho
    exact isNumber_hexByte _

theorem Payload.isNumber_operands (shape : Payload) (p : Bytes) :
    ∀ o ∈ shape.operands p, IsNumber o := by
  intro o ho
  match shape, p with
  | .table, [] => exact absurd ho not_mem_nil
  | .table, count :: words =>
    rcases mem_cons.mp ho with rfl | ho
    · exact isNumber_hexByte _
    · exact isNumber_showWords _ _ o ho
  | .bytes _, p => exact isNumber_showOperands p o ho

theorem mapM_readHexToken_showWords (bs : Bytes) (h : bs.length = n * 4) :
    ∃ ws, (showWords n bs).mapM readHexToken = .ok ws ∧ ws.length = n ∧
      (ws.map fun w : Nat => u32 w).flatten = bs := by
  induction n generalizing bs with
  | zero => exact ⟨[], rfl, rfl, (length_eq_zero_iff.mp (by omega)).symm⟩
  | succ n ih =>
    have htake : (bs.take 4).length = 4 := by rw [length_take]; omega
    obtain ⟨ws, hws, hlen, hflat⟩ := ih (bs.drop 4) (by rw [length_drop]; omega)
    refine ⟨value (bs.take 4) :: ws, ?_, by rw [length_cons, hlen], ?_⟩
    · rw [showWords, mapM_cons, readHexToken_hexWord (value_lt_of_length htake), hws]
      rfl
    · rw [map_cons, flatten_cons, hflat, u32_value htake, take_append_drop]

theorem operandOffset_of_isHexToken (h : isHexToken t = true) (pool : List (Text × Nat)) :
    operandOffset pool t = readHexToken t := by
  rw [operandOffset, if_pos h]

theorem operandOffset_hexWord (h : bs.length = 4) (pool : List (Text × Nat)) :
    operandOffset pool (hexWord (value bs)) = .ok (value bs) := by
  rw [operandOffset_of_isHexToken (isNumber_hexWord _).isHexToken, readHexToken_hexWord (value_lt_of_length h)]

theorem readHexToken_hexWord_value (h : bs.length = 4) :
    readHexToken (hexWord (value bs)) = .ok (value bs) :=
  readHexToken_hexWord (value_lt_of_length h)

theorem Opcode.accepts_operands (hop : op ∈ opcodes) (h : op.payload.Complete p) :
    op.accepts (op.payload.operands p) = true := by
  have hnum := op.payload.isNumber_operands p
  unfold Opcode.accepts
  rcases payload_of_mem_opcodes op hop with hp | hp | hp | hp | hp | hp | hp <;> rw [hp] at h hnum ⊢
  · obtain ⟨count, words, rfl, -⟩ := h
    exact Bool.and_eq_true_iff.mpr ⟨rfl, all_eq_true.mpr fun o ho => (hnum o ho).isHexToken⟩
  · rw [length_eq_zero_iff.mp h]
    rfl
  · match p, h with
    | [a], _ => simp [Payload.operands, showOperands, fits, (isNumber_hexByte _).isHexToken]
  · match p, h with
    | [a, b, c, d], _ => simp [Payload.operands, showOperands, fits, (isNumber_hexWord _).isHexToken]
  · match p, h with
    | [a, b, c, d, e], _ =>
      simp [Payload.operands, showOperands, fits, (isNumber_hexWord _).isHexToken, (isNumber_hexByte _).isHexToken]
  · match p, h with
    | [a, b, c, d, e, f, g, h], _ =>
      simp [Payload.operands, showOperands, fits, anyOperand, (isNumber_hexWord _).isHexToken]
  · match p, h with
    | [a, b, c, d, e, f, g, h, i], _ =>
      simp [Payload.operands, showOperands, fits, anyOperand, (isNumber_hexWord _).isHexToken,
        (isNumber_hexByte _).isHexToken]

/-- **Encoding the operands that are written for a payload gives the payload back**, whatever texts
are in the pools. -/
theorem encodeOperands_operands (hop : op ∈ opcodes) (h : op.payload.Complete p)
    (name : Text) (pool1 pool2 : List (Text × Nat)) :
    encodeOperands name (op.payload.operands p) op pool1 pool2 = .ok p := by
  have hword : ∀ a b c d : UInt8, u32 (value [a, b, c, d]) = [a, b, c, d] :=
    fun a b c d => u32_value rfl
  unfold encodeOperands
  rcases payload_of_mem_opcodes op hop with hp | hp | hp | hp | hp | hp | hp <;> rw [hp] at h ⊢
  · obtain ⟨count, words, rfl, hwords⟩ := h
    obtain ⟨ws, hws, hlen, hflat⟩ := mapM_readHexToken_showWords words hwords
    simp [Payload.operands, readHexToken_hexByte, hws, hlen, hflat, u8_toNat, bind, Except.bind, pure, Except.pure]
  · rw [length_eq_zero_iff.mp h]
    rfl
  · match p, h with
    | [a], _ =>
      simp [Payload.operands, showOperands, readHexToken_hexByte, u8_toNat, bind, Except.bind, pure, Except.pure]
  · match p, h with
    | [a, b, c, d], _ =>
      simp [Payload.operands, showOperands, readHexToken_hexWord_value, hword, bind, Except.bind, pure, Except.pure]
  · match p, h with
    | [a, b, c, d, e], _ =>
      simp [Payload.operands, showOperands, readHexToken_hexWord_value, readHexToken_hexByte, hword, u8_toNat,
        bind, Except.bind, pure, Except.pure]
  · match p, h with
    | [a, b, c, d, e, f, g, h], _ =>
      simp [Payload.operands, showOperands, operandOffset_hexWord, readHexToken_hexWord_value, hword, bind, Except.bind,
        pure, Except.pure]
  · match p, h with
    | [a, b, c, d, e, f, g, h, i], _ =>
      simp [Payload.operands, showOperands, operandOffset_hexWord, readHexToken_hexWord_value, readHexToken_hexByte,
        hword, u8_toNat, bind, Except.bind, pure, Except.pure]

end Localizer.Script
