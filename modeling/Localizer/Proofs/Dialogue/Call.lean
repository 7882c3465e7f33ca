import Localizer.Proofs.Dialogue.Extraction
import Localizer.Proofs.Dialogue.TextLine
import Localizer.Proofs.Script.Relisting

/-!
# The calls of a listing

How extraction takes the lines that calls are listed as. `CALLB` and `CALLL` are listed with the
number of their arguments and a function, and are known as such; `CALLG` is listed with two names
before the number, and is taken for an instruction that leaves the stack alone. A call that is known
takes its arguments from the stack (`arguments`), except that one without arguments takes
everything.
-/

namespace Localizer.Dialogue

open List Text Script Word Statement

variable {n : Nat} {name line : Text} {op : Opcode}
variable {width f : Nat} {h : Header} {image : Bytes} {call : Instruction} {α : Type} {stack : List α} (b : UInt8)

/-! ### Numbers in full -/

theorem length_upperHex (hwidth : 0 < width) (h : n < 16 ^ width) :
    (upperHex width n).length = width := by
  have hdigits := Nat.toDigits_length 16 n width hwidth h
  rw [upperHex, padLeft, length_append, length_replicate, length_map]
  omega

theorem hexWord?_upperHex (hwidth : 0 < width) (h : n < 16 ^ width) :
    hexWord? width (upperHex width n) = some n := by
  have hall : (upperHex width n).all (fun c => (hexValue? c).isSome) = true :=
    all_eq_true.mpr (forall_mem_upperHex fun d hd => by rw [hexValue?_upperHexDigit d hd]; rfl)
  rw [hexWord?, length_upperHex hwidth h, hall, hexNumber_upperHex]
  simp

theorem hexWord?_hexByte : hexWord? 2 (hexByte b.toNat) = some b.toNat := by
  rw [hexByte, wrap_of_lt b.toNat_lt]
  exact hexWord?_upperHex (by decide) b.toNat_lt

theorem hexWord?_hexWord (hf : f < 0x100000000) : hexWord? 8 (hexWord f) = some f := by
  rw [hexWord, wrap_of_lt hf]
  exact hexWord?_upperHex (by decide) hf

/-! ### The words of a call -/

theorem isWord_hexByte (n : Int) : IsWord (hexByte n) :=
  ⟨upperHex_ne_nil _ _, forall_mem_upperHex (by decide)⟩

theorem isWord_hexWord (n : Int) : IsWord (hexWord n) :=
  ⟨upperHex_ne_nil _ _, forall_mem_upperHex (by decide)⟩

theorem words_of_isWord {w : Text} (h : IsWord w) : words w = [w] := by
  have hwords := words_append h blanks_nil.breaksOff
  rwa [append_nil] at hwords

theorem words_ne_nil_append_comma (t : Text) : words (t ++ [',']) ≠ [] := by
  rw [Ne, words_eq_nil_iff]
  intro hblanks
  exact absurd (hblanks ',' (by simp)) (by decide)

theorem words_functionLine (hname : IsWord name) (b : UInt8) (f : Int) :
    words (instructionLine name [hexByte b.toNat, hexWord f]) =
      [name, hexByte b.toNat ++ [','], hexWord f] := by
  have hline : instructionLine name [hexByte b.toNat, hexWord f] =
      name ++ ' ' :: ((hexByte b.toNat ++ [',']) ++ ' ' :: hexWord f) := by
    simp [instructionLine, join, intercalate]
  have hcount : IsWord (hexByte b.toNat ++ [',']) := by
    refine ⟨by simp, fun c hc => ?_⟩
    rcases mem_append.mp hc with hc | hc
    · exact (isWord_hexByte _).not_blank c hc
    · rw [mem_singleton.mp hc]
      decide
  rw [hline, words_append_blank (by decide), words_append_blank (by decide), words_of_isWord hname, words_of_isWord hcount,
    words_of_isWord (isWord_hexWord f)]
  rfl

theorem length_words_namesLine (hname : IsWord name) (s v : Text) (b : UInt8) :
    3 < (words (instructionLine name [s, v, hexByte b.toNat])).length := by
  have hline : instructionLine name [s, v, hexByte b.toNat] =
      name ++ ' ' :: ((s ++ [',']) ++ ' ' :: ((v ++ [',']) ++ ' ' :: hexByte b.toNat)) := by
    simp [instructionLine, join, intercalate]
  have hspace : isBlank ' ' = true := by decide
  rw [hline, words_append_blank hspace, words_append_blank hspace, words_append_blank hspace, words_of_isWord hname,
    words_of_isWord (isWord_hexByte _)]
  have hs := length_pos_of_ne_nil (words_ne_nil_append_comma s)
  have hv := length_pos_of_ne_nil (words_ne_nil_append_comma v)
  simp only [length_append, length_singleton]
  omega

theorem firstWord_instructionLine (hname : IsWord name) (operands : List Text) :
    firstWord (instructionLine name operands) = name := by
  cases operands with
  | nil =>
    have hword := firstWord_eq blanks_nil hname blanks_nil.breaksOff
    rwa [append_nil] at hword
  | cons o os =>
    have hline : instructionLine name (o :: os) = [] ++ (name ++ ' ' :: join ", ".toList (o :: os)) := by
      simp [instructionLine]
    rw [hline]
    exact firstWord_eq blanks_nil hname fun c hc => Option.some.inj hc ▸ rfl

theorem isWord_name (h : op ∈ opcodes) : IsWord op.name :=
  ⟨(name_of_mem_opcodes op h).1, fun c hc => ((name_of_mem_opcodes op h).2 c hc).1⟩

theorem isSectionMark_instructionLine (h : op ∈ opcodes) (operands : List Text) :
    isSectionMark (instructionLine op.name operands) = false := by
  obtain ⟨hne, hchars⟩ := name_of_mem_opcodes op h
  obtain ⟨c, name, hname⟩ := exists_cons_of_ne_nil hne
  obtain ⟨hblank, hc, -⟩ := hchars c (by rw [hname]; exact mem_cons_self)
  obtain ⟨rest, hline⟩ : ∃ rest, instructionLine op.name operands = c :: rest := by
    unfold instructionLine
    rw [hname]
    split
    · exact ⟨_, rfl⟩
    · exact ⟨_, rfl⟩
  have hhead : (trim (instructionLine op.name operands)).head? = some c := by
    rw [hline, head?_trim, find?_cons_of_pos (by rw [hblank]; rfl)]
  have hstart : startsWith (trim (instructionLine op.name operands)) "[" = false := by
    cases htrim : trim (instructionLine op.name operands) with
    | nil => rfl
    | cons d t =>
      rw [htrim] at hhead
      cases hhead
      rw [startsWith, ← Bool.not_eq_true, isPrefixOf_iff_prefix]
      rintro ⟨u, hu⟩
      exact hc (cons.inj hu).1.symm
  rw [isSectionMark, hstart, Bool.false_and]

/-! ### What the lines of calls mean -/

theorem operand?_eq_none_of_words (h : 2 < (words line).length) (name : Text) (width : Nat) :
    operand? name width line = none := by
  unfold operand?
  split
  · next hwords =>
    rw [hwords] at h
    exact absurd h (by simp)
  · rfl

theorem callOperands?_eq_none_of_words (h : 3 < (words line).length) (name : Text) :
    callOperands? name line = none := by
  have hparts : callParts? name line = none := by
    unfold callParts?
    split
    · next hwords =>
      rw [hwords] at h
      exact absurd h (by simp)
    · next hwords =>
      rw [hwords] at h
      exact absurd h (by simp)
    · rfl
  rw [callOperands?_eq, hparts]
  rfl

theorem callOperands?_functionLine (hname : IsWord name) (b : UInt8) (hf : f < 0x100000000)
    (name' : Text) : callOperands? name' (instructionLine name [hexByte b.toNat, hexWord f]) =
      if name = name' then some (b.toNat, f) else none := by
  rw [callOperands?_eq, callParts?, words_functionLine hname]
  by_cases hsame : name = name'
  · simp [hsame, hexWord?_hexByte, hexWord?_hexWord hf]
  · simp [hsame]

/-- The lines of `CALLB` and `CALLL` are known as such. -/
theorem ofLine_functionLine (hf : f < 0x100000000) :
    (IsWord "CALLB" → ofLine (instructionLine "CALLB" [hexByte b.toNat, hexWord f]) = .call b.toNat f) ∧
      (IsWord "CALLL" → ofLine (instructionLine "CALLL" [hexByte b.toNat, hexWord f]) = .leave b.toNat) := by
  have hpush : ∀ {name : Text}, IsWord name → ∀ other width,
      operand? other width (instructionLine name [hexByte b.toNat, hexWord f]) = none := fun hname other width =>
    operand?_eq_none_of_words (by rw [words_functionLine hname]; simp) other width
  constructor
  · intro hname
    rw [ofLine, hpush hname, hpush hname, hpush hname, hpush hname, callOperands?_functionLine hname b hf,
      if_pos rfl]
    rfl
  · intro hname
    have hother : ∀ other ∈ (["CALLB", "CALLI"] : List Text), "CALLL".toList ≠ other := by decide
    have hcall : ∀ other ∈ (["CALLB", "CALLI"] : List Text),
        callOperands? other (instructionLine "CALLL" [hexByte b.toNat, hexWord f]) = none := fun other hmem => by
      rw [callOperands?_functionLine hname b hf, if_neg (hother other hmem)]
    rw [ofLine, hpush hname, hpush hname, hpush hname, hpush hname, hcall _ (by simp), hcall _ (by simp),
      callOperands?_functionLine hname b hf, if_pos rfl]
    rfl

theorem ofLine_namesLine (hname : IsWord "CALLG") (s v : Text) (b : UInt8) :
    ofLine (instructionLine "CALLG" [s, v, hexByte b.toNat]) = .operation "CALLG" := by
  have hwords := length_words_namesLine hname s v b
  have hpush := operand?_eq_none_of_words (show 2 < _ from Nat.lt_of_succ_lt hwords)
  have hcall := callOperands?_eq_none_of_words hwords
  have hoperation : isOperation "CALLG" = true := by
    rw [isOperation_name (.inl (by rw [operations_eq]; decide)), operations_eq]
    decide
  rw [ofLine, hpush, hpush, hpush, hpush, hcall, hcall, hcall, hcall, firstWord_instructionLine hname]
  simp only [Option.isSome_none, Bool.or_self, Bool.false_eq_true, if_false, Option.or_none]
  rw [if_pos hoperation]

/-! ### The calls that are listed -/

theorem complete_of_read? {code rest : Bytes} {i : Instruction} (h : op.read? code = some (i, rest)) :
    op.payload.Complete i.payload ∧ i = ⟨op.name, i.payload, op.payload.operands i.payload⟩ := by
  unfold Opcode.read? at h
  cases hpayload : op.payload with
  | table =>
    simp only [hpayload] at h
    cases code with
    | nil => cases h
    | cons count words =>
      simp only at h
      split at h
      · cases h
      · cases h
        have htake : (words.take (count.toNat * 4)).length = count.toNat * 4 := by
          rw [length_take]
          omega
        have hwords := showWords_append htake (words.drop (count.toNat * 4))
        rw [take_append_drop] at hwords
        refine ⟨⟨count, _, rfl, htake⟩, ?_⟩
        rw [Payload.operands, hwords]
  | bytes size =>
    simp only [hpayload] at h
    split at h
    · cases h
    · cases h
      refine ⟨?_, rfl⟩
      change (code.take size).length = size
      rw [length_take]
      omega

theorem exists_encodes_disassemble (code : Bytes) :
    ∃ codes, Forall₂ Encodes (disassemble opcodes code) codes := by
  fun_induction disassemble opcodes code with
  | case1 => exact ⟨[], .nil⟩
  | case2 b rest hnone ih => exact ih
  | case3 b rest op hop hread => exact ⟨[], .nil⟩
  | case4 b rest op hop i rest' hread hlength ih =>
    obtain ⟨codes, hcodes⟩ := ih
    obtain ⟨hcomplete, hi⟩ := complete_of_read? hread
    exact ⟨(b :: i.payload) :: codes, .cons ⟨b, op, hop, hcomplete, hi, rfl⟩ hcodes⟩

theorem payload_of_functionCall :
    ∀ op ∈ opcodes, op.name = "CALLB" ∨ op.name = "CALLL" → op.payload = .bytes 5 := by
  decide

theorem operands_of_mem_listedItems (hcall : .instruction call ∈ listedItems h image) {n : UInt8}
    (hn : call.payload.getLast? = some n) :
    ∃ op ∈ opcodes, op.name = call.name ∧
      (call.name = "CALLB" ∨ call.name = "CALLL" → value (call.payload.take 4) < 0x100000000 ∧
        call.operands = [hexByte n.toNat, hexWord (value (call.payload.take 4))]) ∧
      (call.name = "CALLG" → ∃ s v, call.operands = [s, v, hexByte n.toNat]) := by
  obtain ⟨codes, hcodes⟩ := exists_encodes_disassemble (h.code image)
  obtain ⟨i, code, hshows, b, op, hop, hcomplete, hi, -⟩ := exists_shown (toItems_shows hcodes) hcodes _ hcall
  have hmem := mem_of_getElem? hop
  cases hshows with
  | plain hplain =>
    have hname : op.name = call.name := (congrArg Instruction.name hi).symm
    refine ⟨op, hmem, hname, fun hfunction => ?_, fun hnames => ?_⟩
    · have hbytes : op.payload = .bytes 5 := payload_of_functionCall op hmem (by rwa [hname])
      rw [hbytes] at hcomplete hi
      have hlength : call.payload.length = 5 := hcomplete
      have hoperands : call.operands = showOperands call.payload := congrArg Instruction.operands hi
      refine ⟨value_lt_of_length (by rw [length_take]; omega), ?_⟩
      obtain ⟨a, rest, hpayload⟩ := exists_cons_of_length_eq_add_one hlength
      rw [hpayload, length_cons] at hlength
      obtain ⟨b, c, d, m, rfl⟩ := length_eq_four.mp (Nat.succ.inj hlength)
      rw [hpayload] at hn hoperands ⊢
      obtain rfl : m = n := Option.some.inj hn
      exact hoperands
    · rw [hnames] at hplain
      exact absurd hplain (by decide)
  | @names i p q tail hbetween =>
    refine ⟨op, hmem, (congrArg Instruction.name hi).symm, fun hfunction => ?_, fun hnames => ?_⟩
    · have hnot : ∀ name ∈ (["CALLB", "CALLL"] : List Text), name ≠ "JMPG" ∧ name ≠ "CALLG" := by decide
      have hname := hnot i.name (mem_pair.mpr hfunction)
      rcases hbetween.tail with ⟨hjump, -⟩ | ⟨hcall, -⟩
      · exact absurd hjump hname.1
      · exact absurd hcall hname.2
    · rcases hbetween.tail with ⟨hjump, -⟩ | ⟨-, m, rfl⟩
      · exact absurd (hjump.symm.trans hnames) (by decide)
      · have hlast : i.payload.getLast? = some m := by rw [hbetween.payload, getLast?_concat]
        obtain rfl : m = n := Option.some.inj (hlast.symm.trans hn)
        exact ⟨_, _, rfl⟩

/-- **How the calls of a listing are taken.** -/
theorem ofLine_listedCall (hcall : .instruction call ∈ listedItems h image)
    (hn : call.payload.getLast?.map UInt8.toNat = some n) :
    let line := (Item.instruction call).line
    isSectionMark line = false ∧
      (call.name = "CALLB" → ofLine line = .call n (value (call.payload.take 4))) ∧
      (call.name = "CALLL" → ofLine line = .leave n) ∧
      (call.name = "CALLG" → ofLine line = .operation "CALLG") := by
  obtain ⟨b, hb, rfl⟩ := Option.map_eq_some_iff.mp hn
  obtain ⟨op, hop, hname, hfunction, hnames⟩ := operands_of_mem_listedItems hcall hb
  have hword : IsWord call.name := hname ▸ isWord_name hop
  rw [line_instruction]
  refine ⟨hname ▸ isSectionMark_instructionLine hop call.operands, fun hkind => ?_, fun hkind => ?_, fun hkind => ?_⟩
  · obtain ⟨hlt, hoperands⟩ := hfunction (.inl hkind)
    rw [hoperands, hkind]
    exact (ofLine_functionLine b hlt).1 (hkind ▸ hword)
  · obtain ⟨hlt, hoperands⟩ := hfunction (.inr hkind)
    rw [hoperands, hkind]
    exact (ofLine_functionLine b hlt).2 (hkind ▸ hword)
  · obtain ⟨s, v, hoperands⟩ := hnames hkind
    rw [hoperands, hkind]
    exact ofLine_namesLine (hkind ▸ hword) s v b

/-! ### What calls do -/

theorem step_of_inCode (loc : Locale) (cast : Cast) {e : Extraction} (he : e.cursor.inCode = true)
    (hline : isSectionMark line = false) :
    e.step loc cast line =
      { cursor := ⟨true, e.cursor.line + 1⟩
        stack := (ofLine line).stackAfter line (e.cursor.line + 1) e.stack
        scene := (ofLine line).sceneAfter e.stack e.scene
        items := addAll e.items ((ofLine line).shown loc cast e.stack e.scene) } := by
  have hnumber : e.cursor.number? line = some (e.cursor.line + 1) := Cursor.number?_eq_some_iff.mpr ⟨he, hline, rfl⟩
  rw [Extraction.step, hnumber, Cursor.next_of_inside he hline]
  exact execute_eq loc cast _ line _ _

theorem afterCall_min (n : Nat) (stack : List Value) :
    afterCall (min n stack.length) stack = if n = 0 then [] else stack.drop n := by
  unfold afterCall
  by_cases hn : n = 0
  · rw [if_pos hn, hn, Nat.zero_min, if_pos rfl]
  · split
    · have hempty : stack = [] := length_eq_zero_iff.mp (by omega)
      rw [hempty, drop_nil]
    · exact drop_eq_drop_iff.mpr (by omega)

theorem arguments_min (n : Nat) (stack : List Value) :
    arguments (min n stack.length) stack = (if n = 0 then stack else stack.take n).reverse := by
  unfold arguments
  by_cases hn : n = 0
  · rw [if_pos hn, hn, Nat.zero_min, if_pos rfl]
  · split
    · have hempty : stack = [] := length_eq_zero_iff.mp (by omega)
      rw [hempty, take_nil]
    · rw [take_eq_take_iff.mpr (show min (min n stack.length) stack.length = min n stack.length by omega)]

theorem ite_nil_eq_drop_iff :
    (if n = 0 then [] else stack.drop n) = stack.drop n ↔ n ≠ 0 ∨ stack = [] := by
  by_cases hn : n = 0
  · rw [if_pos hn, hn, drop_zero, eq_comm]
    simp
  · simp [hn]

theorem reverse_ite_eq_take_iff :
    (if n = 0 then stack else stack.take n).reverse = (stack.take n).reverse ↔
      n ≠ 0 ∨ stack = [] := by
  by_cases hn : n = 0
  · rw [if_pos hn, hn, take_zero]
    simp
  · simp [hn]

theorem eq_drop_iff : stack = stack.drop n ↔ n = 0 ∨ stack = [] := by
  constructor
  · intro hsame
    have hlength := congrArg length hsame
    rw [length_drop] at hlength
    rcases Nat.eq_zero_or_pos n with hn | hn
    · exact .inl hn
    · exact .inr (length_eq_zero_iff.mp (by omega))
  · rintro (rfl | rfl)
    · rfl
    · exact drop_nil.symm

/-- **What the calls of a listing do.** A call of a function of the game, `CALLB`, and one of a part
of the script, `CALLL`, take their `n` arguments, or what there is of them, from the stack, except
that one without arguments takes all values. The function sees the values that are taken, in the
order in which they were pushed. A call of another script, `CALLG`, leaves the stack as it is,
whatever number of arguments it has. -/
theorem step_listedCall (loc : Locale) (cast : Cast) {h : Header} {image : Bytes}
    {call : Instruction} (hcall : .instruction call ∈ listedItems h image) {n : Nat}
    (hn : call.payload.getLast?.map UInt8.toNat = some n) {e : Extraction}
    (he : e.cursor.inCode = true) : let e' := e.step loc cast (Script.Item.instruction call).line
    let function := Word.value (call.payload.take 4)
    (call.name = "CALLB" ∨ call.name = "CALLL" →
      e'.stack = (if n = 0 then [] else e.stack.drop n) ∧ (e'.stack = e.stack.drop n ↔ n ≠ 0 ∨ e.stack = [])) ∧
    (call.name = "CALLB" → ∃ args, args = (if n = 0 then e.stack else e.stack.take n).reverse ∧
      e'.scene = e.scene.afterCall function args ∧
      e'.items = addAll e.items (shownTexts loc cast e'.scene function args) ∧
      (args = (e.stack.take n).reverse ↔ n ≠ 0 ∨ e.stack = [])) ∧
    (call.name = "CALLG" → e'.stack = e.stack ∧ (e'.stack = e.stack.drop n ↔ n = 0 ∨ e.stack = [])) ∧
    (call.name = "CALLL" ∨ call.name = "CALLG" → e'.scene = e.scene ∧ e'.items = e.items) := by
  intro e' function
  obtain ⟨hmark, hbuiltin, hlocal, hglobal⟩ := ofLine_listedCall hcall hn
  have hstep := step_of_inCode loc cast he hmark
  refine ⟨fun hkind => ?_, fun hkind => ?_, fun hkind => ?_, fun hkind => ?_⟩
  · have hstack : e'.stack = if n = 0 then [] else e.stack.drop n := by
      rw [← afterCall_min, show e' = _ from hstep]
      rcases hkind with hkind | hkind
      · simp only [hbuiltin hkind]
        rfl
      · simp only [hlocal hkind]
        rfl
    exact ⟨hstack, hstack ▸ ite_nil_eq_drop_iff⟩
  · refine ⟨_, rfl, ?_, ?_, reverse_ite_eq_take_iff⟩
    · rw [← arguments_min, show e' = _ from hstep]
      simp only [hbuiltin hkind]
      rfl
    · rw [← arguments_min, show e' = _ from hstep]
      simp only [hbuiltin hkind]
      rfl
  · have hstack : e'.stack = e.stack := by
      rw [show e' = _ from hstep]
      simp only [hglobal hkind]
      rfl
    exact ⟨hstack, hstack ▸ eq_drop_iff⟩
  · rw [show e' = _ from hstep]
    rcases hkind with hkind | hkind
    · simp only [hlocal hkind]
      exact ⟨rfl, rfl⟩
    · simp only [hglobal hkind]
      exact ⟨rfl, rfl⟩

/-- Code of three calls: of a function with one argument, of a part of the script without arguments,
and of another script with one argument. -/
def threeCalls : Bytes := [0x29, 1, 0, 0, 0, 1, 0x27, 0, 0, 0, 0, 0, 0x28, 0, 0, 0, 0, 0, 0, 0, 0, 1]

def callsHeader : Header := ⟨"m", 0, 0, 0, 22, 22, 0, 22, 0⟩

theorem listedItems_threeCalls : listedItems callsHeader threeCalls =
    [.instruction ⟨"CALLB", [1, 0, 0, 0, 1], ["01", "00000001"]⟩,
      .instruction ⟨"CALLL", [0, 0, 0, 0, 0], ["00", "00000000"]⟩,
      .instruction ⟨"CALLG", [0, 0, 0, 0, 0, 0, 0, 0, 1], ["00000000", "00000000", "01"]⟩] := by
  decide +kernel

def oneHello : Extraction := { cursor := ⟨true, 1⟩, stack := [.text "hello" 1] }

/-- The function with one argument takes the text and shows it as a choice. -/
theorem step_listedCall_hello :
    .instruction ⟨"CALLB", [1, 0, 0, 0, 1], ["01", "00000001"]⟩ ∈ listedItems callsHeader threeCalls ∧
      (oneHello.step .chinese ⟨[], []⟩ "CALLB 01, 00000001").stack = [] ∧
      (oneHello.step .chinese ⟨[], []⟩ "CALLB 01, 00000001").items = [⟨"1", "hello", "选项1"⟩] := by
  have hmem : .instruction ⟨"CALLB", [1, 0, 0, 0, 1], ["01", "00000001"]⟩ ∈ listedItems callsHeader threeCalls := by
    rw [listedItems_threeCalls]
    exact mem_cons_self
  obtain ⟨hstack, hsees, -, -⟩ := step_listedCall .chinese ⟨[], []⟩ hmem (n := 1) rfl (e := oneHello) rfl
  obtain ⟨args, rfl, hscene, hitems, -⟩ := hsees rfl
  refine ⟨hmem, (hstack (.inl rfl)).1, hitems.trans ?_⟩
  decide

/-- A call without arguments takes the text all the same, and one of another script leaves an
argument on the stack. -/
theorem step_call_other_arguments :
    .instruction ⟨"CALLL", [0, 0, 0, 0, 0], ["00", "00000000"]⟩ ∈ listedItems callsHeader threeCalls ∧
      (oneHello.step .chinese ⟨[], []⟩ "CALLL 00, 00000000").stack = [] ∧ oneHello.stack.drop 0 ≠ [] ∧
    .instruction ⟨"CALLG", [0, 0, 0, 0, 0, 0, 0, 0, 1], ["00000000", "00000000", "01"]⟩ ∈ listedItems callsHeader threeCalls ∧
      (oneHello.step .chinese ⟨[], []⟩ "CALLG 00000000, 00000000, 01").stack = oneHello.stack ∧
      oneHello.stack.drop 1 ≠ oneHello.stack := by
  have hlocal : .instruction ⟨"CALLL", [0, 0, 0, 0, 0], ["00", "00000000"]⟩ ∈ listedItems callsHeader threeCalls := by
    rw [listedItems_threeCalls]
    exact mem_cons_of_mem _ mem_cons_self
  have hglobal : .instruction ⟨"CALLG", [0, 0, 0, 0, 0, 0, 0, 0, 1], ["00000000", "00000000", "01"]⟩ ∈
      listedItems callsHeader threeCalls := by
    rw [listedItems_threeCalls]
    exact mem_cons_of_mem _ (mem_cons_of_mem _ mem_cons_self)
  obtain ⟨hmark, -, hleave, -⟩ := ofLine_listedCall hlocal (n := 0) rfl
  obtain ⟨hmark', -, -, hoperation⟩ := ofLine_listedCall hglobal (n := 1) rfl
  have hfirst : (oneHello.step .chinese ⟨[], []⟩ "CALLL 00, 00000000").stack = [] := by
    refine (congrArg Extraction.stack (step_of_inCode .chinese ⟨[], []⟩ (e := oneHello) rfl hmark)).trans ?_
    rfl
  have hsecond : (oneHello.step .chinese ⟨[], []⟩ "CALLG 00000000, 00000000, 01").stack = oneHello.stack := by
    refine (congrArg Extraction.stack (step_of_inCode .chinese ⟨[], []⟩ (e := oneHello) rfl hmark')).trans ?_
    rw [hoperation rfl]
    rfl
  exact ⟨hlocal, hfirst, by decide, hglobal, hsecond, by decide⟩

end Localizer.Dialogue
