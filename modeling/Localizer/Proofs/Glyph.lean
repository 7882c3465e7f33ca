import Localizer.Glyph
import Localizer.Proofs.Encoding.Cp932
import Localizer.Proofs.Job

/-!
# Glyph tables

Conversion by a glyph table puts a text in the place of each character, and a question mark in the
place of a character that cannot be shown. If a table has no empty texts, a text that comes out of
conversion as it was went through character by character. Then nothing was replaced by a question
mark, and nothing is logged.
-/

namespace Localizer.Glyph

open List Text Encoding Option

variable {t : Text} {table : GlyphTable} {f : Char → Text}

/-! ## Tables -/

/-- Every character of the table is drawn by some text. -/
def DrawsAll (table : GlyphTable) : Prop := ∀ c s, Assoc.get? c table = some s → s ≠ []

theorem encode?_of_textOfCode? {code : Nat} (h : textOfCode? code = some t) :
    Cp932.encode? t = some (codeBytes code) := by
  simpa using (filter_eq_some_iff.mp h).2

/-! ### Conversion -/

theorem DrawsAll.showChar?_ne_nil (h : DrawsAll table) (c : Char) :
    (showChar? table c).getD "?" ≠ [] := by
  cases hshow : showChar? table c with
  | none => decide
  | some s =>
    unfold showChar? at hshow
    split at hshow
    · split at hshow
      · cases hshow
        exact cons_ne_nil c []
      · exact h c s hshow
    · exact h c s hshow

theorem length_le_length_flatMap (h : ∀ c ∈ t, f c ≠ []) : t.length ≤ (t.flatMap f).length := by
  rw [length_flatMap, ← length_map (fun c => (f c).length)]
  refine length_le_sum_of_one_le _ fun n hn => ?_
  obtain ⟨c, hc, rfl⟩ := mem_map.mp hn
  exact length_pos_iff.mpr (h c hc)

theorem eq_singleton_of_flatMap_eq_self (hne : ∀ c ∈ t, f c ≠ []) (h : t.flatMap f = t) :
    ∀ c ∈ t, f c = [c] := by
  induction t with
  | nil => simp
  | cons d t ih =>
    have hrest : ∀ c ∈ t, f c ≠ [] := fun c hc => hne c (mem_cons_of_mem _ hc)
    rw [flatMap_cons] at h
    cases hd : f d with
    | nil => exact absurd hd (hne d mem_cons_self)
    | cons e s =>
      rw [hd, cons_append] at h
      obtain ⟨rfl, htail⟩ := cons.inj h
      have hs : s = [] := by
        have hlength := congrArg length htail
        rw [length_append] at hlength
        have hle := length_le_length_flatMap hrest
        exact eq_nil_of_length_eq_zero (by omega)
      subst hs
      exact forall_mem_cons.mpr ⟨hd, ih hrest htail⟩

theorem showChar?_questionMark (table : GlyphTable) : showChar? table '?' = some "?" := by
  have hcode : code? '?' = some 0x3F := by decide
  exact if_pos (by simp [firstCode])

theorem rule_ne_nil (c : Char) : (defaultRules.lookup [c]).getD [c] ≠ [] := by
  cases hrule : defaultRules.lookup [c] with
  | none => exact cons_ne_nil c []
  | some s =>
    have hrules : ∀ r ∈ defaultRules, r.2 ≠ [] := by decide
    exact hrules _ (Assoc.mem_of_lookup hrule)

/-- What conversion puts in the place of a character. -/
def converted (table : GlyphTable) (c : Char) : Text :=
  ((defaultRules.lookup [c]).getD [c]).flatMap fun a => (showChar? table a).getD "?"

theorem text_eq_flatMap (table : GlyphTable) (t : Text) :
    Converter.text ⟨defaultRules, table⟩ t = t.flatMap (converted table) := flatMap_assoc

theorem converted_quote (table : GlyphTable) : converted table '"' = ['"'] := by
  have hcode : code? '"' = some 0x22 := by decide
  have hrule : defaultRules.lookup ['"'] = none := by decide
  have hshow : showChar? table '"' = some ['"'] := by
    exact if_pos (by simp [firstCode])
  simp [converted, hrule, hshow]

theorem DrawsAll.converted_ne_nil (h : DrawsAll table) (c : Char) : converted table c ≠ [] := by
  intro hnil
  obtain ⟨a, ha⟩ := exists_mem_of_ne_nil _ (rule_ne_nil c)
  exact h.showChar?_ne_nil a (flatMap_eq_nil_iff.mp hnil a ha)

/-- **Nothing is unshown in a text that conversion leaves as it is.** A question mark that comes out
was there before. -/
theorem DrawsAll.unshown_eq_nil (htable : DrawsAll table)
    (h : Converter.text ⟨defaultRules, table⟩ t = t) :
    unshown table (applyRules defaultRules t) = [] := by
  rw [text_eq_flatMap] at h
  have hsame := eq_singleton_of_flatMap_eq_self (fun c _ => htable.converted_ne_nil c) h
  have hnone : (applyRules defaultRules t).filter (fun c => (showChar? table c).isNone) = [] := by
    refine filter_eq_nil_iff.mpr fun a ha hshow => ?_
    obtain ⟨c, hc, hac⟩ := mem_flatMap.mp ha
    have hmark : '?' ∈ converted table c := by
      refine mem_flatMap.mpr ⟨a, hac, ?_⟩
      rw [isNone_iff_eq_none.mp hshow]
      exact mem_singleton_self _
    rw [hsame c hc] at hmark
    obtain rfl := mem_singleton.mp hmark
    obtain rfl : a = '?' := mem_singleton.mp hac
    simp [showChar?_questionMark] at hshow
  rw [unshown, hnone]
  simp [inAscendingOrder]

theorem DrawsAll.yields_run (htable : DrawsAll table)
    (h : Converter.text ⟨defaultRules, table⟩ t = t) (ws : Workspace) :
    Job.Yields (Converter.run ⟨defaultRules, table⟩ t) ws t ws := by
  unfold Converter.run mapText
  rw [htable.unshown_eq_nil h]
  exact .bind (.pure rfl) (.pure h)

/-! ## The entries of a glyph table

The lines of a table that give a code to a character are its entries (`entries`), in the order of
the lines. A table that could be read says no more than they do: a character is drawn by the code on
its last line, and a character without a line by none (`get?_of_readTable`). A code stands for one
character only if it begins with a lead byte (`codeOfText?_of_readTable`). -/

open Cp932 Assoc UInt8

variable {line src : Text} {code : Nat}

def lineCode? (line : Text) : Option (Char × Nat) :=
  if isComment (trim line) then none
  else
    match entryParts? (trim line) with
    | none => none
    | some (digits, r) =>
      match entryChar r with
      | [c] => some (c, hexNumber digits)
      | _ => none

def entries (src : Text) : List (Char × Nat) := (lines src).filterMap lineCode?

def lastCode? (c : Char) (es : List (Char × Nat)) : Option Nat := es.reverse.lookup c

theorem readEntry_cases {e : Option (Char × Text)} (h : readEntry line = .ok e) : lineCode? line = none ∧ e = none ∨
      ∃ c code t, lineCode? line = some (c, code) ∧ textOfCode? code = some t ∧ e = some (c, t) := by
  unfold readEntry at h
  unfold lineCode?
  by_cases hcomment : isComment (trim line) = true
  · rw [if_pos hcomment] at h
    cases h
    exact .inl ⟨if_pos hcomment, rfl⟩
  · rw [if_neg hcomment] at h ⊢
    -- both readers look at the same parts, so the cases are those of the parts and not of either reader
    cases hparts : entryParts? (trim line) with
    | none =>
      rw [hparts] at h
      cases h
      exact .inl ⟨rfl, rfl⟩
    | some parts =>
      obtain ⟨digits, r⟩ := parts
      rw [hparts] at h
      dsimp only at h ⊢
      rcases hchar : entryChar r with _ | ⟨c, _ | ⟨d, rest⟩⟩
      · rw [hchar] at h
        cases h
      · rw [hchar] at h
        cases htext : textOfCode? (hexNumber digits) with
        | none =>
          rw [htext] at h
          cases h
        | some t =>
          rw [htext] at h
          cases h
          exact .inr ⟨c, hexNumber digits, t, rfl, htext, rfl⟩
      · rw [hchar] at h
        cases h

theorem lastCode?_cons (c d : Char) (code : Nat) (es : List (Char × Nat)) :
    lastCode? c ((d, code) :: es) = (lastCode? c es).or (if c = d then some code else none) := by
  rw [lastCode?, reverse_cons, lookup_append, lookup_cons]
  by_cases h : c = d
  · simp [h, lastCode?]
  · have hd : (c == d) = false := beq_false_of_ne h
    simp [h, hd, lastCode?]

/-- What lines add to a table: a character that has an entry among them is drawn by the code of the
last one, any other as before. -/
theorem get?_addEntries {table' : GlyphTable} {ls : List Text}
    (h : addEntries table ls = .ok table') (c : Char) :
    (lastCode? c (ls.filterMap lineCode?) = none ∧ get? c table' = get? c table) ∨
      ∃ code t, lastCode? c (ls.filterMap lineCode?) = some code ∧ textOfCode? code = some t ∧
        get? c table' = some t := by
  induction ls generalizing table with
  | nil =>
    cases h
    exact .inl ⟨rfl, rfl⟩
  | cons l ls ih =>
    rw [addEntries] at h
    cases hentry : readEntry l with
    | error f =>
      rw [hentry] at h
      cases h
    | ok e =>
      rw [hentry] at h
      rcases readEntry_cases hentry with ⟨hnone, rfl⟩ | ⟨d, code, t, hsome, htext, rfl⟩
      · rw [filterMap_cons_none hnone]
        exact ih h
      · rw [filterMap_cons_some hsome, lastCode?_cons]
        rcases ih h with ⟨hlast, hget⟩ | ⟨code', t', hlast, htext', hget⟩
        · rw [hlast, none_or, hget, get?_insert]
          by_cases hc : c = d
          · exact .inr ⟨code, t, by simp [hc], htext, by simp [hc]⟩
          · exact .inl ⟨by simp [hc], by simp [Ne.symm hc]⟩
        · exact .inr ⟨code', t', by rw [hlast, some_or], htext', hget⟩

/-- **A table that was read draws a character by the code on its last line.** -/
theorem get?_of_readTable (h : readTable src = .ok table) (c : Char) :
    (lastCode? c (entries src) = none ∧ get? c table = none) ∨
      ∃ code t, lastCode? c (entries src) = some code ∧ textOfCode? code = some t ∧ get? c table = some t :=
  get?_addEntries h c

/-- **A table that was read has no empty texts.** -/
theorem drawsAll_of_readTable (h : readTable t = .ok table) : DrawsAll table := by
  rintro c s hs rfl
  rcases get?_of_readTable h c with ⟨-, hget⟩ | ⟨code, t, -, htext, hget⟩
  · cases hs.symm.trans hget
  · cases hs.symm.trans hget
    cases encode?_of_textOfCode? htext

theorem isEmpty_of_readTable (h : readTable src = .ok table) :
    table.isEmpty = (entries src).isEmpty := by
  cases table with
  | nil =>
    cases hentries : entries src with
    | nil => rfl
    | cons e es =>
      -- the character of the first entry has a code, but an empty table draws nothing
      have hsome : (lastCode? e.1 (entries src)).isSome = true := by
        rw [hentries, lastCode?_cons]
        simp
      rcases get?_of_readTable h e.1 with ⟨hlast, -⟩ | ⟨_, _, -, -, hget⟩
      · simp [hlast] at hsome
      · cases hget
  | cons e table =>
    cases hentries : entries src with
    | nil =>
      rcases get?_of_readTable h e.1 with ⟨-, hget⟩ | ⟨_, _, hlast, -⟩
      · simp [get?] at hget
      · rw [hentries] at hlast
        cases hlast
    | cons e' es => rfl

/-! ### The characters of a code -/

theorem hexValue?_getD_lt (c : Char) : (hexValue? c).getD 0 < 16 := by
  have hle : ∀ {lo hi : Char}, (lo ≤ c && c ≤ hi) = true → c.toNat ≤ hi.toNat := fun hc => by
    rw [Bool.and_eq_true, decide_eq_true_eq, decide_eq_true_eq] at hc
    exact hc.2
  unfold hexValue?
  split_ifs with hdigit hlower hupper
  · have : c.toNat ≤ 57 := hle hdigit
    simp only [getD_some]
    omega
  · have : c.toNat ≤ 102 := hle hlower
    simp only [getD_some]
    omega
  · have : c.toNat ≤ 70 := hle hupper
    simp only [getD_some]
    omega
  · decide

theorem hexNumber_lt (t : Text) : hexNumber t < 16 ^ t.length := by
  have key : ∀ n, t.foldl (fun n c => n * 16 + (hexValue? c).getD 0) n < (n + 1) * 16 ^ t.length := by
    induction t with
    | nil => simp
    | cons c t ih =>
      intro n
      have hc := hexValue?_getD_lt c
      refine (ih (n * 16 + (hexValue? c).getD 0)).trans_le ?_
      rw [length_cons, pow_succ', ← mul_assoc]
      exact Nat.mul_le_mul_right _ (by omega)
  exact (key 0).trans_eq (by rw [Nat.zero_add, Nat.one_mul])

theorem lt_of_lineCode? {c : Char} (h : lineCode? line = some (c, code)) : code < 0x10000 := by
  unfold lineCode? at h
  split at h
  · cases h
  split at h
  · cases h
  next digits r hparts =>
  split at h
  · cases h
    obtain ⟨⟨l, r'⟩, -, hdigits⟩ := bind_eq_some_iff.mp hparts
    dsimp only at hdigits
    split at hdigits
    · next hok =>
      cases hdigits
      simp only [Bool.and_eq_true, decide_eq_true_eq] at hok
      exact (hexNumber_lt _).trans_le (Nat.pow_le_pow_right (by decide) hok.1.1.2)
    · cases hdigits
  · cases h

theorem eq_nil_of_encode? (h : encode? t = some []) : t = [] := by
  cases t with
  | nil => rfl
  | cons c t =>
    obtain ⟨code, rest, hcode, -, hcat⟩ := exists_of_encode?_cons h
    cases (of_encodeChar? hcode).1 with
    | one
    | two => cases hcat

/-- **What a code stands for.** If its first byte is a lead byte, it is the code of one character.
Otherwise it stands for two characters, one for each byte. -/
theorem textOfCode?_cases (h : textOfCode? code = some t) (hcode : code < 0x10000) :
    (isLead (ofNat (code / 256)) = true ∧ ∃ d, t = [d] ∧ code? d = some code) ∨
      (isLead (ofNat (code / 256)) = false ∧
        ∃ d e, t = [d, e] ∧ code? d = some (code / 256) ∧ code? e = some (code % 256)) := by
  have hhigh : (ofNat (code / 256)).toNat = code / 256 := toNat_ofNat_of_lt' (by show _ < 256; omega)
  have hlow : (ofNat (code % 256)).toNat = code % 256 := toNat_ofNat_of_lt' (by show _ < 256; omega)
  have hbytes := encode?_of_textOfCode? h
  cases t with
  | nil => cases hbytes
  | cons d t =>
    obtain ⟨first, rest, hd, ht, hcat⟩ := exists_of_encode?_cons hbytes
    cases (of_encodeChar? hd).1 with
    | two hlead =>
      cases hcat
      refine .inl ⟨hlead, d, ?_, ?_⟩
      · rw [eq_nil_of_encode? ht]
      · simp only [code?, hd, map_some, hhigh, hlow, Nat.div_add_mod']
    | one hlead =>
      cases hcat
      refine .inr ⟨hlead, d, ?_⟩
      cases t with
      | nil => cases ht
      | cons e t =>
        obtain ⟨second, rest, he, ht, hcat⟩ := exists_of_encode?_cons ht
        cases (of_encodeChar? he).1 with
        | two => cases hcat
        | one =>
          cases hcat
          refine ⟨e, by rw [eq_nil_of_encode? ht], ?_, ?_⟩
          · simp only [code?, hd, map_some, hhigh]
          · simp only [code?, he, map_some, hlow]

/-- **A character of a table is drawn by its own code**, the one on its last line, if that begins
with a lead byte. Any other code is taken for two characters. -/
theorem codeOfText?_of_readTable {src : Text} {table : GlyphTable} (h : readTable src = .ok table)
    {c : Char} {t : Text} (ht : Assoc.get? c table = some t) :
    ∃ code, lastCode? c (entries src) = some code ∧
      ((Cp932.isLead (UInt8.ofNat (code / 256)) = true ∧ t.length = 1 ∧ codeOfText? t = some code) ∨
        (Cp932.isLead (UInt8.ofNat (code / 256)) = false ∧
          ∃ d e, t = [d, e] ∧ code? d = some (code / 256) ∧ code? e = some (code % 256))) := by
  rcases get?_of_readTable h c with ⟨-, hnone⟩ | ⟨code, s, hlast, htext, hsome⟩
  · cases ht.symm.trans hnone
  · obtain rfl := some.inj (ht.symm.trans hsome)
    obtain ⟨line, -, hline⟩ := mem_filterMap.mp (mem_reverse.mp (Assoc.mem_of_lookup hlast))
    refine ⟨code, hlast, ?_⟩
    rcases textOfCode?_cases htext (lt_of_lineCode? hline) with ⟨hlead, d, rfl, hd⟩ | hplain
    · exact .inl ⟨hlead, rfl, hd⟩
    · exact .inr hplain

theorem codeOfText?_of_readTable_private :
    readTable "F040=x" = .ok [('x', ['\uE000'])] ∧ codeOfText? ['\uE000'] = some 0xF040 := by
  have htable : readTable "F040=x" = .ok [('x', ['\uE000'])] := rfl
  refine ⟨htable, ?_⟩
  obtain ⟨code, hlast, hcode⟩ := codeOfText?_of_readTable htable (show Assoc.get? 'x' _ = some _ from rfl)
  obtain rfl : 0xF040 = code := some.inj hlast
  rcases hcode with ⟨-, -, hcode⟩ | ⟨hplain, -⟩
  · exact hcode
  · cases hplain

/-- The code of a basic character is read as two bytes, so that a zero character comes before it. -/
theorem codeOfText?_eq_none_basic :
    readTable "41=x" = .ok [('x', ['\x00', 'A'])] ∧ lastCode? 'x' (entries "41=x") = some 0x41 ∧
      codeOfText? ['\x00', 'A'] = none := ⟨rfl, rfl, rfl⟩

end Localizer.Glyph
