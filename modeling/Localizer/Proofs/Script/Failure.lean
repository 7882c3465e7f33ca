import Localizer.Proofs.Job
import Localizer.Proofs.Script.Sections

/-!
# When assembling fails

A listing is refused for two reasons only, and both lie in its `[VARIABLE]` section: a row has a
number that cannot be read, or there is no row at all. Lines with fewer than six fields are no rows
and do no harm. In the `[CODE]` section every line means something, so nothing that stands there can
be a fault.
-/

namespace Localizer.Script

open List Text

/-! ### The fields of a row -/

/-- What the first five commas of a line separate. -/
structure Fields where
  name : Text
  unk04 : Text
  locals : Text
  params : Text
  flag0c : Text
  unk10 : Text

namespace Fields

def line (fs : Fields) : Text :=
  join "," [fs.name, fs.unk04, fs.locals, fs.params, fs.flag0c, fs.unk10]

/-- The fields of a line: the first five have no comma in them. -/
def Of (fs : Fields) (l : Text) : Prop :=
  l = fs.line ∧ ∀ f ∈ [fs.name, fs.unk04, fs.locals, fs.params, fs.flag0c], ',' ∉ f

/-- The numbers in the fields can be read. -/
structure Readable (fs : Fields) : Prop where
  unk04 : isHexToken fs.unk04 = true
  locals : (readDecimal? (trim fs.locals)).isSome = true
  params : (readDecimal? (trim fs.params)).isSome = true
  flag0c : isHexToken fs.flag0c = true
  unk10 : isHexToken fs.unk10 = true

theorem line_eq (fs : Fields) : fs.line = fs.name ++ ',' :: (fs.unk04 ++ ',' :: (fs.locals ++ ',' ::
    (fs.params ++ ',' :: (fs.flag0c ++ ',' :: fs.unk10)))) := by
  simp [line, join, intercalate, intersperse]

theorem trim_line (fs : Fields) :
    trim fs.line = line { fs with name := trimStart fs.name, unk10 := trimEnd fs.unk10 } := by
  have hcomma : isBlank ',' = false := rfl
  rw [line_eq, line_eq, trim_append_cons hcomma, trimEnd_append_cons hcomma, trimEnd_append_cons hcomma,
    trimEnd_append_cons hcomma, trimEnd_append_cons hcomma]

theorem Of.pieces {fs : Fields} {l : Text} (h : fs.Of l) :
    (splitAtMost ',' 5 (trim l)).map trim =
      [trim fs.name, trim fs.unk04, trim fs.locals, trim fs.params, trim fs.flag0c, trim fs.unk10] := by
  obtain ⟨rfl, hcomma⟩ := h
  obtain ⟨hname, hcomma⟩ := forall_mem_cons.mp hcomma
  have hcomma' : ∀ f ∈ [trimStart fs.name, fs.unk04, fs.locals, fs.params, fs.flag0c], ',' ∉ f :=
    forall_mem_cons.mpr ⟨fun hm => hname ((dropWhile_suffix _).subset hm), hcomma⟩
  have hcut : splitAtMost ',' 5 (trim fs.line) =
      [trimStart fs.name, fs.unk04, fs.locals, fs.params, fs.flag0c] ++ [trimEnd fs.unk10] := by
    rw [trim_line]
    exact splitAtMost_join hcomma'
  rw [hcut]
  simp [trim_trimStart, trim_trimEnd]

end Fields

def IsVariableRow (l : Text) : Prop := ∃ fs : Fields, fs.Of l

/-- A line with six fields of which one should be a number and cannot be read. -/
def IsBadVariableRow (l : Text) : Prop := ∃ fs : Fields, fs.Of l ∧ ¬ fs.Readable

theorem splitAtMost_cases (sep : Char) (n : Nat) (t : Text) :
    (∃ ts u, ts.length = n ∧ (∀ s ∈ ts, sep ∉ s) ∧ t = join [sep] (ts ++ [u])) ∨
      (splitAtMost sep n t).length ≤ n := by
  induction n generalizing t with
  | zero => exact .inl ⟨[], t, rfl, by simp, by simp⟩
  | succ n ih =>
    rcases splitOnce?_cases sep t with ⟨-, hnone⟩ | ⟨a, b, ha, rfl, hcut⟩
    · rw [splitAtMost, hnone]
      simp
    · rcases ih b with ⟨ts, u, hlen, hts, rfl⟩ | hshort
      · left
        refine ⟨a :: ts, u, by rw [length_cons, hlen], forall_mem_cons.mpr ⟨ha, hts⟩, ?_⟩
        obtain ⟨v, vs, hv⟩ : ∃ v vs, ts ++ [u] = v :: vs := exists_cons_of_ne_nil (by simp)
        rw [cons_append, hv, join_cons_cons, append_assoc, singleton_append]
      · right
        rw [splitAtMost, hcut]
        simpa using hshort

theorem length_pieces_of_not_isVariableRow {l : Text} (h : ¬ IsVariableRow l) :
    (splitAtMost ',' 5 (trim l)).length ≤ 5 := by
  refine (splitAtMost_cases ',' 5 (trim l)).resolve_left ?_
  rintro ⟨ts, u, hlen, hts, heq⟩
  match ts, hlen with
  | [a, b, c, d, e], _ =>
    -- the white space around the line belongs to its first and its last field
    obtain ⟨s, v, hl, hs, -⟩ := exists_of_trim l
    refine h ⟨⟨s ++ a, b, c, d, e, u ++ v⟩, ?_, ?_⟩
    · rw [hl, heq, Fields.line_eq]
      simp [join, List.intercalate, List.intersperse]
    · refine forall_mem_cons.mpr ⟨?_, fun f hf => hts f (mem_cons_of_mem _ hf)⟩
      rw [mem_append, not_or]
      exact ⟨fun hm => absurd (hs _ hm) (by decide), hts a (by simp)⟩

/-! ### Reading a row -/

/-- A fault of a number that cannot be read: a numeral, or a token that is empty or no hexadecimal
number. -/
def Unreadable (f : Fault) : Prop :=
  f = .badNumeral ∨ f = .script .emptyToken ∨ ∃ t, f = .script (.notHex t)

theorem readHexToken_trim_cases (t : Text) :
    (isHexToken t = true ∧ ∃ n, readHexToken (trim t) = .ok n) ∨
      (isHexToken t = false ∧ ∃ f, readHexToken (trim t) = .error f ∧ Unreadable f) := by
  have htrim : isHexToken (trim t) = isHexToken t := by rw [isHexToken, trim_trim, isHexToken]
  cases ht : isHexToken t with
  | true => exact .inl ⟨rfl, readHexToken_of_isHexToken (htrim.trans ht)⟩
  | false =>
    right
    refine ⟨rfl, ?_⟩
    rw [isHexToken, Option.isSome_eq_false_iff, Option.isNone_iff_eq_none] at ht
    rw [readHexToken, trim_trim, ht]
    split
    · exact ⟨_, rfl, .inr (.inl rfl)⟩
    · exact ⟨_, rfl, .inr (.inr ⟨_, rfl⟩)⟩

theorem readDecimalField_cases (t : Text) :
    ((readDecimal? t).isSome = true ∧ ∃ n, readDecimalField t = .ok n) ∨
      ((readDecimal? t).isSome = false ∧ ∃ f, readDecimalField t = .error f ∧ Unreadable f) := by
  unfold readDecimalField
  cases readDecimal? t with
  | some n => exact .inl ⟨rfl, n, rfl⟩
  | none => exact .inr ⟨rfl, _, rfl, .inl rfl⟩

/-- A line with six fields is a row if its numbers can be read, and a fault otherwise. -/
theorem readRow_cases {fs : Fields} {l : Text} (h : fs.Of l) :
    (fs.Readable ∧ ∃ row, readRow l = .ok (some row)) ∨
      (¬ fs.Readable ∧ ∃ f, readRow l = .error f ∧ Unreadable f) := by
  unfold readRow
  rw [h.pieces]
  simp only
  rcases readHexToken_trim_cases fs.unk04 with ⟨h1, n1, hn1⟩ | ⟨h1, f, hf, hbad⟩
  swap
  · exact .inr ⟨fun hr => by simp [hr.unk04] at h1, f, by rw [hf]; rfl, hbad⟩
  rcases readDecimalField_cases (trim fs.locals) with ⟨h2, n2, hn2⟩ | ⟨h2, f, hf, hbad⟩
  swap
  · exact .inr ⟨fun hr => by simp [hr.locals] at h2, f, by rw [hn1, hf]; rfl, hbad⟩
  rcases readDecimalField_cases (trim fs.params) with ⟨h3, n3, hn3⟩ | ⟨h3, f, hf, hbad⟩
  swap
  · exact .inr ⟨fun hr => by simp [hr.params] at h3, f, by rw [hn1, hn2, hf]; rfl, hbad⟩
  rcases readHexToken_trim_cases fs.flag0c with ⟨h4, n4, hn4⟩ | ⟨h4, f, hf, hbad⟩
  swap
  · exact .inr ⟨fun hr => by simp [hr.flag0c] at h4, f, by rw [hn1, hn2, hn3, hf]; rfl, hbad⟩
  rcases readHexToken_trim_cases fs.unk10 with ⟨h5, n5, hn5⟩ | ⟨h5, f, hf, hbad⟩
  swap
  · exact .inr ⟨fun hr => by simp [hr.unk10] at h5, f, by rw [hn1, hn2, hn3, hn4, hf]; rfl, hbad⟩
  exact .inl ⟨⟨h1, h2, h3, h4, h5⟩, _, by rw [hn1, hn2, hn3, hn4, hn5]; rfl⟩

theorem readRow_of_not_isVariableRow {l : Text} (h : ¬ IsVariableRow l) : readRow l = .ok none := by
  have hlen := length_pieces_of_not_isVariableRow h
  unfold readRow
  split
  · next heq =>
    have hsix := congrArg length heq
    rw [length_map] at hsix
    simp only [length_cons, length_nil] at hsix
    omega
  · rfl

theorem not_isBadVariableRow_of_readRow {l : Text} {r : Option Row} (h : readRow l = .ok r) :
    ¬ IsBadVariableRow l := by
  rintro ⟨fs, hfs, hunreadable⟩
  rcases readRow_cases hfs with ⟨hgood, -⟩ | ⟨-, f, hf, -⟩
  · exact hunreadable hgood
  · simp [hf] at h

theorem rows_of_forall₂ {ls : List Text} {rs : List (Option Row)}
    (h : Forall₂ (fun l r => readRow l = .ok r) ls rs) :
    (∀ l ∈ ls, ¬ IsBadVariableRow l) ∧ (rs.filterMap id = [] ↔ ∀ l ∈ ls, ¬ IsVariableRow l) := by
  induction h with
  | nil => simp
  | @cons l r ls rs hl _ ih =>
    obtain ⟨hbad, hempty⟩ := ih
    rw [forall_mem_cons, forall_mem_cons]
    by_cases hrow : IsVariableRow l
    · obtain ⟨row, rfl⟩ : ∃ row, r = some row := by
        obtain ⟨fs, hfs⟩ := hrow
        rcases readRow_cases hfs with ⟨-, row, hok⟩ | ⟨-, f, hf, -⟩
        · exact ⟨row, Except.ok.inj (hl.symm.trans hok)⟩
        · simp [hf] at hl
      exact ⟨⟨not_isBadVariableRow_of_readRow hl, hbad⟩, by simp [hrow]⟩
    · refine ⟨⟨not_isBadVariableRow_of_readRow hl, hbad⟩, ?_⟩
      rw [readRow_of_not_isVariableRow hrow] at hl
      cases hl
      simpa [hrow] using hempty

/-- **Rows are read unless one of them is bad.** There are rows exactly if there are lines with six
fields. -/
theorem readRows_cases (ls : List Text) :
    ((∃ l ∈ ls, IsBadVariableRow l) ∧ ∃ f, readRows ls = .error f ∧ Unreadable f) ∨
      ((∀ l ∈ ls, ¬ IsBadVariableRow l) ∧ ∃ rows, readRows ls = .ok rows ∧ (rows = [] ↔ ∀ l ∈ ls, ¬ IsVariableRow l)) := by
  unfold readRows
  rcases mapM_cases readRow ls with ⟨rs, hrs, hread⟩ | ⟨l, hl, f, hf, hfail⟩
  · right
    rw [hrs]
    obtain ⟨hbad, hempty⟩ := rows_of_forall₂ hread
    exact ⟨hbad, _, rfl, hempty⟩
  · left
    rw [hfail]
    by_cases hrow : IsVariableRow l
    · obtain ⟨fs, hfs⟩ := hrow
      rcases readRow_cases hfs with ⟨-, row, hok⟩ | ⟨hbad, g, hg, hunreadable⟩
      · simp [hok] at hf
      · obtain rfl := Except.error.inj (hg.symm.trans hf)
        exact ⟨⟨l, hl, fs, hfs, hbad⟩, g, rfl, hunreadable⟩
    · simp [readRow_of_not_isVariableRow hrow] at hf

/-! ### Assembling a listing -/

variable {filename t : Text}

theorem assembleListing_of_readRows_error {f : Fault}
    (h : readRows (sectionLines (sections t) "VARIABLE") = .error f) :
    assembleListing filename t = .error f := by
  simp only [assembleListing, listingParts, h, bind, Except.bind]

theorem assembleListing_of_no_rows (h : readRows (sectionLines (sections t) "VARIABLE") = .ok []) :
    assembleListing filename t = .error .outOfRange := by
  rw [assembleListing_eq, listingParts_eq h]
  rfl

theorem assembleListing_of_rows {rows : List Row}
    (h : readRows (sectionLines (sections t) "VARIABLE") = .ok rows) (hne : rows ≠ []) :
    ∃ image, assembleListing filename t = .ok image := by
  have haccepted : ∀ l ∈ readCodeLines opcodes (sectionLines (sections t) "CODE"), l.Accepted := fun l hl =>
    accepted_of_mem_readCodeLines hl
  obtain ⟨_, _, _, _, _, -, hparts, -⟩ := assembleParts_ok hne haccepted
  rw [assembleListing_eq, listingParts_eq h, hparts]
  exact ⟨_, rfl⟩

/-- Assembling a file does what assembling its text does: it fails with the same fault and leaves
everything as it is, or the image is written. -/
theorem run_assembleFile {input output : Text} {ws : Workspace} (hread : Job.Yields (Job.readUtf8Lossy input) ws t ws) :
    (∀ f, assembleListing (Path.name output) t = .error f → (assembleFile input output).run.run ws = (.error f, ws)) ∧
      ∀ image, assembleListing (Path.name output) t = .ok image →
        (assembleFile input output).run.run ws = (Job.writeBytes output image).run.run ws := by
  refine ⟨fun f hf => ?_, fun image himage => ?_⟩
  · rw [assembleFile, hread.run_bind, hf]
    rfl
  · have hok : Job.Yields (Job.ofExcept (assembleListing (Path.name output) t)) ws image ws :=
      .ofExcept himage
    rw [assembleFile, hread.run_bind, hok.run_bind]

/-- The three ways in which assembling can end, each with its condition on the `[VARIABLE]` section.
-/
theorem assembleListing_cases (filename t : Text) :
    ((∃ l ∈ sectionLines (sections t) "VARIABLE", IsBadVariableRow l) ∧
        ∃ f, assembleListing filename t = .error f ∧ Unreadable f) ∨
      ((∀ l ∈ sectionLines (sections t) "VARIABLE", ¬ IsVariableRow l) ∧ assembleListing filename t = .error .outOfRange) ∨
      ((∀ l ∈ sectionLines (sections t) "VARIABLE", ¬ IsBadVariableRow l) ∧
        (∃ l ∈ sectionLines (sections t) "VARIABLE", IsVariableRow l) ∧ ∃ image, assembleListing filename t = .ok image) := by
  rcases readRows_cases (sectionLines (sections t) "VARIABLE") with
    ⟨hbad, f, hf, hunreadable⟩ | ⟨hgood, rows, hrows, hempty⟩
  · exact .inl ⟨hbad, f, assembleListing_of_readRows_error hf, hunreadable⟩
  · by_cases hno : ∀ l ∈ sectionLines (sections t) "VARIABLE", ¬ IsVariableRow l
    · rw [hempty.mpr hno] at hrows
      exact .inr (.inl ⟨hno, assembleListing_of_no_rows hrows⟩)
    · refine .inr (.inr ⟨hgood, ?_, assembleListing_of_rows hrows fun hnil => hno (hempty.mp hnil)⟩)
      push Not at hno
      exact hno

/-- **When assembling fails.** It fails for a number exactly if a line of the `[VARIABLE]` section
with six fields has a number that cannot be read. Otherwise it fails for want of a row exactly if no
line there has six fields, and succeeds in every other case, whatever stands in the `[CODE]`
section. Assembling a file fails with the same fault, or goes on to write the image. -/
theorem assembleListing_outcome (filename t : Text) :
    ((∃ f, assembleListing filename t = .error f ∧ Unreadable f) ↔
      ∃ l ∈ sectionLines (sections t) "VARIABLE", IsBadVariableRow l) ∧
    ((∀ l ∈ sectionLines (sections t) "VARIABLE", ¬ IsBadVariableRow l) →
      (assembleListing filename t = .error .outOfRange ↔ ∀ l ∈ sectionLines (sections t) "VARIABLE", ¬ IsVariableRow l) ∧
      ((∃ l ∈ sectionLines (sections t) "VARIABLE", IsVariableRow l) → ∃ image, assembleListing filename t = .ok image)) ∧
    ∀ input output ws, Path.name output = filename → Job.Yields (Job.readUtf8Lossy input) ws t ws →
      (∀ f, assembleListing filename t = .error f → (assembleFile input output).run.run ws = (.error f, ws)) ∧
      ∀ image, assembleListing filename t = .ok image →
        (assembleFile input output).run.run ws = (Job.writeBytes output image).run.run ws := by
  have hother : ¬ Unreadable .outOfRange := by simp [Unreadable]
  refine ⟨?_, fun hgood => ?_, fun input output ws hname hread => hname ▸ run_assembleFile hread⟩
  · rcases assembleListing_cases filename t with ⟨hbad, hfail⟩ | ⟨hno, hrun⟩ | ⟨hgood, -, image, hrun⟩
    · exact ⟨fun _ => hbad, fun _ => hfail⟩
    · refine ⟨fun ⟨f, hf, hunreadable⟩ => ?_, fun ⟨l, hl, fs, hfs, _⟩ => absurd ⟨fs, hfs⟩ (hno l hl)⟩
      rw [← Except.error.inj (hrun.symm.trans hf)] at hunreadable
      exact absurd hunreadable hother
    · refine ⟨fun ⟨f, hf, _⟩ => ?_, fun ⟨l, hl, hbad⟩ => absurd hbad (hgood l hl)⟩
      rw [hrun] at hf
      cases hf
  · rcases assembleListing_cases filename t with ⟨⟨l, hl, hbad⟩, -⟩ | ⟨hno, hrun⟩ | ⟨-, ⟨l, hl, hrow⟩, image, hrun⟩
    · exact absurd hbad (hgood l hl)
    · exact ⟨⟨fun _ => hno, fun _ => hrun⟩, fun ⟨l, hl, hrow⟩ => absurd hrow (hno l hl)⟩
    · refine ⟨⟨fun hfail => ?_, fun hno => absurd hrow (hno l hl)⟩, fun _ => ⟨image, hrun⟩⟩
      rw [hrun] at hfail
      cases hfail

/-- A listing of one row and a branch table whose operand is no number. -/
def oddListing : Text := join "\n" (layout ["m, 0x1,+2 ,3,4,5"] ["BTBL zz"] [])

theorem variableLines_oddListing :
    sectionLines (sections oddListing) "VARIABLE" = [("m, 0x1,+2 ,3,4,5" : Text), []] := by
  have hone : ∀ l ∈ [("m, 0x1,+2 ,3,4,5" : Text)] ++ ([("BTBL zz" : Text)] ++ []), OneLine l := by decide
  have hlast : ∀ l, ([("BTBL zz" : Text)] ++ []).getLast? = some l → l ≠ [] := by
    intro l hl
    cases hl
    decide
  rw [sectionLines_sections, oddListing, lines_layout hone hlast, linesOf_layout (by decide) (by decide)]
  rfl

/-- The row can be read, so that what stands in the code does not matter. -/
theorem assembleListing_outcome_oddListing :
    ∃ image, assembleListing "o.asb" oddListing = .ok image := by
  obtain ⟨-, hend, -⟩ := assembleListing_outcome "o.asb" oddListing
  rw [variableLines_oddListing] at hend
  refine (hend ?_).2 ⟨_, List.mem_cons_self, ⟨"m", " 0x1", "+2 ", "3", "4", "5"⟩, rfl, by decide⟩
  intro l hl
  rcases List.mem_pair.mp hl with rfl | rfl
  · exact @not_isBadVariableRow_of_readRow _ (some ⟨"m", 1, 2, 3, 4, 5⟩) (by decide)
  · exact @not_isBadVariableRow_of_readRow _ none rfl

end Localizer.Script
