import Localizer.Dialogue.WriteBack
import Localizer.Proofs.Dialogue.Statement
import Localizer.Proofs.Job
import Localizer.Proofs.Script.Sections

/-!
# Texts written back into a listing

Writing translations back replaces lines of a listing (`replaceLines`), and the assembler reads the
listing again with rules of its own: it knows neither which lines were texts before nor which texts
were meant. If each translation suits the line that it is written to (`Suits`), the assembler finds
a text where it found a text, and the code keeps its layout. A translation that looks like an
instruction changes the program.
-/

namespace Localizer.Dialogue

open List Text Script Job Glyph Assoc

variable {t s l b line : Text} {ws ws' : Workspace} {c : Cursor} {ls : List (Text × Text)}

/-! ### The texts that are collected -/

variable {loc : Locale} {conv : Converter} {script : Text}

theorem wrapLogging_eq {measure : Text → Int} {place : Text}
    (h : Yields (wrapLogging measure place t) ws s ws') : wrap measure t = s := by
  unfold wrapLogging at h
  cases hremark : remark? measure t with
  | none =>
    rw [hremark] at h
    exact (yields_pure.mp h).1
  | some r =>
    rw [hremark] at h
    obtain ⟨_, ws₁, -, h⟩ := yields_bind.mp h
    exact (yields_pure.mp h).1

theorem finish_eq {tr : Translation}
    (h : Yields (finish loc conv script tr) ws s ws') : s = finalText loc conv tr.text := by
  unfold finalText
  obtain ⟨converted, ws₁, hconv, h⟩ := yields_bind.mp h
  obtain ⟨_, ws₂, -, hconv⟩ := yields_bind.mp hconv
  obtain ⟨rfl, rfl⟩ := yields_pure.mp hconv
  cases hmeasure : loc.measure? with
  | none =>
    rw [hmeasure] at h
    exact (yields_pure.mp h).1.symm
  | some measure =>
    rw [hmeasure] at h
    obtain ⟨line, ws₃, -, h⟩ := yields_bind.mp h
    exact (wrapLogging_eq h).symm

theorem get?_collect {trs : List Translation} {found found' : List (Nat × Text)}
    (h : Yields (collect loc conv script trs found) ws found' ws') {n : Nat}
    (hs : get? n found' = some s) :
    get? n found = some s ∨ ∃ tr ∈ trs, tr.line = n ∧ finalText loc conv tr.text = s := by
  induction trs generalizing found ws with
  | nil =>
    obtain ⟨rfl, -⟩ := yields_pure.mp h
    exact .inl hs
  | cons tr trs ih =>
    obtain ⟨t, ws₁, hfinish, h⟩ := yields_bind.mp h
    obtain rfl := finish_eq hfinish
    split at h
    · rcases ih h with hfound | ⟨tr', htr', hline, htext⟩
      · rw [get?_insert] at hfound
        split at hfound
        · next hline => exact .inr ⟨tr, mem_cons_self, hline, Option.some.inj hfound⟩
        · exact .inl hfound
      · exact .inr ⟨tr', mem_cons_of_mem _ htr', hline, htext⟩
    · obtain ⟨line, ws₂, -, h⟩ := yields_bind.mp h
      exact absurd h not_yields_throw

/-! ### Lines that are replaced -/

/-- The line `l'` fits in where the line `l` with its break `b` stands, the section `opened` being
open for the assembler. -/
structure FitsIn (opened : Option Text) (l b l' : Text) : Prop where
  /-- The line ends in a line feed or a carriage return, or is the last one. -/
  feed : (b.all fun c => c = '\r' || c = '\n') = true
  oneLine : OneLine l'
  ne_nil : l' ≠ []
  replaceable : Replaceable opened l l'

/-- The text `s` suits the line of the number `n`: if that line is a text, it fits in there. -/
def Suits (n : Nat) (s : Text) : Option Text → Cursor → List (Text × Text) → Prop
  | _, _, [] => True
  | opened, c, (l, b) :: ls =>
    (c.number? (cutLineFeed l b).1 = some n → isText (cutLineFeed l b).1 = true →
      FitsIn opened l b ((cutLineFeed l b).1.takeWhile isBlank ++ s)) ∧
    Suits n s (openAfter opened l) (c.next (cutLineFeed l b).1) ls

theorem cutLineFeed_append (l b : Text) : (cutLineFeed l b).1 ++ (cutLineFeed l b).2 = l ++ b := by
  unfold cutLineFeed
  split
  · rfl
  · exact append_nil _

theorem replaceLine_cases (found : List (Nat × Text)) (number? : Option Nat) (line : Text) :
    replaceLine found number? line = line ∨
      ∃ n s, number? = some n ∧ get? n found = some s ∧ isText line = true ∧
        replaceLine found number? line = line.takeWhile isBlank ++ s := by
  unfold replaceLine
  split
  · next s hs =>
    obtain ⟨n, hn, hs⟩ := Option.bind_eq_some_iff.mp hs
    split
    · next htext => exact .inr ⟨n, s, hn, hs, htext, rfl⟩
    · exact .inl rfl
  · exact .inl rfl

section

variable {found : List (Nat × Text)}

theorem replaceLine_fitsIn {opened : Option Text}
    (h : ∀ n s, get? n found = some s → Suits n s opened c ((l, b) :: ls)) :
    ∃ l', replaceLine found (c.number? (cutLineFeed l b).1) (cutLineFeed l b).1 ++ (cutLineFeed l b).2 = l' ++ b ∧
      (l' = l ∨ FitsIn opened l b l') := by
  rcases replaceLine_cases found (c.number? (cutLineFeed l b).1) (cutLineFeed l b).1 with
    hsame | ⟨n, s, hn, hs, htext, hreplace⟩
  · exact ⟨l, by rw [hsame, cutLineFeed_append], .inl rfl⟩
  · have hfits := (h n s hs).1 hn htext
    refine ⟨_, ?_, .inr hfits⟩
    rw [hreplace, show (cutLineFeed l b).2 = b by rw [cutLineFeed, if_pos hfits.feed]]

theorem replaceLines_cons (c : Cursor) (l b : Text) (ls : List (Text × Text)) :
    replaceLines found c ((l, b) :: ls) =
      replaceLine found (c.number? (cutLineFeed l b).1) (cutLineFeed l b).1 ++ (cutLineFeed l b).2 ++
        replaceLines found (c.next (cutLineFeed l b).1) ls := rfl

theorem replaceLines_of_number_none (next : Cursor)
    (hnumber : c.number? (cutLineFeed l b).1 = none) (hnext : c.next (cutLineFeed l b).1 = next) :
    replaceLines found c ((l, b) :: ls) = l ++ b ++ replaceLines found next ls := by
  rw [replaceLines_cons, hnumber, hnext, ← cutLineFeed_append l b]
  rfl

theorem replaceLines_retexted (ls : List (Text × Text)) (opened : Option Text) (c : Cursor)
    (h : ∀ n s, get? n found = some s → Suits n s opened c ls) :
    ∃ ls', Forall₂ StandsFor ls ls' ∧ glue ls' = replaceLines found c ls ∧
      Retexted opened (ls.map Prod.fst) (ls'.map Prod.fst) := by
  induction ls generalizing opened c with
  | nil => exact ⟨[], .nil, rfl, .nil⟩
  | cons p ls ih =>
    obtain ⟨l, b⟩ := p
    obtain ⟨l', hline, hl'⟩ := replaceLine_fitsIn h
    obtain ⟨ls', hstands, hglue, hretexted⟩ := ih (openAfter opened l) (c.next (cutLineFeed l b).1)
      fun n s hs => (h n s hs).2
    refine ⟨(l', b) :: ls', .cons ⟨rfl, hl'.imp id fun hfits => ⟨hfits.oneLine, hfits.ne_nil⟩⟩ hstands, ?_, ?_⟩
    · rw [glue_cons, replaceLines_cons, hline, hglue, append_assoc]
    · rcases hl' with rfl | hfits
      · exact .same hretexted
      · rw [openAfter_of_plain opened hfits.replaceable.plain] at hretexted
        exact .replaced hfits.replaceable hretexted

/-- **Writing back texts that suit their lines changes texts only.** -/
theorem lines_writeBack (h : ∀ n s, get? n found = some s → Suits n s none {} (linesWithBreaks t)) :
    Retexted none (lines t) (lines (writeBack found t)) := by
  obtain ⟨ls', hstands, hglue, hretexted⟩ := replaceLines_retexted (linesWithBreaks t) none {} h
  have hcut := ((wellCut_linesWithBreaks t).1.standsFor hstands).1
  rwa [lines, lines, writeBack, ← hglue, linesWithBreaks_glue hcut]

end

/-- **Translations that suit their lines do not change the program.** A listing that is assembled is
assembled again after they are written back. Each instruction keeps its opcode and its length, and
all but the offsets of strings stay as they were. -/
theorem assembled_writeBack {document : Json} {ws ws' : Workspace} {found : List (Nat × Text)} {t filename : Text}
    {image : Bytes} (hassemble : assembleListing filename (unifyNewlines t) = .ok image)
    (hcollect : Job.Yields (collect loc conv script (translations document) []) ws found ws')
    (hsuits : ∀ tr ∈ translations document,
      Suits tr.line (finalText loc conv tr.text) none {} (linesWithBreaks t)) :
    ∃ ps ps' : Parts, image = ps.image filename ∧
      assembleListing filename (unifyNewlines (writeBack found t)) = .ok (ps'.image filename) ∧
      SameLayout ps.code ps'.code ∧
      List.Forall₂ (fun l cc => Repooled l cc.1 cc.2) (readCodeLines opcodes (sectionLines (sections t) "CODE"))
        (ps.code.zip ps'.code) ∧
      (image.length < 0x100000000 → (ps'.image filename).length < 0x100000000 →
        ∃ h h', readHeader image = .ok h ∧ readHeader (ps'.image filename) = .ok h' ∧
          h.code image = ps.code.flatten ∧ h'.code (ps'.image filename) = ps'.code.flatten ∧
          (h'.code (ps'.image filename)).length = (h.code image).length ∧
          ∀ k, (h'.code (ps'.image filename))[(ps.code.take k).flatten.length]? =
            (h.code image)[(ps.code.take k).flatten.length]?) := by
  rw [assembleListing_eq, listingParts_unifyNewlines] at hassemble
  cases hparts : listingParts t with
  | error e =>
    rw [hparts] at hassemble
    cases hassemble
  | ok ps =>
    rw [hparts] at hassemble
    obtain rfl : ps.image filename = image := Except.ok.inj hassemble
    have hretexted : Retexted none (lines t) (lines (writeBack found t)) := by
      refine lines_writeBack fun n s hs => ?_
      rcases get?_collect hcollect hs with hnone | ⟨tr, htr, rfl, rfl⟩
      · cases hnone
      · exact hsuits tr htr
    obtain ⟨ps', hparts', htable, htable', hlayout, hrepooled⟩ := listingParts_retexted hretexted hparts
    refine ⟨ps, ps', rfl, ?_, hlayout, hrepooled, fun hsize hsize' => ?_⟩
    · rw [assembleListing_eq, listingParts_unifyNewlines, hparts']
      rfl
    · obtain ⟨h, hread, -, -, hcode, -⟩ := Parts.read_image htable hsize
      obtain ⟨h', hread', -, -, hcode', -⟩ := Parts.read_image htable' hsize'
      refine ⟨h, h', hread, hread', hcode, hcode', ?_⟩
      rw [hcode, hcode']
      exact ⟨hlayout.length_flatten, hlayout.opcode_at⟩

/-! ### A listing with one text -/

theorem isText_hello : isText "hello" = true :=
  isText_iff.mpr ⟨by decide, by decide, isOperation_eq_false (by rw [operations_eq]; decide), by decide, by decide⟩

/-- A listing with one entry point, and with one line before a call. -/
def oneText (line : Text) : Text :=
  join "\n" (layout ["m,00000000,0,0,00000000,00000000"] [line, "CALLB 01, 00000001"] [])

theorem linesWithBreaks_oneText : linesWithBreaks (oneText "hello") =
    [("[VARIABLE]".toList, ['\n']), ("m,00000000,0,0,00000000,00000000".toList, ['\n']), ([], ['\n']),
      ("[CODE]".toList, ['\n']), ("hello".toList, ['\n']), ("CALLB 01, 00000001".toList, [])] := by
  decide

theorem writeBack_oneText (s : Text) : writeBack [(1, s)] (oneText "hello") = oneText s := by
  have hreplace : replaceLine [(1, s)] (some 1) "hello" = s := by
    rw [replaceLine, show (some 1).bind (fun n => get? n [(1, s)]) = some s from rfl]
    simp only
    rw [if_pos isText_hello]
    rfl
  have hline : replaceLines [(1, s)] ⟨true, 0⟩ [("hello".toList, ['\n']), ("CALLB 01, 00000001".toList, [])] =
      replaceLine [(1, s)] (some 1) "hello" ++ "\nCALLB 01, 00000001".toList := by
    rw [replaceLines_cons, replaceLines_cons, replaceLines,
      show Cursor.number? (Cursor.next ⟨true, 0⟩ (cutLineFeed "hello" ['\n']).1)
        (cutLineFeed "CALLB 01, 00000001" []).1 = some 2 by decide, append_assoc]
    rfl
  rw [writeBack, linesWithBreaks_oneText, replaceLines_of_number_none {} (by decide) (by decide),
    replaceLines_of_number_none {} (by decide) (by decide),
    replaceLines_of_number_none {} (by decide) (by decide),
    replaceLines_of_number_none ⟨true, 0⟩ (by decide) (by decide), hline, hreplace]
  rfl

theorem listingParts_oneText (hline : ListedLine line) :
    listingParts (unifyNewlines (oneText line)) =
      assembleParts [⟨"m", 0, 0, 0, 0, 0⟩] (readCodeLines opcodes [line, "CALLB 01, 00000001"]) := by
  rw [listingParts_unifyNewlines]
  exact listingParts_join (by decide) (forall_mem_cons.mpr ⟨hline, by decide⟩) (by decide)

def oneItem (s : Text) : Json := .arr [.obj [("key", .str "1"), ("translation", .str s)]]

def plainConverter : Converter := ⟨defaultRules, []⟩

theorem translations_oneItem (hne : s ≠ []) : translations (oneItem s) = [⟨"1", 1, s⟩] := by
  cases s with
  | nil => exact absurd rfl hne
  | cons c s => rfl

theorem collect_oneItem (ws : Workspace) (hne : s ≠ [])
    (hshown : unshown [] (applyRules defaultRules (onOneLine s)) = [])
    (hsame : finalText Locale.chinese plainConverter s = s) :
    Yields (collect Locale.chinese plainConverter "s" (translations (oneItem s)) []) ws [(1, s)] ws := by
  have hlog : Yields (logChars (unshown plainConverter.table
      (applyRules plainConverter.rules (onOneLine s)))) ws () ws := by
    change Yields (logChars (unshown [] (applyRules defaultRules (onOneLine s)))) ws () ws
    rw [hshown]
    exact .pure rfl
  have hfinish : Yields (finish Locale.chinese plainConverter "s" ⟨"1", 1, s⟩) ws s ws :=
    .bind (.bind hlog (.pure hsame)) (.pure rfl)
  rw [translations_oneItem hne]
  exact .bind hfinish (.pure rfl)

theorem assembleListing_oneText {ps : Parts} (hline : ListedLine line)
    (hparts : assembleParts [⟨"m", 0, 0, 0, 0, 0⟩] (readCodeLines opcodes [line, "CALLB 01, 00000001"]) = .ok ps)
    (filename : Text) : assembleListing filename (unifyNewlines (oneText line)) = .ok (ps.image filename) := by
  rw [assembleListing_eq, listingParts_oneText hline, hparts]
  rfl

theorem assembleParts_hello :
    assembleParts [⟨"m", 0, 0, 0, 0, 0⟩] (readCodeLines opcodes ["hello".toList, "CALLB 01, 00000001"]) =
      .ok ⟨Row.entry ⟨"m", 0, 0, 0, 0, 0⟩ 0, 1, [[0x01, 2, 0, 0, 0], [0x29, 1, 0, 0, 0, 1]],
        [109, 0, 104, 101, 108, 108, 111, 0], []⟩ := by
  decide

theorem assembled_writeBack_oneText :
    ∃ found image,
      (∀ ws, Job.Yields (collect Locale.chinese plainConverter "s" (translations (oneItem "ｱ")) []) ws found ws) ∧
      writeBack found (oneText "hello") = oneText "ｱ" ∧
      assembleListing "o" (unifyNewlines (oneText "hello")) = .ok image ∧
      ∃ ps ps' : Parts, image = ps.image "o" ∧
        assembleListing "o" (unifyNewlines (writeBack found (oneText "hello"))) = .ok (ps'.image "o") ∧
        SameLayout ps.code ps'.code := by
  have hcollect : ∀ ws, Yields (collect Locale.chinese plainConverter "s" (translations (oneItem "ｱ")) []) ws
      [(1, "ｱ".toList)] ws :=
    fun ws => collect_oneItem ws (by decide) (by decide +kernel) (by decide +kernel)
  have hassemble := assembleListing_oneText (by decide) assembleParts_hello "o"
  have hfits : FitsIn (some "CODE".toList) "hello" ['\n'] "ｱ" :=
    ⟨by decide, by decide, by decide, by decide, by decide, by decide,
      fun _ => ⟨⟨"hello", by decide⟩, "ｱ", by decide⟩⟩
  have hsuits : ∀ tr ∈ translations (oneItem "ｱ"),
      Suits tr.line (finalText Locale.chinese plainConverter tr.text) none {} (linesWithBreaks (oneText "hello")) := by
    intro tr htr
    rw [translations_oneItem (by decide)] at htr
    obtain rfl := List.mem_singleton.mp htr
    rw [show finalText Locale.chinese plainConverter "ｱ" = "ｱ".toList by decide, linesWithBreaks_oneText]
    refine ⟨fun h => absurd h (by decide), fun h => absurd h (by decide),
      fun h => absurd h (by decide), fun h => absurd h (by decide), fun _ _ => ?_,
      fun h => absurd h (by decide), trivial⟩
    rw [openAfter_of_opens _ opens_code]
    exact hfits
  obtain ⟨ps, ps', hps, hps', hlayout, -⟩ := assembled_writeBack hassemble (hcollect { cwd := [] }) hsuits
  exact ⟨_, _, hcollect, writeBack_oneText _, hassemble, ps, ps', hps, hps', hlayout⟩

/-- A translation that looks like an instruction is assembled as the instruction, so that the code
after it moves. -/
theorem writeBack_nop_shrinks :
    ∃ found image image' h h',
      (∀ ws, Job.Yields (collect Locale.chinese plainConverter "s" (translations (oneItem "NOP")) []) ws found ws) ∧
      assembleListing "o" (unifyNewlines (oneText "hello")) = .ok image ∧
      assembleListing "o" (unifyNewlines (writeBack found (oneText "hello"))) = .ok image' ∧
      readHeader image = .ok h ∧ readHeader image' = .ok h' ∧ (h'.code image').length < (h.code image).length := by
  have hafter : assembleParts [⟨"m", 0, 0, 0, 0, 0⟩] (readCodeLines opcodes ["NOP".toList, "CALLB 01, 00000001"]) =
      .ok ⟨Row.entry ⟨"m", 0, 0, 0, 0, 0⟩ 0, 1, [[0x00], [0x29, 1, 0, 0, 0, 1]], [109, 0], []⟩ := by
    decide
  refine ⟨_, _, _, ⟨"o", 68, 1, 88, 11, 100, 8, 108, 0⟩, ⟨"o", 68, 1, 88, 7, 96, 2, 98, 0⟩,
    fun ws => collect_oneItem ws (by decide) (by decide +kernel) (by decide +kernel),
    assembleListing_oneText (by decide) assembleParts_hello "o",
    by rw [writeBack_oneText]; exact assembleListing_oneText (by decide) hafter "o", ?_, ?_, ?_⟩
  · decide +kernel
  · decide +kernel
  · decide

end Localizer.Dialogue
