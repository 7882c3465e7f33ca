import Localizer.Proofs.Dialogue.Extraction
import Localizer.Proofs.Dialogue.WriteBack
import Localizer.Proofs.Workspace

/-!
# Extracting what was written back

Writing back and extraction go over a script each in its own way: the one cuts it into lines with
their breaks, the other without, and both count the lines of code. Here they are brought together.
If the texts that are written back are texts for the extraction as well, and stand on one line each,
it finds the same items, with the new texts in the place of the old ones.
-/

namespace Localizer.Dialogue

open List Text Encoding Job Utf8 Localizer.Path Assoc

variable {l : Text} {c : Cursor} {p : Nat} {ls : List Text}
variable {t d : Text} {ws ws' : Workspace} {document : Json}

section

variable {found : List (Nat × Text)}

/-! ## Lines -/

def retext (found : List (Nat × Text)) (n : Nat) (line : Text) : Text :=
  (Assoc.get? n found).elim line (line.takeWhile isBlank ++ ·)

theorem replaceLine_of_isText {n : Nat} (h : isText l = true) :
    replaceLine found (some n) l = retext found n l := by
  rw [replaceLine, retext, Option.bind_some]
  cases get? n found with
  | none => rfl
  | some s => exact if_pos h

theorem replaceLine_of_not_isText {number? : Option Nat} (h : isText l = false) :
    replaceLine found number? l = l := by
  rcases replaceLine_cases found number? l with hsame | ⟨_, _, _, _, htext, _⟩
  · exact hsame
  · exact absurd (h.symm.trans htext) (by decide)

/-- The lines of a script with texts replaced, without their breaks. -/
def replacedLines (found : List (Nat × Text)) : Cursor → List Text → List Text
  | _, [] => []
  | c, l :: ls => replaceLine found (c.number? l) l :: replacedLines found (c.next l) ls

/-- The replacements of lines of code are texts again. -/
def KeepsTexts (found : List (Nat × Text)) (sites : List CodeSite) : Prop :=
  ∀ x ∈ sites, isText x.line = true → isText (retext found x.number x.line) = true

theorem KeepsTexts.head (h : KeepsTexts found (codeSites c p (l :: ls))) (htext : isText l = true) :
    isText (replaceLine found (c.number? l) l) = true := by
  cases hn : c.number? l with
  | none =>
    rwa [replaceLine]
  | some n =>
    rw [replaceLine_of_isText htext]
    refine h ⟨l, n, p⟩ ?_ htext
    rw [codeSites, hn]
    exact mem_cons_self

theorem KeepsTexts.tail (h : KeepsTexts found (codeSites c p (l :: ls))) :
    KeepsTexts found (codeSites (c.next l) (p + 1) ls) :=
  fun x hx => h x (mem_append_right _ hx)

theorem codeSites_replacedLines (h : KeepsTexts found (codeSites c p ls)) :
    codeSites c p (replacedLines found c ls) =
      (codeSites c p ls).map fun x => { x with line := replaceLine found (some x.number) x.line } := by
  induction ls generalizing c p with
  | nil => rfl
  | cons l ls ih =>
    have hsame : c.next (replaceLine found (c.number? l) l) = c.next l ∧
        c.number? (replaceLine found (c.number? l) l) = c.number? l := by
      cases htext : isText l with
      | false => rw [replaceLine_of_not_isText htext]; exact ⟨rfl, rfl⟩
      | true => exact ⟨Cursor.next_of_isText htext (h.head htext), Cursor.number?_of_isText htext (h.head htext)⟩
    rw [replacedLines, codeSites, codeSites, hsame.1, hsame.2, ih h.tail, map_append]
    cases c.number? l with
    | none
    | some n => rfl

/-- A script whose only line breaks are line feeds, carriage returns, and pairs of them. -/
def PlainBreaks (t : Text) : Prop := ∀ c ∈ t, isLineBreak c = true → c = '\r' ∨ c = '\n'

instance (t : Text) : Decidable (PlainBreaks t) :=
  decidable_of_iff ((t.all fun c => !isLineBreak c || (c = '\r' || c = '\n')) = true)
    (by simp [PlainBreaks, ← Bool.not_eq_true, ← imp_iff_not_or])

theorem cutLineFeed_of_plainBreaks {b : Text} (h : PlainBreaks t)
    (hmem : (l, b) ∈ linesWithBreaks t) : cutLineFeed l b = (l, b) := by
  obtain ⟨hcut, hglue⟩ := wellCut_linesWithBreaks t
  refine if_pos (all_eq_true.mpr fun c hc => ?_)
  have hmem' : c ∈ t := by
    rw [← hglue]
    exact mem_flatMap.mpr ⟨(l, b), hmem, mem_append_right _ hc⟩
  rcases (hcut.of_mem hmem).2 with hnil | ⟨_, hb⟩
  · simp [show b = [] from hnil] at hc
  · simpa using h c hmem' (hb.isLineBreak c hc)

theorem exists_replaceLines {ls : List (Text × Text)} (c : Cursor) (p : Nat)
    (hfeed : ∀ l b, (l, b) ∈ ls → cutLineFeed l b = (l, b)) (hlines : ∀ q ∈ ls, OneLine q.1)
    (hone : ∀ n s, get? n found = some s → OneLine s)
    (h : KeepsTexts found (codeSites c p (ls.map Prod.fst))) :
    ∃ ls', Forall₂ StandsFor ls ls' ∧ glue ls' = replaceLines found c ls ∧
      ls'.map Prod.fst = replacedLines found c (ls.map Prod.fst) := by
  induction ls generalizing c p with
  | nil => exact ⟨[], .nil, rfl, rfl⟩
  | cons q ls ih =>
    obtain ⟨l, b⟩ := q
    obtain ⟨ls', hstands, hglue, hmap⟩ := ih (c.next l) (p + 1) (fun l b hlb => hfeed l b (mem_cons_of_mem _ hlb))
      (fun q hq => hlines q (mem_cons_of_mem _ hq)) h.tail
    have hline : replaceLine found (c.number? l) l = l ∨ OneLine (replaceLine found (c.number? l) l) ∧
        replaceLine found (c.number? l) l ≠ [] := by
      rcases replaceLine_cases found (c.number? l) l with hsame | ⟨n, s, hn, hs, htext, hreplace⟩
      · exact .inl hsame
      · have hnew := h.head htext
        refine .inr ⟨?_, ?_⟩
        · rw [hreplace]
          exact oneLine_append (fun d hd => hlines (l, b) mem_cons_self d (takeWhile_subset _ hd))
            (hone n s hs)
        · intro hnil
          rw [hnil] at hnew
          exact absurd (not_blank_of_isText hnew) (by decide)
    refine ⟨(replaceLine found (c.number? l) l, b) :: ls', .cons ⟨rfl, hline⟩ hstands, ?_, ?_⟩
    · rw [glue_cons, replaceLines_cons, hfeed l b mem_cons_self, hglue, append_assoc]
    · rw [map_cons, map_cons, replacedLines, hmap]

/-- **The lines of what is written back are the lines of the script with texts replaced.** -/
theorem lines_writeBack_eq (hbreaks : PlainBreaks t)
    (hone : ∀ n s, get? n found = some s → OneLine s)
    (h : KeepsTexts found (codeSites {} 0 (lines t))) :
    lines (writeBack found t) = replacedLines found {} (lines t) := by
  obtain ⟨hcut, -⟩ := wellCut_linesWithBreaks t
  obtain ⟨ls', hstands, hglue, hmap⟩ := exists_replaceLines {} 0
    (fun l b hlb => cutLineFeed_of_plainBreaks hbreaks hlb) (fun q hq => (hcut.of_mem hq).1) hone h
  rw [lines, writeBack, ← hglue, linesWithBreaks_glue (hcut.standsFor hstands).1, hmap, lines]

/-! ### Items -/

/-- An item with its text replaced, if there is a replacement for the line that its key names. -/
def Item.retext (found : List (Nat × Text)) (it : Item) : Item :=
  { it with text := (lineOfKey? it.key).elim it.text fun n => Dialogue.retext found n it.text }

theorem addAll_retext (items : List Item) (xs : List (Text × Nat × Text)) :
    addAll (items.map (Item.retext found)) (xs.map (relabel fun y => (retext found y.2 y.1, y.2))) =
      (addAll items xs).map (Item.retext found) := by
  induction xs generalizing items with
  | nil => rfl
  | cons x xs ih =>
    have hkeys : (items.map (Item.retext found)).map Item.key = items.map Item.key := by
      rw [map_map]
      rfl
    have hitem : addItem (items.map (Item.retext found)) (retext found x.2.1 x.1) x.2.1 x.2.2 =
        (addItem items x.1 x.2.1 x.2.2).map (Item.retext found) := by
      rw [addItem, addItem, hkeys, map_append, map_singleton, Item.retext, lineOfKey?_freshKey]
      rfl
    rw [map_cons, addAll, foldl_cons, relabel]
    rw [hitem]
    exact ih _

variable {loc : Locale} {cast : Cast}

theorem shownIn_replacedLines (h : KeepsTexts found (codeSites {} 0 ls)) :
    shownIn loc cast CodeSite.number (replacedLines found {} ls) =
      (shownIn loc cast CodeSite.number ls).map (relabel fun y => (retext found y.2 y.1, y.2)) := by
  refine showAll_map (f := fun y => (retext found y.2 y.1, y.2)) ?_ [] {}
  rw [codeSites_replacedLines h, marked, marked, map_map, forall₂_map_left_iff, forall₂_map_right_iff]
  refine forall₂_same.mpr fun x hx => ?_
  cases htext : isText x.line with
  | false =>
    simp only [Function.comp, replaceLine_of_not_isText htext]
    refine ⟨rfl, fun hstatement => ?_⟩
    exact absurd (htext.symm.trans (decide_eq_true hstatement)) (by decide)
  | true =>
    have hnew := h x hx htext
    simp only [Function.comp, replaceLine_of_isText htext]
    exact ⟨(of_decide_eq_true hnew).trans (of_decide_eq_true htext).symm, fun _ => rfl⟩

/-- **Extraction commutes with replacing texts by texts.** -/
theorem extract_of_lines {t' : Text} (h : KeepsTexts found (codeSites {} 0 (lines t)))
    (hlines : lines t' = replacedLines found {} (lines t)) :
    extract loc cast t' = (extract loc cast t).map (Item.retext found) := by
  rw [extract_eq, extract_eq, hlines, shownIn_replacedLines h]
  exact addAll_retext [] _

end

/-! ### Scripts in a workspace -/

theorem yields_readScript {p : Text} : Yields (readScript p) ws t ws' ↔
      ∃ bs, Yields (readBytes p) ws bs ws' ∧ decode? bs = some t := by
  unfold readScript
  simp only [yields_bind, yields_require]
  constructor
  · rintro ⟨bs, _, hread, hdecode, rfl⟩
    exact ⟨bs, hread, hdecode⟩
  · rintro ⟨bs, hread, hdecode⟩
    exact ⟨bs, ws', hread, hdecode, rfl⟩

theorem readScript_of_writeUtf8 {p : Text} (h : Yields (writeUtf8 p t) ws () ws') :
    Yields (readScript p) ws' t ws' := by
  obtain ⟨bs, hbs, hwrite⟩ := yields_writeUtf8.mp h
  exact yields_readScript.mpr ⟨bs, readBytes_of_writeBytes hwrite, decode?_of_encode? hbs⟩

variable {loc : Locale} {conv : Glyph.Converter} {input output script items : Text}

theorem yields_writeBackOne (hscript : Yields (readScript (child input script)) ws t ws)
    (hdocument : Yields (readUtf8Lossy items) ws d ws) (hread : Json.read d = .ok document) :
    Yields (writeBackOne loc conv input output script items) ws () ws' ↔
      ∃ found ws₁ ws₂, Yields (collect loc conv script (translations document) []) ws found ws₁ ∧
        Yields (makeDirs (parent (child output script))) ws₁ () ws₂ ∧
        Yields (writeUtf8 (child output script) (writeBack found t)) ws₂ () ws' := by
  unfold writeBackOne
  rw [hscript.bind_iff, hdocument.bind_iff, (Yields.ofExcept hread).bind_iff]
  simp only [yields_bind]
  constructor
  · rintro ⟨found, ws₁, hcollect, _, ws₂, hmake, hwrite⟩
    exact ⟨found, ws₁, ws₂, hcollect, hmake, hwrite⟩
  · rintro ⟨found, ws₁, ws₂, hcollect, hmake, hwrite⟩
    exact ⟨found, ws₁, hcollect, (), ws₂, hmake, hwrite⟩

/-- **Extraction finds what was written back.** If no text that is written back has a line break,
and each line that is replaced stays a text, then the script that is written shows the same items as
before, in the same order and under the same keys, with the new texts behind the white space at the
start of their lines. -/
theorem extract_writeBackOne {t d : Text} {document : Json} {found : List (Nat × Text)} {ws₁ : Workspace} (cast : Cast)
    (hscript : Job.Yields (readScript (Path.child input script)) ws t ws)
    (hdocument : Job.Yields (Job.readUtf8Lossy items) ws d ws) (hread : Json.read d = .ok document)
    (hcollect : Job.Yields (collect loc conv script (translations document) []) ws found ws₁)
    (hrun : Job.Yields (writeBackOne loc conv input output script items) ws () ws')
    (hbreaks : PlainBreaks t) (hone : ∀ n s, Assoc.get? n found = some s → OneLine s)
    (htexts : ∀ p n l s, (lines t)[p]? = some l → IsCodeLine (lines t) p n → isText l = true →
      Assoc.get? n found = some s → isText (l.takeWhile isBlank ++ s) = true) :
    Job.Yields (readScript (Path.child output script)) ws' (writeBack found t) ws' ∧
      extract loc cast (writeBack found t) = (extract loc cast t).map (Item.retext found) := by
  obtain ⟨_, _, ws₂, hcollected, -, hwrite⟩ := (yields_writeBackOne hscript hdocument hread).mp hrun
  obtain ⟨rfl, -⟩ := hcollect.unique hcollected
  have hkeeps : KeepsTexts found (codeSites {} 0 (lines t)) := by
    intro x hx htext
    obtain ⟨hline, hcode⟩ := mem_codeSites [] hx
    rw [retext]
    cases hs : get? x.number found with
    | none => exact htext
    | some s => exact htexts x.position x.number x.line s hline hcode htext hs
  exact ⟨readScript_of_writeUtf8 hwrite, extract_of_lines hkeeps (lines_writeBack_eq hbreaks hone hkeeps)⟩

/-! ### A workspace with one script -/

/-- A workspace with a script, a document of its translations, and a directory for the output. -/
def desk (script document : Text) : Workspace where
  cwd := "/w"
  files := [(["w", "in", "s"], { data := encode script }), (["w", "j"], { data := encode document })]
  dirs := [["w", "in"], ["w", "out"]]

theorem readScript_desk (t d : Text) :
    Yields (readScript (child "in" "s")) (desk t d) t (desk t d) :=
  yields_readScript.mpr ⟨_, yields_readBytes.mpr ⟨{ data := encode t }, rfl, rfl, rfl⟩, decode?_encode t⟩

theorem readUtf8Lossy_desk (t d : Text) : Yields (readUtf8Lossy "j") (desk t d)
    (unifyNewlines (decodeLossy (encode d))) (desk t d) := by
  have hbytes : Yields (readBytes "j") (desk t d) (encode d) (desk t d) :=
    yields_readBytes.mpr ⟨{ data := encode d }, rfl, rfl, rfl⟩
  exact hbytes.bind (.pure rfl)

theorem writeBackOne_desk {loc : Locale} {conv : Glyph.Converter} {found : List (Nat × Text)} {bs : Bytes}
    (hread : Json.read (unifyNewlines (decodeLossy (encode d))) = .ok document)
    (hcollect : Yields (collect loc conv "s" (translations document) []) (desk t d) found (desk t d))
    (hbs : encode? (writeBack found t) = some bs) :
    Yields (writeBackOne loc conv "in" "out" "s" "j") (desk t d) ()
      ((desk t d).setFile ["w", "out", "s"] { data := bs }) :=
  (yields_writeBackOne (readScript_desk t d) (readUtf8Lossy_desk t d) hread).mpr
    ⟨found, desk t d, desk t d, hcollect, rfl,
      yields_writeUtf8.mpr ⟨bs, hbs, yields_writeFile.mpr ⟨_, rfl, rfl, by decide, rfl⟩⟩⟩

def oneItemText : Text := "[\x7b\"key\":\"1\",\"translation\":\"ｱ\"\x7d]"

theorem read_oneItemText :
    Json.read (unifyNewlines (decodeLossy (encode oneItemText))) = .ok (oneItem "ｱ") := by
  rw [show unifyNewlines (decodeLossy (encode oneItemText)) = oneItemText by decide]
  rfl

theorem lines_oneText : lines (oneText "hello") =
    ["[VARIABLE]".toList, "m,00000000,0,0,00000000,00000000".toList, [], "[CODE]".toList, "hello".toList,
      "CALLB 01, 00000001".toList] := by
  rw [lines, linesWithBreaks_oneText]
  rfl

theorem firstCodeLine_oneText (h : IsCodeLine (lines (oneText "hello")) p 1) : p = 4 := by
  obtain ⟨-, hle, ⟨l, hl, hmark⟩, -⟩ := h
  have hopened : ∀ k < (lines (oneText "hello")).length,
      ((lines (oneText "hello"))[k]?).map trim = some codeMark → k = 3 := by
    rw [lines_oneText]
    decide
  have hp := hopened (p - 1) (List.getElem?_eq_some_iff.mp hl).1 (by rw [hl, Option.map_some, hmark])
  omega

theorem extract_writeBackOne_oneText : ∃ ws',
    Job.Yields (writeBackOne Locale.chinese plainConverter "in" "out" "s" "j")
      (desk (oneText "hello") oneItemText) () ws' ∧
    Job.Yields (readScript (Path.child "out" "s")) ws' (oneText "ｱ") ws' ∧
    extract Locale.chinese {} (oneText "ｱ") =
      (extract Locale.chinese {} (oneText "hello")).map (Item.retext [(1, "ｱ")]) := by
  have hcollect := collect_oneItem (s := "ｱ") (desk (oneText "hello") oneItemText)
    (by decide) (by decide +kernel) (by decide)
  have hrun := writeBackOne_desk read_oneItemText hcollect
    (by rw [writeBack_oneText]; exact Utf8.encode?_eq (by decide))
  have htext : isText "ｱ" = true := isText_iff.mpr ⟨by decide, by decide,
    isOperation_eq_false (by rw [operations_eq]; decide), by decide, by decide⟩
  have hone : ∀ n s, get? n [(1, "ｱ".toList)] = some s → n = 1 ∧ s = "ｱ".toList := by
    intro n s hs
    rw [get?] at hs
    split at hs
    · next hn => exact ⟨hn.symm, (Option.some.inj hs).symm⟩
    · cases hs
  have hafter := extract_writeBackOne {} (readScript_desk _ _) (readUtf8Lossy_desk _ _) read_oneItemText hcollect hrun
    (by decide)
    (fun n s hs => (hone n s hs).2 ▸ by decide) fun p n l s hl hcode _ hs => by
      obtain ⟨rfl, rfl⟩ := hone n s hs
      obtain rfl := firstCodeLine_oneText hcode
      rw [lines_oneText] at hl
      obtain rfl := Option.some.inj hl
      exact htext
  rw [writeBack_oneText] at hafter
  exact ⟨_, hrun, hafter⟩

end Localizer.Dialogue
