import Localizer.Proofs.Dialogue.Reextraction
import Localizer.Proofs.Glyph

/-!
# Originals written back

A translator who changes nothing gives each text back as its own translation. If no two texts are
taken for each other, that is, if the texts that stand on lines of one number are the same but for
the white space before them, and if the items do not begin with white space, then writing back
leaves the script as it is, byte for byte.

Lines are numbered anew in each code section, so that texts of two sections may have one number.
Such texts are refused.
-/

namespace Localizer.Dialogue

open List Text Encoding Job Glyph Assoc Localizer.Locale

variable {line t : Text}
variable {n : Nat} {tr : Translation} {vs : List Json} {table : GlyphTable} {loc : Locale} {ws : Workspace}
  {cast : Cast} (script : Text)

/-! ### Lines that are replaced by themselves -/

section

variable {found : List (Nat × Text)}

theorem retext_eq_self (h : ∀ s, get? n found = some s → trimStart line = s) :
    retext found n line = line := by
  unfold retext
  cases hs : get? n found with
  | none => rfl
  | some s =>
    rw [← h s hs]
    exact takeWhile_append_dropWhile

theorem replaceLines_eq_glue {c : Cursor} {p : Nat} {ls : List (Text × Text)}
    (hfeed : ∀ l b, (l, b) ∈ ls → cutLineFeed l b = (l, b))
    (h : ∀ x ∈ codeSites c p (ls.map Prod.fst), isText x.line = true → retext found x.number x.line = x.line) :
    replaceLines found c ls = glue ls := by
  induction ls generalizing c p with
  | nil => rfl
  | cons q ls ih =>
    obtain ⟨l, b⟩ := q
    have hline : replaceLine found (c.number? l) l = l := by
      cases htext : isText l with
      | false => exact replaceLine_of_not_isText htext
      | true =>
        cases hn : c.number? l with
        | none => rfl
        | some n =>
          rw [replaceLine_of_isText htext]
          exact h ⟨l, n, p⟩ (mem_append_left _ (by rw [hn]; exact mem_singleton_self _)) htext
    rw [replaceLines_cons, hfeed l b mem_cons_self, hline, glue_cons, append_assoc,
      ih (fun l b hlb => hfeed l b (mem_cons_of_mem _ hlb)) fun x hx => h x (mem_append_right _ hx)]

/-- **Nothing changes if each line of code is replaced by its own text.** -/
theorem writeBack_eq_self (hbreaks : PlainBreaks t)
    (h : ∀ p n l s, (lines t)[p]? = some l → IsCodeLine (lines t) p n → isText l = true →
      get? n found = some s → trimStart l = s) : writeBack found t = t := by
  refine (replaceLines_eq_glue (p := 0) (fun l b hlb => cutLineFeed_of_plainBreaks hbreaks hlb) fun x hx htext =>
    retext_eq_self fun s hs => ?_).trans (wellCut_linesWithBreaks t).2
  obtain ⟨hline, hcode⟩ := mem_codeSites [] hx
  exact h x.position x.number x.line s hline hcode htext hs

end

/-! ### Texts as their own translations -/

theorem onOneLine_eq_self (h : OneLine t) : onOneLine t = t := by
  rw [onOneLine, unifyNewlines_eq_self h]
  refine (flatMap_congr fun c hc => if_neg ?_).trans (flatMap_singleton' t)
  exact fun hlf => h.lf_not_mem (hlf ▸ hc)

theorem Translation.of_ofJson? {v : Json} (h : ofJson? v = some tr) :
    v.member? "key" = some (.str tr.key) ∧ v.member? "translation" = some (.str tr.text) ∧
      lineOfKey? tr.key = some tr.line := by
  unfold ofJson? at h
  split at h
  · next text key htext hkey =>
    split at h
    · next n _ hline =>
      cases h
      exact ⟨hkey, htext, hline⟩
    · cases h
  · cases h

/-- The item of a document gives the text of an extracted item back as its translation. -/
def GivesBack (it : Item) (v : Json) : Prop :=
  v.member? "key" = some (.str it.key) ∧ v.member? "translation" = some (.str it.text)

theorem exists_item_of_translation {its : List Item} (h : Forall₂ GivesBack its vs)
    (htr : tr ∈ translations (.arr vs)) :
    ∃ it ∈ its, lineOfKey? it.key = some tr.line ∧ tr.text = it.text := by
  obtain ⟨v, hv, hof⟩ := mem_filterMap.mp htr
  obtain ⟨hkey, htext, hline⟩ := Translation.of_ofJson? hof
  obtain ⟨i, hi, rfl⟩ := mem_iff_getElem.mp hv
  have hi' : i < its.length := h.length_eq ▸ hi
  obtain ⟨hitemKey, hitemText⟩ := h.get hi' hi
  refine ⟨its.get ⟨i, hi'⟩, get_mem its _, ?_, ?_⟩
  · rwa [Json.str.inj (Option.some.inj (hitemKey.symm.trans hkey))]
  · exact Json.str.inj (Option.some.inj (htext.symm.trans hitemText))

theorem finish_eq_self (tr : Translation) (htable : DrawsAll table) (hone : OneLine tr.text)
    (hconv : Converter.text ⟨defaultRules, table⟩ tr.text = tr.text) (ws : Workspace) :
    Yields (finish chinese ⟨defaultRules, table⟩ script tr) ws tr.text ws := by
  have hrun := htable.yields_run hconv ws
  unfold finish
  rw [onOneLine_eq_self hone, hrun.bind_iff]
  exact .pure rfl

/-- **Translations that agree on every line are collected.** -/
theorem collect_of_agreeing {conv : Converter} {script : Text} {trs : List Translation}
    (found : List (Nat × Text))
    (hfinish : ∀ tr ∈ trs, Yields (finish loc conv script tr) ws tr.text ws)
    (hagree : ∀ tr ∈ trs, ∀ tr' ∈ trs, tr.line = tr'.line → tr.text = tr'.text)
    (hfound : ∀ tr ∈ trs, ∀ s, get? tr.line found = some s → s = tr.text) :
    ∃ found', Yields (collect loc conv script trs found) ws found' ws := by
  induction trs generalizing found with
  | nil => exact ⟨found, .pure rfl⟩
  | cons tr trs ih =>
    have hall : (get? tr.line found).all (· = tr.text) = true := by
      cases hs : get? tr.line found with
      | none => rfl
      | some s => exact decide_eq_true (hfound tr mem_cons_self s hs)
    obtain ⟨found', hcollect⟩ := ih (insert tr.line tr.text found)
      (fun tr' htr' => hfinish tr' (mem_cons_of_mem _ htr'))
      (fun a ha b hb => hagree a (mem_cons_of_mem _ ha) b (mem_cons_of_mem _ hb))
      (fun tr' htr' s hs => by
        rw [get?_insert] at hs
        split at hs
        · next hline =>
          rw [← Option.some.inj hs]
          exact hagree tr mem_cons_self tr' (mem_cons_of_mem _ htr') hline
        · exact hfound tr' (mem_cons_of_mem _ htr') s hs)
    refine ⟨found', ?_⟩
    rwa [collect, (hfinish tr mem_cons_self).bind_iff, if_pos hall]

/-- Every text on a line that has the number of an item is the text of the item, but for the white
space before it. -/
def SameOnLine (ls : List Text) (it : Item) : Prop :=
  ∀ p n l, lineOfKey? it.key = some n → ls[p]? = some l → IsCodeLine ls p n → isText l = true → trimStart l = it.text

theorem SameOnLine.agree {it it' : Item}
    (hit : it ∈ extract loc cast t) (h : SameOnLine (lines t) it) (h' : SameOnLine (lines t) it')
    (hn : lineOfKey? it.key = some n) (hn' : lineOfKey? it'.key = some n) : it.text = it'.text := by
  obtain ⟨p, m, hm, hline, hcode, htext⟩ := exists_comesFrom hit
  obtain rfl : n = m := Option.some.inj (hn.symm.trans hm)
  rw [← h p n it.text hn hline hcode htext, h' p n it.text hn' hline hcode htext]

theorem collect_originals (htable : DrawsAll table) (hgives : Forall₂ GivesBack (extract chinese cast t) vs)
    (hconv : ∀ it ∈ extract chinese cast t, Converter.text ⟨defaultRules, table⟩ it.text = it.text)
    (hsame : ∀ it ∈ extract chinese cast t, SameOnLine (lines t) it) (ws : Workspace) :
    ∃ found, Yields (collect chinese ⟨defaultRules, table⟩ script (translations (.arr vs)) []) ws found ws ∧
      ∀ n s, get? n found = some s → ∃ it ∈ extract chinese cast t, lineOfKey? it.key = some n ∧ it.text = s := by
  have hfinish : ∀ tr ∈ translations (.arr vs),
      Yields (finish chinese ⟨defaultRules, table⟩ script tr) ws tr.text ws := by
    intro tr htr
    obtain ⟨it, hit, -, htext⟩ := exists_item_of_translation hgives htr
    obtain ⟨p, n, -, hline, -⟩ := exists_comesFrom hit
    rw [← htext] at hline
    exact finish_eq_self script tr htable (oneLine_of_mem_lines (mem_of_getElem? hline)) (htext ▸ hconv it hit) ws
  have hagree : ∀ tr ∈ translations (.arr vs), ∀ tr' ∈ translations (.arr vs),
      tr.line = tr'.line → tr.text = tr'.text := by
    intro tr htr tr' htr' hline
    obtain ⟨it, hit, hn, htext⟩ := exists_item_of_translation hgives htr
    obtain ⟨it', hit', hn', htext'⟩ := exists_item_of_translation hgives htr'
    rw [htext, htext']
    exact (hsame it hit).agree hit (hsame it' hit') hn (hline ▸ hn')
  obtain ⟨found, hcollect⟩ := collect_of_agreeing [] hfinish hagree nofun
  refine ⟨found, hcollect, fun n s hs => ?_⟩
  rcases get?_collect hcollect hs with hnone | ⟨tr, htr, rfl, rfl⟩
  · cases hnone
  · obtain ⟨it, hit, hn, htext⟩ := exists_item_of_translation hgives htr
    exact ⟨it, hit, hn, htext.symm.trans (finish_eq (hfinish tr htr))⟩

/-- **Originals are written back as they were.** Let every item of a script be given its own text as
translation, and let conversion leave these texts as they are. If each item is the same as every
text on a line of its number, then the translations are written back, and the script that is written
has the bytes of the script. -/
theorem writeBackOne_originals {input output script items t d fontText : Text} {bs : Bytes} {table : GlyphTable}
    {cast : Cast} {vs : List Json} {ws ws₁ ws' : Workspace}
    (htable : Glyph.readTable fontText = .ok table)
    (hscript : Job.Yields (Job.readBytes (Path.child input script)) ws bs ws) (hbs : Utf8.encode? t = some bs)
    (hdocument : Job.Yields (Job.readUtf8Lossy items) ws d ws) (hread : Json.read d = .ok (.arr vs))
    (hbreaks : PlainBreaks t) (hgives : List.Forall₂ GivesBack (extract Locale.chinese cast t) vs)
    (hconv : ∀ it ∈ extract Locale.chinese cast t,
      Glyph.Converter.text ⟨Glyph.defaultRules, table⟩ it.text = it.text)
    (hsame : ∀ it ∈ extract Locale.chinese cast t, SameOnLine (lines t) it)
    (hmake : Job.Yields (Job.makeDirs (Path.parent (Path.child output script))) ws () ws₁)
    (hwrite : Job.Yields (Job.writeBytes (Path.child output script) bs) ws₁ () ws') :
    Job.Yields (writeBackOne Locale.chinese ⟨Glyph.defaultRules, table⟩ input output script items) ws () ws' ∧
      Job.Yields (Job.readBytes (Path.child output script)) ws' bs ws' := by
  obtain ⟨found, hcollect, hfound⟩ :=
    collect_originals script (Glyph.drawsAll_of_readTable htable) hgives hconv hsame ws
  have hself : writeBack found t = t := by
    refine writeBack_eq_self hbreaks fun p n l s hl hcode htext hs => ?_
    obtain ⟨it, hit, hn, rfl⟩ := hfound n s hs
    exact hsame it hit p n l hn hl hcode htext
  have hread' : Yields (readScript (Path.child input script)) ws t ws :=
    yields_readScript.mpr ⟨bs, hscript, Utf8.decode?_of_encode? hbs⟩
  refine ⟨(yields_writeBackOne hread' hdocument hread).mpr ⟨found, ws, ws₁, hcollect, hmake, ?_⟩,
    readBytes_of_writeBytes hwrite⟩
  rw [hself]
  exact yields_writeUtf8.mpr ⟨bs, hbs, hwrite⟩

/-! ### Two sections -/

/-- A listing with two code sections, the first of which shows `hello`, and the second another text.
-/
def twoSections (line : Text) : Text :=
  join "\n" ["[CODE]".toList, "hello".toList, "CALLB 01, 00000001".toList,
    "[CODE]".toList, line, "CALLB 01, 00000001".toList]

/-- The listing that is used with two texts of one number, and the one with the same text twice. -/
def secondTexts : List Text := ["hello", "world"]

theorem isText_secondTexts : ∀ line ∈ secondTexts, isText line = true := by
  have hpush : ∀ line ∈ secondTexts, ∀ f ∈ pushForms, operand? f.1 f.2 line = none := by decide
  have hcall : ∀ line ∈ secondTexts, ∀ name ∈ callNames, callOperands? name line = none := by decide
  have hop : ∀ line ∈ secondTexts, ∀ op ∈ operations, op ≠ [] ∧ op.head? ≠ (firstWord line).head? := by
    rw [operations_eq]
    decide
  have hplain : ∀ line ∈ secondTexts, isBlankText line = false ∧ isMark (trim line) = false := by decide
  exact fun line h => isText_iff.mpr ⟨hpush line h, hcall line h, isOperation_eq_false (hop line h), hplain line h⟩

theorem codeSites_twoSections : ∀ line ∈ secondTexts, codeSites {} 0 (lines (twoSections line)) =
    [⟨"hello", 1, 1⟩, ⟨"CALLB 01, 00000001", 2, 2⟩, ⟨line, 1, 4⟩, ⟨"CALLB 01, 00000001", 2, 5⟩] := by
  decide

theorem extract_twoSections (hline : line ∈ secondTexts) :
    extract chinese {} (twoSections line) = [⟨"1", "hello", "选项1"⟩, ⟨"1_2", line, "选项1"⟩] := by
  have hhello : Statement.ofLine "hello" = .text := of_decide_eq_true (isText_secondTexts "hello" (by decide))
  have htext : Statement.ofLine line = .text := of_decide_eq_true (isText_secondTexts line hline)
  have hcall : Statement.ofLine "CALLB 01, 00000001" = .call 1 1 := by decide
  rw [extract_eq, shownIn, codeSites_twoSections line hline, marked]
  simp only [map_cons, map_nil, hhello, htext, hcall]
  clear htext
  revert line
  decide

def twoItems (line : Text) : List Json :=
  [.obj [("key", .str "1"), ("translation", .str "hello")], .obj [("key", .str "1_2"), ("translation", .str line)]]

def twoItemsText (line : Text) : Text :=
  "[\x7b\"key\":\"1\",\"translation\":\"hello\"\x7d,\x7b\"key\":\"1_2\",\"translation\":\"" ++ line ++ "\"\x7d]"

theorem read_twoItemsText (hline : line ∈ secondTexts) :
    Json.read (unifyNewlines (Utf8.decodeLossy (Utf8.encode (twoItemsText line)))) =
      .ok (.arr (twoItems line)) := by
  have hdecode : ∀ line ∈ secondTexts,
      unifyNewlines (Utf8.decodeLossy (Utf8.encode (twoItemsText line))) = twoItemsText line := by
    decide
  rcases mem_pair.mp hline with rfl | rfl
  · rfl
  · rfl

theorem givesBack_twoItems (hline : line ∈ secondTexts) :
    Forall₂ GivesBack (extract chinese {} (twoSections line)) (twoItems line) := by
  rw [extract_twoSections hline]
  exact .cons ⟨rfl, rfl⟩ (.cons ⟨rfl, rfl⟩ .nil)

theorem convert_twoSections (hline : line ∈ secondTexts) :
    ∀ it ∈ extract chinese {} (twoSections line), plainConverter.text it.text = it.text := by
  rw [extract_twoSections hline]
  have hconv : ∀ line ∈ secondTexts, plainConverter.text line = line := by decide
  intro it hit
  rcases mem_pair.mp hit with rfl | rfl
  · exact hconv "hello" (by decide)
  · exact hconv line hline

theorem writeBackOne_originals_twoSections : ∃ ws',
    Job.Yields (writeBackOne Locale.chinese plainConverter "in" "out" "s" "j")
      (desk (twoSections "hello") (twoItemsText "hello")) () ws' ∧
    Job.Yields (Job.readBytes (Path.child "out" "s")) ws' (Utf8.encode (twoSections "hello")) ws' := by
  have hline : "hello".toList ∈ secondTexts := by decide
  have hlines : ∀ l ∈ lines (twoSections "hello"),
      l = "hello".toList ∨ isSectionMark l = true ∨ l = "CALLB 01, 00000001".toList := by
    decide
  have hsame : ∀ it ∈ extract Locale.chinese {} (twoSections "hello"), SameOnLine (lines (twoSections "hello")) it := by
    rw [extract_twoSections hline]
    intro it hit p n l _ hl _ htext
    rcases hlines l (List.mem_of_getElem? hl) with rfl | hmark | rfl
    · rcases List.mem_pair.mp hit with rfl | rfl <;> rfl
    · exact absurd (hmark.symm.trans (isSectionMark_of_isText htext)) (by decide)
    · exact absurd (of_decide_eq_true htext) (by decide)
  exact ⟨_, writeBackOne_originals (show Glyph.readTable [] = .ok [] from rfl)
    (yields_readBytes.mpr ⟨_, rfl, rfl, rfl⟩) (Utf8.encode?_eq (by decide)) (readUtf8Lossy_desk _ _)
    (read_twoItemsText hline) (by decide) (givesBack_twoItems hline) (convert_twoSections hline) hsame rfl
    (yields_writeFile.mpr ⟨_, rfl, rfl, by decide, rfl⟩)⟩

theorem not_yields_collect_twoItems {ws' : Workspace} {found : List (Nat × Text)} :
    ¬ Yields (collect chinese plainConverter "s" (translations (.arr (twoItems "world"))) [])
      ws found ws' := by
  intro h
  have hdraws : DrawsAll [] := nofun
  have hfirst := finish_eq_self "s" ⟨"1", 1, "hello"⟩ hdraws (by decide) (by decide) ws
  have hsecond := finish_eq_self "s" ⟨"1_2", 1, "world"⟩ hdraws (by decide) (by decide) ws
  rw [show translations (.arr (twoItems "world")) = [⟨"1", 1, "hello"⟩, ⟨"1_2", 1, "world"⟩] from rfl, collect] at h
  rw [plainConverter, hfirst.bind_iff, if_pos (by decide), collect, hsecond.bind_iff, if_neg (by decide)] at h
  obtain ⟨_, _, -, habandon⟩ := yields_bind.mp h
  exact not_yields_throw habandon

/-- Different texts of one number are refused, even if they are the originals. -/
theorem originals_refused_twoSections :
    PlainBreaks (twoSections "world") ∧
    List.Forall₂ GivesBack (extract Locale.chinese {} (twoSections "world")) (twoItems "world") ∧
    (∀ it ∈ extract Locale.chinese {} (twoSections "world"), plainConverter.text it.text = it.text) ∧
    Json.read (unifyNewlines (Utf8.decodeLossy (Utf8.encode (twoItemsText "world")))) = .ok (.arr (twoItems "world")) ∧
    ∀ ws', ¬ Job.Yields (writeBackOne Locale.chinese plainConverter "in" "out" "s" "j")
      (desk (twoSections "world") (twoItemsText "world")) () ws' := by
  have hline : "world".toList ∈ secondTexts := by decide
  refine ⟨by decide, givesBack_twoItems hline, convert_twoSections hline, read_twoItemsText hline,
    fun ws' hrun => ?_⟩
  obtain ⟨found, ws₁, ws₂, hcollect, -⟩ :=
    (yields_writeBackOne (readScript_desk _ _) (readUtf8Lossy_desk _ _) (read_twoItemsText hline)).mp hrun
  exact not_yields_collect_twoItems hcollect

end Localizer.Dialogue
