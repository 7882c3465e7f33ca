import Localizer.Proofs.Frame
import Localizer.Proofs.Table.Update
import Localizer.Table.Tool

/-!
# Lines that are not changed

Tables are written back line by line: a line whose key has no new value is written as it was read.
Reading has made a line feed of every carriage return before, though, so a line is kept in all its
bytes exactly if it does not end in one (`lines_of_writeBackAll`). What the other tables of a run
and the log have to do with it is a matter of where they lie.
-/

namespace Localizer.Table

open List Text Encoding Job Glyph Cp932 Localizer.Path

variable {current? : Option Text} {t b l file : Text} {bs : Bytes} {us : Updates}

/-! ### The lines of a source -/

/-- A line of a table as it stands in its file. -/
structure SourceLine where
  sec? : Option Text
  text : Text
  ending : Text

/-- The lines with their breaks, each with its section. -/
def sourceLines : Option Text → List (Text × Text) → List SourceLine
  | _, [] => []
  | current?, (l, b) :: ls => ⟨current?, l, b⟩ :: sourceLines (nextSection current? l) ls

/-- The key in a line: what stands before the first equals sign, if no tab comes before that. -/
def lineKey? (l : Text) : Option Text :=
  (splitOnce? '=' (l.takeWhile (· ≠ '\t'))).map fun x => trim x.1

variable {s : SourceLine} {updates : Table}

namespace SourceLine

/-- The section and the key of a line. A line that begins a section has none, nor has one outside of
a section. -/
def key? (s : SourceLine) : Option (Text × Text) :=
  if (sectionName? s.text).isSome then none
  else s.sec?.bind fun sec => if sec = [] then none else (lineKey? s.text).map fun key => (sec, key)

def newValue? (updates : Table) (s : SourceLine) : Option Text :=
  s.key?.bind fun x => value? updates x.1 x.2

def bytes (s : SourceLine) : Bytes := encodeLossy (s.text ++ s.ending)

def rewritten (updates : Table) (s : SourceLine) : Text :=
  if (sectionName? s.text).isSome then s.text ++ unifyNewlines s.ending
  else updateLine (changesIn updates s.sec?) s.text (unifyNewlines s.ending)

def newBytes (updates : Table) (s : SourceLine) : Bytes := encodeLossy (s.rewritten updates)

end SourceLine

theorem flatMap_sourceLines (current? : Option Text) (ps : List (Text × Text)) :
    ((sourceLines current? ps).flatMap fun s => s.text ++ s.ending) = glue ps := by
  induction ps generalizing current? with
  | nil => rfl
  | cons p ps ih => rw [sourceLines, flatMap_cons, ih, glue_cons, append_assoc]

theorem mem_of_mem_sourceLines {ps : List (Text × Text)} (h : s ∈ sourceLines current? ps) :
    (s.text, s.ending) ∈ ps := by
  induction ps generalizing current? with
  | nil => cases h
  | cons p ps ih =>
    rcases mem_cons.mp h with rfl | h
    · exact mem_cons_self
    · exact mem_cons_of_mem _ (ih h)

/-! ### Breaks -/

def IsEnding (b : Text) : Prop := b = [] ∨ b = ['\r', '\n'] ∨ ∃ c, isLineBreak c = true ∧ b = [c]

theorem isEnding_of_mem_sourceLines (h : s ∈ sourceLines current? (linesWithBreaks t)) :
    IsEnding s.ending :=
  (wellCut_linesWithBreaks t).1.ending_of_mem (mem_of_mem_sourceLines h)

theorem IsEnding.isLineBreak_unified (h : IsEnding b) :
    ∀ c ∈ unifyNewlines b, isLineBreak c = true := by
  rcases h with rfl | rfl | ⟨c, hc, rfl⟩
  · exact nofun
  · exact fun c hc => mem_singleton.mp hc ▸ rfl
  · rw [unifyNewlines_singleton]
    intro d hd
    rw [mem_singleton.mp hd]
    split
    · rfl
    · exact hc

theorem encodeLossy_append (t u : Text) : encodeLossy (t ++ u) = encodeLossy t ++ encodeLossy u :=
  flatMap_append

/-- **A break keeps its bytes exactly if it has no carriage return.** -/
theorem IsEnding.encodeLossy_unified_iff (h : IsEnding b) :
    encodeLossy (unifyNewlines b) = encodeLossy b ↔ '\r' ∉ b := by
  rcases h with rfl | rfl | ⟨c, -, rfl⟩
  · simp [unifyNewlines]
  · exact ⟨fun h => absurd h (by decide), fun h => absurd mem_cons_self h⟩
  · rw [unifyNewlines_singleton, mem_singleton]
    by_cases hc : c = '\r'
    · rw [if_pos hc, hc]
      exact ⟨fun h => absurd h (by decide), fun h => absurd rfl h⟩
    · rw [if_neg hc]
      exact ⟨fun _ h => hc h.symm, fun _ => rfl⟩

/-! ### Lines as they are written back -/

theorem splitOnce?_append_break (hb : ∀ c ∈ b, isLineBreak c = true) :
    (splitOnce? '=' ((l ++ b).takeWhile (· ≠ '\t'))).map (trim ·.1) = lineKey? l := by
  have hbreak : ∀ c : Char, isLineBreak c = false → c ∉ b := fun c hc hmem => by
    simp [hb c hmem] at hc
  by_cases htab : '\t' ∈ l
  · obtain ⟨x, y, rfl, hx⟩ := eq_append_cons_of_mem htab
    rw [lineKey?, append_assoc, cons_append, takeWhile_before_tab hx, takeWhile_before_tab hx]
  · have hall : ∀ {u : Text}, '\t' ∉ u → u.takeWhile (fun c => decide (c ≠ '\t')) = u := fun hu =>
      takeWhile_eq_self_iff.mpr fun c hc => decide_eq_true fun h => hu (h ▸ hc)
    have htab' : '\t' ∉ l ++ b := by
      rw [mem_append, not_or]
      exact ⟨htab, hbreak '\t' rfl⟩
    rw [lineKey?, hall htab, hall htab']
    rcases splitOnce?_cases '=' l with ⟨hnot, hnone⟩ | ⟨x, y, hx, rfl, hsome⟩
    · have hnot' : '=' ∉ l ++ b := by
        rw [mem_append, not_or]
        exact ⟨hnot, hbreak '=' rfl⟩
      rw [hnone, splitOnce?_of_not_mem hnot']
    · rw [hsome, append_assoc, cons_append, splitOnce?_append_sep hx]
      rfl

theorem updateLine_of_get?_eq_none {changes : List (Text × Text)}
    (hb : ∀ c ∈ b, isLineBreak c = true)
    (h : ∀ key, lineKey? l = some key → Assoc.get? key changes = none) :
    updateLine changes l b = l ++ b := by
  obtain ⟨line, feed, hcut, hkey⟩ : ∃ line feed, cutFeed l b = (line, feed) ∧
      (splitOnce? '=' (line.takeWhile (· ≠ '\t'))).map (trim ·.1) = lineKey? l := by
    unfold cutFeed
    split
    · exact ⟨l, b, rfl, rfl⟩
    · exact ⟨l ++ b, [], rfl, splitOnce?_append_break hb⟩
  rw [← hkey] at h
  simp only [updateLine, hcut, span_eq_takeWhile_dropWhile]
  cases hsplit : splitOnce? '=' (line.takeWhile fun c => decide (c ≠ '\t')) with
  | none => rfl
  | some x =>
    rw [hsplit] at h
    have hnone := h (trim x.1) rfl
    dsimp only
    rw [hnone]

theorem get?_changesIn (updates : Table) {sec : Text} (hsec : sec ≠ []) (key : Text) :
    Assoc.get? key (changesIn updates (some sec)) = value? updates sec key := by
  cases sec with
  | nil => exact absurd rfl hsec
  | cons c sec => rfl

/-- **A line whose key has no new value is written as it was read.** -/
theorem rewritten_of_newValue?_eq_none (hending : IsEnding s.ending)
    (h : s.newValue? updates = none) : s.rewritten updates = s.text ++ unifyNewlines s.ending := by
  unfold SourceLine.rewritten
  split
  · rfl
  · next hsection =>
    refine updateLine_of_get?_eq_none hending.isLineBreak_unified fun key hkey => ?_
    rw [SourceLine.newValue?, SourceLine.key?, if_neg hsection, hkey] at h
    cases hsec : s.sec? with
    | none => rfl
    | some sec =>
      by_cases hempty : sec = []
      · rw [hempty]
        rfl
      · rw [hsec, Option.bind_some, if_neg hempty] at h
        rw [get?_changesIn updates hempty]
        exact h

theorem update_unifyNewlines (t : Text) (updates : Table) :
    update (unifyNewlines t) updates =
      (sourceLines none (linesWithBreaks t)).flatMap (SourceLine.rewritten updates) := by
  have key : ∀ (ps : List (Text × Text)) (current? : Option Text), (∀ p ∈ ps, IsEnding p.2) →
      updateLines updates current? (ps.map fun p => (p.1, unifyNewlines p.2)) =
        (sourceLines current? ps).flatMap (SourceLine.rewritten updates) := by
    intro ps
    induction ps with
    | nil => exact fun _ _ => rfl
    | cons p ps ih =>
      intro current? hps
      rw [forall_mem_cons] at hps
      obtain ⟨hp, hps⟩ := hps
      have hblank : ∀ c ∈ unifyNewlines p.2, isBlank c = true := fun c hc =>
        isBlank_of_isLineBreak (hp.isLineBreak_unified c hc)
      rw [map_cons, updateLines, sectionName?_congr (body_append_blanks p.1 hblank), sourceLines, flatMap_cons,
        SourceLine.rewritten, nextSection]
      cases sectionName? p.1 with
      | some name => exact congrArg (p.1 ++ unifyNewlines p.2 ++ ·) (ih (some name) hps)
      | none => exact congrArg (updateLine (changesIn updates current?) p.1 (unifyNewlines p.2) ++ ·) (ih current? hps)
  rw [update, linesWithBreaks_unifyNewlines]
  exact key _ none fun p hp => (wellCut_linesWithBreaks t).1.ending_of_mem hp

theorem lineKey?_of_setting? {x : Text × Text} (h : setting? l = some x) :
    lineKey? l = none ∨ lineKey? l = some x.1 := by
  obtain ⟨a, y, ha, hcontent, rfl⟩ := content_of_setting? h
  obtain ⟨z, hz⟩ := content_isPrefix l
  rw [hcontent, append_assoc, cons_append] at hz
  rw [← hz, lineKey?]
  by_cases htab : '\t' ∈ a
  · rw [splitOnce?_of_not_mem (not_mem_before_tab ha htab _)]
    exact .inl rfl
  · rw [(cut_at_tab htab _).1, splitOnce?_append_sep ha]
    exact .inr rfl

theorem newValue?_eq_none_of_settingIn? {x : Setting} (h : settingIn? s.sec? s.text = some x)
    (hvalue : value? updates x.sec x.key = none) : s.newValue? updates = none := by
  unfold SourceLine.newValue? SourceLine.key?
  split
  · rfl
  · unfold settingIn? at h
    split at h
    · cases h
    · cases h
    · next sec hsec hcurrent =>
      obtain ⟨y, hy, rfl⟩ := Option.map_eq_some_iff.mp h
      rw [hcurrent, Option.bind_some, if_neg hsec]
      rcases lineKey?_of_setting? hy with hkey | hkey
      · rw [hkey]
        rfl
      · rwa [hkey]

/-- What becomes of the lines of a table when it is written back: its source `bs` and its copy `out`
consist of the same lines, and a line whose key has no new value keeps its text. It keeps all its
bytes exactly if there is no carriage return in its break. A line that sets a key, as the table is
read, counts as changed only if that key has a new value. -/
structure KeepsLines (updates : Table) (t : Text) (bs out : Bytes) : Prop where
  source : bs = (sourceLines none (linesWithBreaks t)).flatMap SourceLine.bytes
  copy : out = (sourceLines none (linesWithBreaks t)).flatMap (SourceLine.newBytes updates)
  kept : ∀ s ∈ sourceLines none (linesWithBreaks t), s.newValue? updates = none →
    s.newBytes updates = encodeLossy s.text ++ encodeLossy (unifyNewlines s.ending) ∧
      (s.newBytes updates = s.bytes ↔ '\r' ∉ s.ending)
  changed : ∀ s ∈ sourceLines none (linesWithBreaks t), ∀ x, settingIn? s.sec? s.text = some x →
    s.newValue? updates ≠ none → value? updates x.sec x.key ≠ none

theorem flatMap_encodeLossy {α : Type} (f : α → Text) (xs : List α) :
    (xs.flatMap fun x => encodeLossy (f x)) = encodeLossy (xs.flatMap f) := by
  induction xs with
  | nil => rfl
  | cons x xs ih => rw [flatMap_cons, flatMap_cons, encodeLossy_append, ih]

/-- **A table that comes back from its bytes keeps its lines.** -/
theorem keepsLines (h : encode? t = some bs) (updates : Table) :
    KeepsLines updates t bs (encodeLossy (update (unifyNewlines t) updates)) where
  source := by
    unfold SourceLine.bytes
    rw [flatMap_encodeLossy, flatMap_sourceLines, (wellCut_linesWithBreaks t).2, encodeLossy_of_encode? h]
  copy := by
    unfold SourceLine.newBytes
    rw [flatMap_encodeLossy, update_unifyNewlines]
  kept s hs hnone := by
    have hending := isEnding_of_mem_sourceLines hs
    have hnew : s.newBytes updates = encodeLossy s.text ++ encodeLossy (unifyNewlines s.ending) := by
      rw [SourceLine.newBytes, rewritten_of_newValue?_eq_none hending hnone, encodeLossy_append]
    refine ⟨hnew, ?_⟩
    rw [hnew, SourceLine.bytes, encodeLossy_append, append_cancel_left_eq]
    exact hending.encodeLossy_unified_iff
  changed s _ x hx hnew hnone := hnew (newValue?_eq_none_of_settingIn? hx hnone)

/-! ### The tables of a run -/

/-- The new values that a document gives. -/
def gatherAll (document : Text) (hasRules : Bool) : Job Updates := do
  let doc ← Job.ofExcept (Json.read (← readUtf8 document))
  let conv ← converter defaultRules
  let convert := if hasRules then Document.convert conv else withoutRules
  gather convert (← Job.ofExcept (Document.items doc)) []

/-- Writes the new values of one table after another. -/
def writeAll (input output : Text) : Updates → Job Unit
  | [] => pure ()
  | (file, updates) :: us => do
    writeOne input output file updates
    writeAll input output us

theorem forIn_writeOne (input output : Text) (us : Updates) :
    (forIn us PUnit.unit fun x _ => do
      writeOne input output x.1 x.2
      pure (ForInStep.yield PUnit.unit)) = writeAll input output us := by
  induction us with
  | nil => rfl
  | cons x us ih =>
    rw [forIn_cons, writeAll, bind_assoc]
    simp only [pure_bind]
    rw [ih]

theorem writeBackAll_eq (input output document : Text) (hasRules : Bool) :
    writeBackAll input output document hasRules =
      gatherAll document hasRules >>= writeAll input output := by
  have hloop := funext (forIn_writeOne input output)
  unfold writeBackAll gatherAll
  simp [← hloop]

variable {input output : Text} {ws ws' : Workspace}

theorem yields_writeAll_append {us' : Updates} : Yields (writeAll input output (us ++ us')) ws () ws' ↔
      ∃ ws₁, Yields (writeAll input output us) ws () ws₁ ∧ Yields (writeAll input output us') ws₁ () ws' := by
  induction us generalizing ws with
  | nil => simp [writeAll, yields_pure]
  | cons x us ih =>
    rw [cons_append, writeAll, writeAll, yields_bind]
    simp only [yields_bind, ih]
    constructor
    · rintro ⟨_, ws₁, hone, ws₂, hus, hus'⟩
      exact ⟨ws₂, ⟨(), ws₁, hone, hus⟩, hus'⟩
    · rintro ⟨ws₂, ⟨_, ws₁, hone, hus⟩, hus'⟩
      exact ⟨(), ws₁, hone, ws₂, hus, hus'⟩

theorem eq_of_yields_encodeLogging (h : Yields (encodeLogging t) ws bs ws') : bs = encodeLossy t := by
  obtain ⟨_, _, -, hend⟩ := yields_bind.mp h
  exact (yields_pure.mp hend).1.symm

theorem yields_encodeLogging (h : (t.all fun c => (encodeChar? c).isSome) = true) (ws : Workspace) :
    Yields (encodeLogging t) ws (encodeLossy t) ws := by
  have hnone : (t.filter fun c => (encodeChar? c).isNone) = [] := by
    rw [filter_eq_nil_iff]
    intro c hc
    have hsome := all_eq_true.mp h c hc
    simpa [Option.isSome_iff_ne_none] using hsome
  unfold encodeLogging
  rw [hnone, inAscendingOrder, eraseDups_nil, mergeSort_nil]
  exact .bind (.pure rfl) (.pure rfl)

theorem of_yields_writeOne (h : Yields (writeOne input output file updates) ws () ws') :
    ∃ ws₁ ws₂ bs t, Yields (makeDirs (parent (child output file))) ws () ws₁ ∧
      Yields (readBytes (child input file)) ws₁ bs ws₁ ∧ decode? bs = some t ∧
      Yields (encodeLogging (update (unifyNewlines t) updates)) ws₁
        (encodeLossy (update (unifyNewlines t) updates)) ws₂ ∧
      Yields (writeBytes (child output file) (encodeLossy (update (unifyNewlines t) updates))) ws₂ () ws' := by
  obtain ⟨_, ws₁, hdirs, hread⟩ := yields_bind.mp h
  obtain ⟨_, _, htext, hwrite⟩ := yields_bind.mp hread
  obtain ⟨bs, _, hbytes, hdecode⟩ := yields_bind.mp htext
  obtain ⟨t, _, hrequire, hunify⟩ := yields_bind.mp hdecode
  obtain ⟨ht, rfl⟩ := yields_require.mp hrequire
  obtain ⟨rfl, rfl⟩ := yields_pure.mp hunify
  obtain ⟨_, -, -, rfl⟩ := yields_readBytes.mp hbytes
  obtain ⟨out, ws₂, hencode, hend⟩ := yields_bind.mp hwrite
  obtain rfl := eq_of_yields_encodeLogging hencode
  exact ⟨_, ws₂, bs, t, hdirs, hbytes, ht, hencode, hend⟩

/-! ### What the tables of a run leave alone -/

/-- The places that a run writes to: those of the tables and that of the log. -/
def writtenPlaces (output : Text) (ws : Workspace) (files : List Text) : Set Place :=
  {q | q = logPlace ws ∨ ∃ file ∈ files, ws.site (child output file) = .ok q}

theorem writtenPlaces_mono {places : Set Place} (h : ws.SameBut places ws') {files files' : List Text}
    (hfiles : files ⊆ files') : writtenPlaces output ws files ⊆ writtenPlaces output ws' files' := by
  rintro q (rfl | ⟨file, hfile, hq⟩)
  · exact .inl (by rw [logPlace, logPlace, h.cwd])
  · exact .inr ⟨file, hfiles hfile, h.site hq⟩

theorem sameBut_writeBytes {p : Text} (h : Yields (writeBytes p bs) ws () ws') :
    ws.SameBut {q | ws'.site p = .ok q} ws' := by
  obtain ⟨q, hsite, -, -, rfl⟩ := yields_writeFile.mp h
  have hsame := Workspace.sameBut_setFile ws q { data := bs }
  exact hsame.mono (Set.singleton_subset_iff.mpr (hsame.site hsite))

theorem sameBut_writeOne (h : Yields (writeOne input output file updates) ws () ws') :
    ws.SameBut (writtenPlaces output ws' [file]) ws' := by
  obtain ⟨ws₁, ws₂, bs, t, hdirs, -, -, hencode, hwrite⟩ := of_yields_writeOne h
  have hdirs := (changesOnly_makeDirs _).of_yields hdirs rfl
  have hencode := (changesOnly_encodeLogging ws₁ _).of_yields hencode rfl
  have hwrite := sameBut_writeBytes hwrite
  have hlog : logPlace ws₁ = logPlace ws' := by
    rw [logPlace, logPlace, hwrite.cwd, hencode.cwd]
  refine (hdirs.mono (Set.empty_subset _)).trans ((hencode.mono ?_).trans (hwrite.mono ?_))
  · rintro q rfl
    exact .inl hlog
  · exact fun q hq => .inr ⟨file, mem_singleton_self file, hq⟩

/-- **Tables that are written leave all files alone but their own and the log.** -/
theorem sameBut_writeAll (h : Yields (writeAll input output us) ws () ws') :
    ws.SameBut (writtenPlaces output ws' (us.map Prod.fst)) ws' := by
  induction us generalizing ws with
  | nil =>
    obtain ⟨-, rfl⟩ := yields_pure.mp h
    exact .refl _ _
  | cons x us ih =>
    obtain ⟨_, ws₁, hone, hus⟩ := yields_bind.mp h
    have hus := ih hus
    have hone := sameBut_writeOne hone
    refine (hone.mono (writtenPlaces_mono hus ?_)).trans (hus.mono (writtenPlaces_mono (.refl ∅ _) ?_))
    · exact fun f hf => mem_singleton.mp hf ▸ mem_cons_self
    · exact subset_cons_self _ _

theorem sameBut_gatherAll {document : Text} {hasRules : Bool}
    (h : Yields (gatherAll document hasRules) ws us ws') : ws.SameBut {logPlace ws} ws' := by
  have hgather : ∀ (convert : Json → Job Text), (∀ v, ChangesOnly ws.cwd {logPlace ws} (convert v)) →
      ∀ vs us, ChangesOnly ws.cwd {logPlace ws} (gather convert vs us) := by
    intro convert hconvert vs
    induction vs with
    | nil => exact .pure
    | cons v vs ih =>
      intro us
      refine (changesOnly_ofExcept _).bind fun t => .ite ?_ (ih us)
      exact (hconvert t).bind fun value => (changesOnly_ofExcept _).bind fun x => ih _
  have hwithout : ∀ v, ChangesOnly ws.cwd {logPlace ws} (withoutRules v) := by
    refine fun v => (changesOnly_ofExcept _).bind fun vs => ?_
    cases vs with
    | nil => exact .pure _
    | cons w vs => exact changesOnly_throw _
  suffices hall : ChangesOnly ws.cwd {logPlace ws} (gatherAll document hasRules) from hall.of_yields h rfl
  refine (changesOnly_readUtf8 document).bind fun t => (changesOnly_ofExcept _).bind fun doc => ?_
  refine (changesOnly_converter _).bind fun conv => (changesOnly_ofExcept _).bind fun vs => ?_
  refine hgather _ (fun v => ?_) vs []
  split
  · exact changesOnly_convert ws conv v
  · exact hwithout v

/-- **What becomes of the lines of tables that are written back.** Take any run that ends well, and
any table of it, at the time when its source is read and when it has been written. If the source
comes back from its bytes, then each line whose key has no new value is kept but for carriage
returns at its end, which have become line feeds. So it keeps all its bytes exactly if it does not
end in one. The source is that from before the run, unless it is the log or was written by the run;
and the table is as it was written after the run, unless it is the log or was written again. -/
theorem lines_of_writeBackAll {input output document : Text} {hasRules : Bool} {ws ws' : Workspace}
    (h : Job.Yields (writeBackAll input output document hasRules) ws () ws') :
    ∃ us ws₀, Job.Yields (gatherAll document hasRules) ws us ws₀ ∧
      ∀ before file updates after, us = before ++ (file, updates) :: after →
        ∃ ws₁ ws₂ bs t out,
          Job.Yields (do
            writeAll input output before
            Job.makeDirs (Path.parent (Path.child output file))) ws₀ () ws₁ ∧
          Job.Yields (Job.readBytes (Path.child input file)) ws₁ bs ws₁ ∧ Cp932.decode? bs = some t ∧
          Job.Yields (writeAll input output (before ++ [(file, updates)])) ws₀ () ws₂ ∧
          Job.Yields (Job.readBytes (Path.child output file)) ws₂ out ws₂ ∧
          (Cp932.encode? t = some bs → KeepsLines updates t bs out) ∧
          ((∀ q ∈ writtenPlaces output ws' (before.map Prod.fst), ws'.site (Path.child input file) ≠ .ok q) →
            ∀ bs₀, Job.Yields (Job.readBytes (Path.child input file)) ws bs₀ ws → bs₀ = bs) ∧
          ((∀ q ∈ writtenPlaces output ws' (after.map Prod.fst), ws'.site (Path.child output file) ≠ .ok q) →
            Job.Yields (Job.readBytes (Path.child output file)) ws' out ws') := by
  rw [writeBackAll_eq] at h
  obtain ⟨us, ws₀, hgather, hall⟩ := yields_bind.mp h
  refine ⟨us, ws₀, hgather, ?_⟩
  rintro before file updates after rfl
  obtain ⟨ws₁, hbefore, hrest⟩ := yields_writeAll_append.mp hall
  obtain ⟨_, ws₂, hone, hafter⟩ := yields_bind.mp hrest
  obtain ⟨ws₃, ws₄, bs, t, hdirs, hread, ht, hencode, hwrite⟩ := of_yields_writeOne hone
  have hbytes := readBytes_of_writeBytes hwrite
  refine ⟨ws₃, ws₂, bs, t, _, hbefore.bind hdirs, hread, ht, ?_, hbytes, fun hback => keepsLines hback updates,
    fun hapart bs₀ hbs₀ => ?_, fun hapart => ?_⟩
  · exact yields_writeAll_append.mpr ⟨ws₁, hbefore, hone.bind (.pure rfl)⟩
  · have hgather := sameBut_gatherAll hgather
    have hbefore := sameBut_writeAll hbefore
    have hdirs := (changesOnly_makeDirs _).of_yields hdirs rfl
    have hencode := (changesOnly_encodeLogging ws₃ _).of_yields hencode rfl
    -- what matters of the rest of the run is that it left the directories
    have hend : ws₃.SameBut Set.univ ws' := (hencode.mono (Set.subset_univ _)).trans
      (((sameBut_writeBytes hwrite).mono (Set.subset_univ _)).trans ((sameBut_writeAll hafter).mono (Set.subset_univ _)))
    have hlater : ws₁.SameBut Set.univ ws' := (hdirs.mono (Set.subset_univ _)).trans hend
    have hlog : {logPlace ws} ⊆ writtenPlaces output ws' (before.map Prod.fst) := by
      rw [Set.singleton_subset_iff]
      exact .inl (by rw [logPlace, logPlace, hlater.cwd, hbefore.cwd, hgather.cwd])
    have hstart : ws.SameBut (writtenPlaces output ws' (before.map Prod.fst)) ws₃ :=
      (hgather.mono hlog).trans ((hbefore.mono (writtenPlaces_mono hlater (List.Subset.refl _))).trans
        (hdirs.mono (Set.empty_subset _)))
    obtain ⟨f₀, hf₀, rfl, -⟩ := yields_readBytes.mp hbs₀
    obtain ⟨f, hf, rfl, -⟩ := yields_readBytes.mp hread
    have hsame := hstart.read hf₀ fun q hq hsite => hapart q hq (hend.site hsite)
    rw [Except.ok.inj (hsame.symm.trans hf)]
  · obtain ⟨f, hf, hout, -⟩ := yields_readBytes.mp hbytes
    exact yields_readBytes.mpr ⟨f, (sameBut_writeAll hafter).read hf hapart, hout, rfl⟩

/-! ### A run over one table -/

/-- A document with a new value for the key `k` in the section `S` of `a.tbl`. -/
def oneValue : Text := "[\x7b\"key\":\"a.tbl[S]k\",\"translation\":\"w\"\x7d]"

/-- The new values of that document. -/
def oneUpdate : Table := [("S", [("k", "w")])]

/-- A workspace with a table, that document and a font without a glyph table. -/
def tableDesk (source : Bytes) : Workspace where
  cwd := "/w"
  files := [(["w", "font.tbl"], { data := [] }), (["w", "in", "a.tbl"], { data := source }),
    (["w", "t.json"], { data := Utf8.encode oneValue })]
  dirs := [["w", "in"], ["w", "out"]]

theorem gatherAll_tableDesk (source : Bytes) :
    Yields (gatherAll "t.json" true) (tableDesk source) [("a.tbl", oneUpdate)] (tableDesk source) := by
  have hdocument : Yields (readUtf8 "t.json") (tableDesk source) oneValue (tableDesk source) := .pure (by decide)
  have hjson : Json.read oneValue = .ok (.arr [.obj [("key", .str "a.tbl[S]k"), ("translation", .str "w")]]) := rfl
  have hfont : Yields (converter defaultRules) (tableDesk source) ⟨defaultRules, []⟩
      (tableDesk source) := rfl
  have hconvert : Yields (Converter.run ⟨defaultRules, []⟩ "w") (tableDesk source) "w" (tableDesk source) :=
    (drawsAll_of_readTable (t := []) rfl).yields_run (by decide) _
  refine hdocument.bind ?_
  rw [hjson]
  refine .bind (.ofExcept rfl) (hfont.bind ?_)
  refine .bind (.ofExcept rfl) ?_
  rw [if_pos rfl]
  refine .bind (.ofExcept rfl) ?_
  rw [if_pos (by decide)]
  refine hconvert.bind ?_
  exact .bind (.ofExcept rfl) (.pure rfl)

theorem writeBackAll_tableDesk {source : Bytes} {new : Text} (ht : decode? source = some t)
    (hnew : update (unifyNewlines t) oneUpdate = new)
    (hcode : (new.all fun c => (encodeChar? c).isSome) = true) :
    Yields (writeBackAll "in" "out" "t.json" true) (tableDesk source) ()
      ((tableDesk source).setFile ["w", "out", "a.tbl"] { data := encodeLossy new }) := by
  have hbytes : Yields (readBytes (child "in" "a.tbl")) (tableDesk source) source (tableDesk source) :=
    yields_readBytes.mpr ⟨_, rfl, rfl, rfl⟩
  have hread : Yields (readCp932 (child "in" "a.tbl")) (tableDesk source) (unifyNewlines t) (tableDesk source) :=
    hbytes.bind (.bind (.require ht) (.pure rfl))
  have hdirs : Yields (makeDirs (parent (child "out" "a.tbl"))) (tableDesk source) () (tableDesk source) := rfl
  rw [writeBackAll_eq]
  refine (gatherAll_tableDesk source).bind ?_
  refine yields_bind.mpr ⟨(), _, ?_, .pure rfl⟩
  refine hdirs.bind (hread.bind ?_)
  rw [hnew]
  refine (yields_encodeLogging hcode _).bind ?_
  exact yields_writeFile.mpr ⟨["w", "out", "a.tbl"], rfl, rfl, by decide, rfl⟩

/-- A table whose lines end in line feeds. -/
def fedSource : Bytes := [0x5B, 0x53, 0x5D, 0x0A, 0x6B, 0x3D, 0x76, 0x0A, 0x6A, 0x3D, 0x31, 0x0A]

/-- The lines of that table are kept, and the value of the first key is changed. -/
theorem lines_of_writeBackAll_fed :
    ∃ ws', Job.Yields (writeBackAll "in" "out" "t.json" true) (tableDesk fedSource) () ws' ∧
      ∃ t out, Cp932.decode? fedSource = some t ∧ Job.Yields (Job.readBytes (Path.child "out" "a.tbl")) ws' out ws' ∧
        KeepsLines oneUpdate t fedSource out ∧
        (⟨some "S", "j=1", "\n"⟩ : SourceLine).newBytes oneUpdate = [0x6A, 0x3D, 0x31, 0x0A] := by
  have ht : Cp932.decode? fedSource = some "[S]\nk=v\nj=1\n" := by decide
  have hback : Cp932.encode? "[S]\nk=v\nj=1\n" = some fedSource := by decide
  have hrun := writeBackAll_tableDesk ht (by decide : _ = ("[S]\nk=w\nj=1\n" : Text)) (by decide)
  obtain ⟨us, ws₀, hgather, hlines⟩ := lines_of_writeBackAll hrun
  obtain ⟨rfl, rfl⟩ := (gatherAll_tableDesk fedSource).unique hgather
  obtain ⟨ws₁, ws₂, bs, t, out, -, -, hdecode, -, -, hkeeps, hsource, htarget⟩ := hlines [] "a.tbl" oneUpdate [] rfl
  have hlog : ∀ p q, q ∈ writtenPlaces "out" p [] → q = logPlace p := by
    rintro p q (hq | ⟨_, hmem, -⟩)
    · exact hq
    · cases hmem
  obtain rfl : fedSource = bs := by
    refine hsource (fun q hq => ?_) fedSource (yields_readBytes.mpr ⟨_, rfl, rfl, rfl⟩)
    rw [hlog _ q hq]
    decide
  obtain rfl : t = "[S]\nk=v\nj=1\n" := Option.some.inj (hdecode.symm.trans ht)
  have hfinal := htarget fun q hq => by
    rw [hlog _ q hq]
    decide
  refine ⟨_, hrun, _, out, ht, hfinal, hkeeps hback, ?_⟩
  have hkept := (hkeeps hback).kept ⟨some "S", "j=1", "\n"⟩ (List.mem_of_getElem? (i := 2) rfl) (by decide)
  exact hkept.1.trans (by decide)

/-- The same table with lines that end in pairs of carriage returns and line feeds. -/
def returnedSource : Bytes :=
  [0x5B, 0x53, 0x5D, 0x0D, 0x0A, 0x6B, 0x3D, 0x76, 0x0D, 0x0A, 0x6A, 0x3D, 0x31, 0x0D, 0x0A]

/-- **Carriage returns are lost, also in lines that are not changed.** -/
theorem writeBackAll_returned :
    Cp932.decode? returnedSource = some "[S]\r\nk=v\r\nj=1\r\n" ∧
      Cp932.encode? "[S]\r\nk=v\r\nj=1\r\n" = some returnedSource ∧
      ∃ ws', Job.Yields (writeBackAll "in" "out" "t.json" true) (tableDesk returnedSource) () ws' ∧
        Job.Yields (Job.readBytes (Path.child "out" "a.tbl")) ws'
          [0x5B, 0x53, 0x5D, 0x0A, 0x6B, 0x3D, 0x77, 0x0A, 0x6A, 0x3D, 0x31, 0x0A] ws' := by
  have ht : Cp932.decode? returnedSource = some "[S]\r\nk=v\r\nj=1\r\n" := by decide
  have hrun := writeBackAll_tableDesk ht (by decide : _ = ("[S]\nk=w\nj=1\n" : Text)) (by decide)
  exact ⟨ht, by decide, _, hrun, yields_readBytes.mpr ⟨_, rfl, by decide, rfl⟩⟩

end Localizer.Table
