import Localizer.Proofs.Dialogue.Reextraction
import Localizer.Proofs.Dialogue.Wrap

/-!
# The order of translations

Translations are written back in the order in which a document has them, and two of them may be for
one line. What is written depends on the translations only and not on their order: the texts are
collected by line (`Collects`), and a script with texts replaced is known by what each line is
replaced with. Which fault it is that ends the work does depend on the order, if there are
translations that cannot be made ready or whose line cannot be named.
-/

namespace Localizer.Job

open List Job

/-! ### Jobs that do not give up -/

/-- A job that is never given up with a message; it may end in other faults. -/
def NeverAbandons {α : Type} (x : Job α) : Prop := Runs (fun _ f _ => ∀ m, f ≠ some (.abandoned m)) x

instance : Chains fun _ f _ => ∀ m, f ≠ some (.abandoned m) := ⟨fun _ _ => by simp, fun _ h => h⟩

theorem neverAbandons_site (ws : Workspace) (p : Text) : NeverAbandons (ofExcept (ws.site p)) := by
  have hfollow : ∀ ns q m, ws.follow q ns ≠ .error (.abandoned m) := by
    intro ns
    induction ns with
    | nil => exact nofun
    | cons n ns ih =>
      intro q m h
      unfold Workspace.follow at h
      split at h
      · cases h
      · cases h
      · split_ifs at h
        · exact ih _ m h
        · exact ih _ m h
        · cases h
        · exact ih _ m h
  refine .ofExcept fun f hf ws' m hm => ?_
  cases hm
  unfold Workspace.site Workspace.locate at hf
  split at hf
  · cases hf
  · split at hf
    · cases hf
    · split at hf
      · cases hf
      · split at hf
        · cases hf
        · exact hfollow _ _ m hf

theorem neverAbandons_writeUtf8 (p t : Text) : NeverAbandons (writeUtf8 p t) := by
  have hwrite : ∀ f, NeverAbandons (writeFile p f) := fun f =>
    Runs.get.bind fun ws => (neverAbandons_site ws p).bind fun q => .ite (.throw fun _ _ => by simp) (.set fun _ _ => by simp)
  exact (hwrite _).bind fun _ => .ite (.throw fun _ _ => by simp) (.pure _)

theorem neverAbandons_makeDirs (p : Text) : NeverAbandons (makeDirs p) := by
  have hmake : ∀ p, NeverAbandons (makeDir p) := fun p =>
    Runs.get.bind fun ws => (neverAbandons_site ws p).bind fun q => .ite (.throw fun _ _ => by simp) (.set fun _ _ => by simp)
  exact runs_makeDirs hmake (fun f ⟨_, _, hf⟩ _ => hf) p

end Localizer.Job

namespace Localizer.Dialogue

open List Text Encoding Job

/-! ### Collecting -/

section

variable (loc : Locale) (conv : Glyph.Converter)

/-- Two of the translations give different texts for one line. -/
def Conflicting (trs : List Translation) : Prop :=
  ∃ a ∈ trs, ∃ b ∈ trs, a.line = b.line ∧ finalText loc conv a.text ≠ finalText loc conv b.text

def Collects (trs : List Translation) (found : List (Nat × Text)) : Prop :=
  ∀ n s, Assoc.get? n found = some s ↔ ∃ tr ∈ trs, tr.line = n ∧ finalText loc conv tr.text = s

def conflictMessage (script line key : Text) : Text :=
  "同一行号出现多个不同翻译：script=" ++ script ++ " line=" ++ line ++ " key=" ++ key

variable {loc conv} {trs trs' : List Translation} {tr : Translation} {found : List (Nat × Text)}

theorem collects_nil : Collects loc conv [] [] := by
  intro n s
  simp [Assoc.get?]

theorem not_conflicting_nil : ¬ Conflicting loc conv [] := by
  rintro ⟨a, ha, -⟩
  exact absurd ha not_mem_nil

theorem Conflicting.mono (h : Conflicting loc conv trs) (hsub : trs ⊆ trs') :
    Conflicting loc conv trs' := by
  obtain ⟨a, ha, b, hb, hline, htext⟩ := h
  exact ⟨a, hsub ha, b, hsub hb, hline, htext⟩

theorem conflicting_perm (h : trs.Perm trs') :
    Conflicting loc conv trs ↔ Conflicting loc conv trs' :=
  ⟨fun hc => hc.mono h.subset, fun hc => hc.mono h.symm.subset⟩

theorem Collects.perm (h : Collects loc conv trs found) (hperm : trs.Perm trs') :
    Collects loc conv trs' found := by
  intro n s
  rw [h n s]
  simp only [hperm.mem_iff]

theorem Collects.all_get?_iff (h : Collects loc conv trs found) (hnot : ¬ Conflicting loc conv trs) :
    (Assoc.get? tr.line found).all (· = finalText loc conv tr.text) = true ↔ ¬ Conflicting loc conv (trs ++ [tr]) := by
  have hfound : ∀ s, Assoc.get? tr.line found = some s ↔ ∃ a ∈ trs, a.line = tr.line ∧ finalText loc conv a.text = s := h tr.line
  simp only [Option.all_eq_true, decide_eq_true_eq, hfound]
  constructor
  · rintro hagree ⟨a, ha, b, hb, hline, htext⟩
    have hsame : ∀ c ∈ trs, c.line = tr.line → finalText loc conv c.text = finalText loc conv tr.text := fun c hc hc' =>
      hagree _ ⟨c, hc, hc', rfl⟩
    simp only [mem_append, mem_singleton] at ha hb
    rcases ha with ha | rfl
    · rcases hb with hb | rfl
      · exact hnot ⟨a, ha, b, hb, hline, htext⟩
      · exact htext (hsame a ha hline)
    · rcases hb with hb | rfl
      · exact htext (hsame b hb hline.symm).symm
      · exact htext rfl
  · rintro hagree s ⟨a, ha, hline, rfl⟩
    by_contra htext
    exact hagree ⟨a, mem_append_left _ ha, tr, by simp, hline, htext⟩

theorem Collects.insert (h : Collects loc conv trs found)
    (hnot : ¬ Conflicting loc conv (trs ++ [tr])) :
    Collects loc conv (trs ++ [tr]) (Assoc.insert tr.line (finalText loc conv tr.text) found) := by
  intro n s
  rw [Assoc.get?_insert]
  split
  · next hline =>
    constructor
    · intro hs
      exact ⟨tr, by simp, hline, Option.some.inj hs⟩
    · rintro ⟨a, ha, haline, rfl⟩
      by_contra htext
      exact hnot ⟨tr, by simp, a, ha, hline.trans haline.symm, fun heq => htext (congrArg some heq)⟩
  · next hline =>
    rw [h n s]
    constructor
    · rintro ⟨a, ha, haline, htext⟩
      exact ⟨a, mem_append_left _ ha, haline, htext⟩
    · rintro ⟨a, ha, haline, htext⟩
      rcases mem_append.mp ha with ha | ha
      · exact ⟨a, ha, haline, htext⟩
      · obtain rfl := mem_singleton.mp ha
        exact absurd haline hline

end

/-! ### The run of a collection -/

section

variable (loc : Locale) (conv : Glyph.Converter) (script : Text)

/-- The fault by which a conflict is reported: a message with the line of the translation, or word
of the digits of a line that cannot be named. -/
def conflictFault (tr : Translation) : Fault :=
  (decimalInt? tr.line).elim .tooManyDigits fun line => .abandoned (conflictMessage script line tr.key)

/-- The translations are the cause of the fault `f`: two of them are in conflict and the fault says
so, or there is one that cannot be made ready. -/
def Explains (trs : List Translation) (f : Fault) : Prop :=
  (Conflicting loc conv trs ∧ ∃ tr ∈ trs, f = conflictFault script tr) ∨
  ((f = .badNumeral ∨ f = .unencodable) ∧ ∃ tr ∈ trs, ¬ CanBeFinished loc conv tr)

theorem logsOnly_collect (trs : List Translation) (found : List (Nat × Text)) :
    LogsOnly (collect loc conv script trs found) := by
  induction trs generalizing found with
  | nil => exact .pure found
  | cons tr trs ih =>
    refine (logsOnly_finish loc conv script tr).bind fun t => .ite (ih _) ?_
    exact (logsOnly_lineText _ tr).bind fun line => logsOnly_throw _

variable {src : Text} {table : GlyphTable} {rules : Glyph.Rules} {seen trs : List Translation} {found : List (Nat × Text)}
  {ws : Workspace}

/-- **How a collection ends.** It ends well, with the texts of all translations, exactly if all of
them can be made ready and no two of them are in conflict. Otherwise the translations are the cause
of its fault. -/
theorem collect_cases (htable : Glyph.readTable src = .ok table) (hrules : ∀ r ∈ rules, Whole r.2) (hscript : Whole script)
    (hready : ws.LogsReady) (htexts : ∀ tr ∈ trs, Whole tr.text) (hfound : Collects loc ⟨rules, table⟩ seen found)
    (hseen : ¬ Conflicting loc ⟨rules, table⟩ seen) :
    ((∀ tr ∈ trs, CanBeFinished loc ⟨rules, table⟩ tr) ∧ ¬ Conflicting loc ⟨rules, table⟩ (seen ++ trs) ∧
      ∃ found' ws', Yields (collect loc ⟨rules, table⟩ script trs found) ws found' ws' ∧
        Collects loc ⟨rules, table⟩ (seen ++ trs) found') ∨
    ¬ ((∀ tr ∈ trs, CanBeFinished loc ⟨rules, table⟩ tr) ∧ ¬ Conflicting loc ⟨rules, table⟩ (seen ++ trs)) ∧
      ∃ f ws', (collect loc ⟨rules, table⟩ script trs found).run.run ws = (.error f, ws') ∧
        Explains loc ⟨rules, table⟩ script (seen ++ trs) f := by
  -- The translations that are left; those before them are seen, and their texts are found.
  induction trs generalizing seen found ws with
  | nil =>
    rw [append_nil]
    exact .inl ⟨nofun, hseen, found, ws, rfl, hfound⟩
  | cons tr trs ih =>
    have htr : tr ∈ seen ++ tr :: trs := mem_append_right _ mem_cons_self
    have hsplit : seen ++ tr :: trs = seen ++ [tr] ++ trs := by simp
    rcases finish_cases loc script htable hrules hready hscript (htexts tr mem_cons_self) with
      ⟨hcan, ws₁, hfinish⟩ | ⟨hcannot, f, ws₁, hfails, hf⟩
    · have hready₁ : ws₁.LogsReady := hready.of_sameButLogs ((logsOnly_finish _ _ _ _).of_yields hfinish)
      simp only [Yields, collect, hfinish.run_bind]
      by_cases hconflict : Conflicting loc ⟨rules, table⟩ (seen ++ [tr])
      · have hall : Conflicting loc ⟨rules, table⟩ (seen ++ tr :: trs) :=
          hconflict.mono (hsplit ▸ subset_append_left _ _)
        refine .inr ⟨fun h => h.2 hall, ?_⟩
        rw [if_neg fun h => (hfound.all_get?_iff hseen).mp h hconflict]
        refine ⟨conflictFault script tr, ws₁, ?_, .inl ⟨hall, tr, htr, rfl⟩⟩
        rw [run_bind, lineText, conflictFault]
        cases decimalInt? tr.line with
        | none => rfl
        | some line => rfl
      · rw [if_pos ((hfound.all_get?_iff hseen).mpr hconflict), hsplit]
        have hrest := ih hready₁ (fun tr' htr' => htexts tr' (mem_cons_of_mem _ htr')) (hfound.insert hconflict) hconflict
        simp only [forall_mem_cons, hcan, true_and]
        exact hrest
    · refine .inr ⟨fun h => hcannot (h.1 tr mem_cons_self), f, ws₁, ?_, .inr ⟨hf, tr, htr, hcannot⟩⟩
      rw [collect, run_bind, hfails]

end

/-! ### The text that is written -/

section

variable {found found' : List (Nat × Text)}

/-- What is written depends on what is found for each line only. -/
theorem writeBack_congr (h : ∀ n, Assoc.get? n found = Assoc.get? n found') (t : Text) :
    writeBack found t = writeBack found' t := by
  have hline : ∀ number? line, replaceLine found number? line = replaceLine found' number? line := by
    intro number? line
    rw [replaceLine, replaceLine, funext h]
  have hlines : ∀ c ls, replaceLines found c ls = replaceLines found' c ls := by
    intro c ls
    induction ls generalizing c with
    | nil => rfl
    | cons l ls ih => rw [replaceLines_cons, replaceLines_cons, hline, ih]
  exact hlines {} _

theorem Collects.get?_eq {loc : Locale} {conv : Glyph.Converter} {trs : List Translation}
    (h : Collects loc conv trs found) (h' : Collects loc conv trs found') (n : Nat) :
    Assoc.get? n found = Assoc.get? n found' := by
  refine Option.ext fun s => ?_
  rw [h n s, h' n s]

end

/-! ### The names of scripts -/

theorem whole_of_readScript {input script t : Text} {ws ws' : Workspace}
    (h : Yields (readScript (Path.child input script)) ws t ws') : Whole script := by
  obtain ⟨bs, hbytes, -⟩ := yields_readScript.mp h
  obtain ⟨f, hread, -⟩ := yields_readBytes.mp hbytes
  obtain ⟨q, hlocate, -⟩ := Workspace.locate_of_read hread
  intro c hc
  rw [← Bool.not_eq_true]
  intro hhalf
  have hbig := toNat_of_isHalf hhalf
  have hne : ∀ d : Char, d.toNat < 0x10000 → c ≠ d := by
    rintro d hd rfl
    exact absurd hbig (Nat.not_le_of_lt hd)
  have hmem : c ∈ Path.child input script := Path.mem_child hc (hne '/' (by decide)) (hne '.' (by decide))
  exact absurd (hhalf.symm.trans ((Workspace.locate_eq_ok_iff.mp hlocate).1.no_half c hmem)) (by decide)

/-! ### Writing back in any order -/

def putScript (output script text : Text) : Job Unit := do
  makeDirs (Path.parent (Path.child output script))
  writeUtf8 (Path.child output script) text

theorem neverAbandons_putScript (output script text : Text) :
    NeverAbandons (putScript output script text) :=
  (neverAbandons_makeDirs _).bind fun _ => neverAbandons_writeUtf8 _ _

/-- Script and document are there to be read, and the logs can be written. -/
structure Prepared (input script items t : Text) (vs : List Json) (ws : Workspace) : Prop where
  script : Yields (readScript (Path.child input script)) ws t ws
  document : ∃ d, Yields (readUtf8Lossy items) ws d ws ∧ Json.read d = .ok (.arr vs)
  logs : ws.LogsReady

/-- The job `x` gives up because of a conflict and names one of the translations. -/
def EndsInConflict (script : Text) (trs : List Translation) (x : Job Unit) (ws : Workspace) : Prop :=
  ∃ tr ∈ trs, ∃ line ws', decimalInt? tr.line = some line ∧
    x.run.run ws = (.error (.abandoned (conflictMessage script line tr.key)), ws')

/-- The job `x` gives up because of a conflict on a line whose number has too many digits to be
named. -/
def EndsUnnamed (trs : List Translation) (x : Job Unit) (ws : Workspace) : Prop :=
  ∃ tr ∈ trs, ∃ ws', decimalInt? tr.line = none ∧ x.run.run ws = (.error .tooManyDigits, ws')

/-- What comes of the job `x` that writes the translations back, if it is `text` that they make of
the script. -/
structure Outcome (loc : Locale) (conv : Glyph.Converter) (output script text : Text)
    (trs : List Translation) (x : Job Unit) (ws : Workspace) : Prop where
  /-- If there is no conflict, the text is all that is written beside the logs. -/
  writes : (∀ tr ∈ trs, CanBeFinished loc conv tr) → ¬ Conflicting loc conv trs →
    ∃ ws', ws.SameButLogs ws' ∧ x.run.run ws = (putScript output script text).run.run ws'
  written : ∀ ws', Yields x ws () ws' → Yields (readScript (Path.child output script)) ws' text ws'
  stops : ¬ ((∀ tr ∈ trs, CanBeFinished loc conv tr) ∧ ¬ Conflicting loc conv trs) →
    ∃ f ws', ws.SameButLogs ws' ∧ x.run.run ws = (.error f, ws')
  conflicting : EndsInConflict script trs x ws → Conflicting loc conv trs
  /-- A conflict is named, if all translations can be made ready, unless the number of its line has
  too many digits. -/
  conflict : (∀ tr ∈ trs, CanBeFinished loc conv tr) → Conflicting loc conv trs →
    EndsInConflict script trs x ws ∨ EndsUnnamed trs x ws

section

variable {loc : Locale} {conv : Glyph.Converter} {input output script items t text : Text} {vs : List Json} {ws : Workspace}
  {trs trs' : List Translation}

theorem Outcome.perm {x : Job Unit} (h : Outcome loc conv output script text trs x ws)
    (hperm : trs.Perm trs') : Outcome loc conv output script text trs' x ws := by
  obtain ⟨hwrites, hwritten, hstops, hconflicting, hconflict⟩ := h
  have hends : EndsInConflict script trs x ws ↔ EndsInConflict script trs' x ws := by
    simp only [EndsInConflict, hperm.mem_iff]
  have hunnamed : EndsUnnamed trs x ws ↔ EndsUnnamed trs' x ws := by
    simp only [EndsUnnamed, hperm.mem_iff]
  simp only [hperm.mem_iff, conflicting_perm hperm, hends, hunnamed] at hwrites hstops hconflicting hconflict
  exact ⟨hwrites, hwritten, hstops, hconflicting, hconflict⟩

theorem run_writeBackOne (loc : Locale) (conv : Glyph.Converter) (output : Text)
    (h : Prepared input script items t vs ws) :
    (writeBackOne loc conv input output script items).run.run ws =
      (collect loc conv script (translations (.arr vs)) [] >>= fun found =>
        putScript output script (writeBack found t)).run.run ws := by
  obtain ⟨d, hdocument, hread⟩ := h.document
  have hparse : Yields (Job.ofExcept (Json.read d)) ws (.arr vs) ws := .ofExcept hread
  unfold writeBackOne
  rw [h.script.run_bind, hdocument.run_bind, hparse.run_bind]
  rfl

variable {src : Text} {table : GlyphTable} {rules : Glyph.Rules}

theorem outcome_writeBackOne (htable : Glyph.readTable src = .ok table) (hrules : ∀ r ∈ rules, Whole r.2)
    (h : Prepared input script items t vs ws) (htexts : ∀ tr ∈ translations (.arr vs), Whole tr.text)
    (htext : ∀ found, Collects loc ⟨rules, table⟩ (translations (.arr vs)) found → writeBack found t = text) :
    Outcome loc ⟨rules, table⟩ output script text (translations (.arr vs))
      (writeBackOne loc ⟨rules, table⟩ input output script items) ws := by
  have hrun := run_writeBackOne loc ⟨rules, table⟩ output h
  have hlogs := logsOnly_collect loc ⟨rules, table⟩ script (translations (.arr vs)) [] ws
  rcases collect_cases loc script htable hrules (whole_of_readScript h.script) h.logs htexts collects_nil
    not_conflicting_nil with ⟨hcan, hnot, found, ws₁, hcollect, hfound⟩ | ⟨hcannot, f, ws₁, hfails, hexplains⟩
  · rw [hcollect] at hlogs
    rw [hcollect.run_bind, htext found hfound] at hrun
    constructor
    case writes => exact fun _ _ => ⟨ws₁, hlogs, hrun⟩
    case written =>
      intro ws' hyields
      obtain ⟨_, ws₂, -, hwrite⟩ := yields_bind.mp (hrun.symm.trans hyields)
      exact readScript_of_writeUtf8 hwrite
    case stops => exact fun hfault => absurd ⟨hcan, hnot⟩ hfault
    case conflicting =>
      rintro ⟨tr, -, line, ws', -, hends⟩
      have hfault := neverAbandons_putScript output script text ws₁ (conflictMessage script line tr.key)
      rw [← hrun, hends] at hfault
      exact absurd rfl hfault
    case conflict => exact fun _ hconflict => absurd hconflict hnot
  · rw [hfails] at hlogs
    rw [run_bind, hfails] at hrun
    constructor
    case writes => exact fun hcan hnot => absurd ⟨hcan, hnot⟩ hcannot
    case written =>
      intro ws' hyields
      have hfault : Except.error f = Except.ok () := congrArg Prod.fst (hrun.symm.trans hyields)
      cases hfault
    case stops => exact fun _ => ⟨f, ws₁, hlogs, hrun⟩
    case conflicting =>
      rintro ⟨tr, -, line, ws', -, hends⟩
      obtain rfl : f = .abandoned (conflictMessage script line tr.key) :=
        Except.error.inj (congrArg Prod.fst (hrun.symm.trans hends))
      rcases hexplains with ⟨hconflict, -⟩ | ⟨hf | hf, -⟩
      · exact hconflict
      · cases hf
      · cases hf
    case conflict =>
      intro hcan hconflict
      rcases hexplains with ⟨-, tr, htr, rfl⟩ | ⟨-, tr, htr, hcannot⟩
      · rw [conflictFault] at hrun
        cases hline : decimalInt? tr.line with
        | none => exact .inr ⟨tr, htr, ws₁, hline, by rwa [hline] at hrun⟩
        | some line => exact .inl ⟨tr, htr, line, ws₁, hline, by rwa [hline] at hrun⟩
      · exact absurd (hcan tr htr) hcannot

theorem exists_writeBack_eq (loc : Locale) (conv : Glyph.Converter) (trs : List Translation)
    (t : Text) : ∃ text, ∀ found, Collects loc conv trs found → writeBack found t = text := by
  by_cases hex : ∃ found, Collects loc conv trs found
  · obtain ⟨found, hfound⟩ := hex
    exact ⟨writeBack found t, fun found' hfound' => writeBack_congr (hfound'.get?_eq hfound) t⟩
  · exact ⟨t, fun found hfound => absurd ⟨found, hfound⟩ hex⟩

theorem whole_defaultRules : ∀ r ∈ Glyph.defaultRules, Whole r.2 := by
  have hall : (Glyph.defaultRules.all fun r => !r.2.any isHalf) = true := by decide
  intro r hr
  have hr := all_eq_true.mp hall r hr
  exact whole_iff.mp (by simpa using hr)

/-- **The order of translations does not matter for what is written.** Of a document in any two
orders the same comes: there is one text, which depends on the texts of the lines only, that is
written in both, or nothing is written in both. It is written exactly if all translations can be
made ready and no two of them differ on one line. If two of them do, and all can be made ready, both
end in a conflict. -/
theorem outcome_writeBackOne_perm (loc : Locale) (output : Text) (htable : Glyph.readTable src = .ok table)
    {vs₁ vs₂ : List Json} {ws₁ ws₂ : Workspace} (hperm : vs₁.Perm vs₂) (htexts : ∀ tr ∈ translations (.arr vs₁), Whole tr.text)
    (h₁ : Prepared input script items t vs₁ ws₁) (h₂ : Prepared input script items t vs₂ ws₂) :
    ∃ text,
      (∀ found, Collects loc ⟨Glyph.defaultRules, table⟩ (translations (.arr vs₁)) found → writeBack found t = text) ∧
      Outcome loc ⟨Glyph.defaultRules, table⟩ output script text (translations (.arr vs₁))
        (writeBackOne loc ⟨Glyph.defaultRules, table⟩ input output script items) ws₁ ∧
      Outcome loc ⟨Glyph.defaultRules, table⟩ output script text (translations (.arr vs₁))
        (writeBackOne loc ⟨Glyph.defaultRules, table⟩ input output script items) ws₂ := by
  have htrs : (translations (.arr vs₁)).Perm (translations (.arr vs₂)) := hperm.filterMap _
  obtain ⟨text, htext⟩ := exists_writeBack_eq loc ⟨Glyph.defaultRules, table⟩ (translations (.arr vs₁)) t
  refine ⟨text, htext, outcome_writeBackOne htable whole_defaultRules h₁ htexts htext, ?_⟩
  refine (outcome_writeBackOne htable whole_defaultRules h₂ ?_ ?_).perm htrs.symm
  · exact fun tr htr => htexts tr (htrs.mem_iff.mpr htr)
  · exact fun found hfound => htext found (hfound.perm htrs.symm)

end

/-! ### Two orders of a document -/

def keyed (key text : Text) : Json := .obj [("key", .str key), ("translation", .str text)]

/-- An item as it is written, with key and translation as they stand between quotes. -/
def keyedText (key text : Text) : Text :=
  "\x7b\"key\":\"" ++ key ++ "\",\"translation\":\"" ++ text ++ "\"\x7d"

def helloDesk (items : List Text) : Workspace :=
  desk (oneText "hello") ("[".toList ++ join ",".toList items ++ "]".toList)

def writeHello : Job Unit := writeBackOne Locale.english ⟨Glyph.defaultRules, []⟩ "in" "out" "s" "j"

theorem prepared_helloDesk (items : List Text) {vs : List Json}
    (hread : Json.read (unifyNewlines ("[".toList ++ join ",".toList items ++ "]".toList)) = .ok (.arr vs)) :
    Prepared "in" "s" "j" (oneText "hello") vs (helloDesk items) where
  script := readScript_desk _ _
  document := ⟨_, readUtf8Lossy_desk _ _, by rw [Utf8.decodeLossy_encode]; exact hread⟩
  logs := show ∀ p ∈ logNames, (desk [] []).hasDir ((desk [] []).here p) = false by decide

def clash : List Text := [keyedText "2" "a", keyedText "2_2" "b"]

/-- Both orders of such translations end in a conflict. -/
theorem outcome_writeBackOne_perm_clash :
    EndsInConflict "s" [⟨"2", 2, "a"⟩, ⟨"2_2", 2, "b"⟩] writeHello (helloDesk clash) ∧
      EndsInConflict "s" [⟨"2", 2, "a"⟩, ⟨"2_2", 2, "b"⟩] writeHello (helloDesk clash.reverse) := by
  have htold : ∀ tr ∈ translations (.arr [keyed "2" "a", keyed "2_2" "b"]),
      tr.text.any isHalf = false ∧ tr.key.any isHalf = false ∧ (decimalInt? tr.line).isSome = true := by
    decide
  obtain ⟨text, -, hone, htwo⟩ := outcome_writeBackOne_perm Locale.english "out" (show Glyph.readTable [] = .ok [] from rfl)
    (List.Perm.swap (keyed "2_2" "b") (keyed "2" "a") []) (fun tr htr => whole_iff.mp (htold tr htr).1)
    (prepared_helloDesk clash rfl) (prepared_helloDesk clash.reverse rfl)
  have hcan := fun tr htr => canBeFinished_of_whole Locale.english ⟨Glyph.defaultRules, []⟩ (htold tr htr).2.2
    (whole_iff.mp (htold tr htr).2.1)
  have hnamed {ws : Workspace} : ¬ EndsUnnamed [⟨"2", 2, "a"⟩, ⟨"2_2", 2, "b"⟩] writeHello ws := by
    rintro ⟨tr, htr, -, hline, -⟩
    exact absurd (htold tr htr).2.2 (by simp [hline])
  have hconflict : Conflicting Locale.english ⟨Glyph.defaultRules, []⟩ [⟨"2", 2, "a"⟩, ⟨"2_2", 2, "b"⟩] :=
    ⟨_, List.mem_cons_self, _, List.mem_cons_of_mem _ List.mem_cons_self, rfl, by decide⟩
  exact ⟨(hone.conflict hcan hconflict).resolve_right hnamed, (htwo.conflict hcan hconflict).resolve_right hnamed⟩

def longText : Text := replicate 22 'a' ++ ' ' :: replicate 22 'b'

/-- An item with a key that cannot be logged. -/
def halved : Text := keyedText "1\\ud800" longText

/-- The fault depends on the order: behind a translation that cannot be logged a conflict is not
found. -/
theorem conflict_hidden_by_key :
    Whole longText ∧ (clash ++ [halved]).Perm (halved :: clash) ∧
    (writeHello.run.run (helloDesk (clash ++ [halved]))).1 = .error (.abandoned (conflictMessage "s" "2" "2_2")) ∧
    (writeHello.run.run (helloDesk (halved :: clash))).1 = .error .unencodable :=
  ⟨whole_iff.mp (by decide), List.perm_append_singleton halved clash, by decide +kernel, by decide +kernel⟩

end Localizer.Dialogue
