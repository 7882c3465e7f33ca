import Localizer.Document
import Localizer.Proofs.Directory
import Localizer.Proofs.Glyph.Conversion

/-!
# What a job leaves alone

A job that writes files leaves all other files as they are, and every directory: a path that led
somewhere leads to the same place afterwards. `SameBut` says so of two workspaces, and `ChangesOnly`
of a job, whether it ends well or not. Making directories changes no file, because a directory is
only made where there is nothing, below directories that there are. Conversion and encoding change
the log only.
-/

namespace Localizer

open List Text Encoding Job Workspace

variable {p : Text} {q : Place}
variable {names : List Text} {r : Place}

namespace Workspace

/-- A workspace after some work that left all directories, and all files but those at `places`. -/
structure SameBut (places : Set Place) (ws ws' : Workspace) : Prop where
  cwd : ws'.cwd = ws.cwd
  dirs : ∀ q, ws.hasDir q = true → ws'.hasDir q = true
  files : ∀ q, q ∉ places → ∀ f, ws.node? q = some (.file f) → ws'.node? q = some (.file f)

variable {places places' : Set Place} {ws ws' ws'' : Workspace}

theorem SameBut.refl (places : Set Place) (ws : Workspace) : SameBut places ws ws :=
  ⟨rfl, fun _ h => h, fun _ _ _ h => h⟩

section

variable (h : SameBut places ws ws')
include h

theorem SameBut.trans (h' : SameBut places ws' ws'') : SameBut places ws ws'' where
  cwd := h'.cwd.trans h.cwd
  dirs q hq := h'.dirs q (h.dirs q hq)
  files q hq f hf := h'.files q hq f (h.files q hq f hf)

theorem SameBut.mono (hsub : places ⊆ places') : SameBut places' ws ws' where
  cwd := h.cwd
  dirs := h.dirs
  files q hq := h.files q fun hmem => hq (hsub hmem)

theorem SameBut.locate (hq : ws.locate p names = .ok q) : ws'.locate p names = .ok q :=
  locate_of_hasDir hq h.cwd h.dirs

theorem SameBut.site (hq : ws.site p = .ok q) : ws'.site p = .ok q :=
  h.locate hq

/-- **A file that lies elsewhere is read as before.** -/
theorem SameBut.read {f : File} (hread : ws.read p = .ok f)
    (hplace : ∀ q ∈ places, ws'.site p ≠ .ok q) : ws'.read p = .ok f := by
  obtain ⟨q, hq, hnode⟩ := locate_of_read hread
  have hq' := h.locate hq
  have hsite : ws'.site p = .ok q := (site_eq_locate (getLast?_of_read hread)).trans hq'
  exact read_of_locate hq' (h.files q (fun hmem => hplace q hmem hsite) f hnode)

end

/-! ### Files -/

theorem lookup_map_of_ne (f : File) (files : List (Place × File)) (h : r ≠ q) :
    (files.map fun x => if x.1 = q then (x.1, f) else (x.1, x.2)).lookup r = files.lookup r := by
  induction files with
  | nil => rfl
  | cons x files ih =>
    rw [map_cons, lookup_cons]
    by_cases hx : x.1 = q
    · have hr : (r == x.1) = false := beq_false_of_ne (hx ▸ h)
      rw [if_pos hx, lookup_cons, hr]
      exact ih
    · rw [if_neg hx, lookup_cons, ih]

theorem lookup_setFile_of_ne (ws : Workspace) (f : File) (h : r ≠ q) :
    (ws.setFile q f).files.lookup r = ws.files.lookup r := by
  unfold setFile
  split
  · exact lookup_map_of_ne f ws.files h
  · rw [lookup_append, lookup_cons, beq_false_of_ne h, lookup_nil, Option.or_none]

theorem sameBut_setFile (ws : Workspace) (q : Place) (f : File) :
    SameBut {q} ws (ws.setFile q f) where
  cwd := rfl
  dirs _ h := h
  files r hr g hg := by
    rwa [node?, hasDir_setFile, lookup_setFile_of_ne ws f hr]

/-! ## Directories -/

theorem hasDir_above_follow (h : ws.follow q names = .ok r)
    (hq : ∀ s, s <+: q → s ≠ q → ws.hasDir s = true) :
    ∀ s, s <+: r → s ≠ r → ws.hasDir s = true := by
  induction names generalizing q with
  | nil =>
    cases h
    exact hq
  | cons n names ih =>
    obtain ⟨hdir, s, hs, hrest⟩ := follow_cons.mp h
    have hall : ∀ s, s <+: q → ws.hasDir s = true := fun s hs => by
      by_cases hsq : s = q
      · exact hsq ▸ hdir
      · exact hq s hs hsq
    refine ih hrest fun r hr hne => ?_
    unfold enter? at hs
    split_ifs at hs
    · exact hall r (Option.some.inj hs ▸ hr)
    · exact hall r <| (Option.some.inj hs ▸ hr).trans <| dropLast_prefix q
    · cases hs
      rcases prefix_concat_iff.mp hr with rfl | hr
      · exact absurd rfl hne
      · exact hall r hr

theorem hasDir_above_site (h : ws.site p = .ok q) : ∀ s, s <+: q → s ≠ q → ws.hasDir s = true := by
  have hcwd : ∀ s, s <+: Path.parts ws.cwd → ws.hasDir s = true := fun s hs => by
    rw [hasDir, isPrefixOf_iff_prefix.mpr hs, Bool.or_true]
  unfold site locate at h
  split_ifs at h
  · exact hasDir_above_follow h fun s hs hne => absurd (prefix_nil.mp hs) hne
  · exact hasDir_above_follow h fun s hs _ => hcwd s hs

theorem hasDir_addDir : (ws.addDir q).hasDir r = true ↔ ws.hasDir r = true ∨ r ∈ ancestors q := by
  have hnew : (ws.addDir q).hasDir r = (ws.hasDir r || ((ancestors q).filter fun r => !ws.hasDir r).contains r) := by
    unfold addDir
    conv_lhs => rw [hasDir]
    rw [hasDir, contains_append]
    cases ws.dirs.contains r with
    | true => rfl
    | false => rw [Bool.false_or, Bool.false_or, Bool.or_comm]
  rw [hnew, Bool.or_eq_true, contains_iff_mem, mem_filter]
  by_cases hdir : ws.hasDir r = true
  · simp [hdir]
  · simp [hdir]

theorem sameBut_addDir (hnode : ws.node? q = none)
    (habove : ∀ s, s <+: q → s ≠ q → ws.hasDir s = true) : SameBut ∅ ws (ws.addDir q) where
  cwd := rfl
  dirs _ h := hasDir_addDir.mpr (.inl h)
  files r _ f hf := by
    have hdir : ¬ ws.hasDir r = true := fun hdir => by
      simp [node?_of_hasDir hdir] at hf
    have hnew : ¬ (ws.addDir q).hasDir r = true := fun hnew => by
      rcases hasDir_addDir.mp hnew with hold | hmade
      · exact hdir hold
      · obtain ⟨i, -, rfl⟩ := mem_map.mp hmade
        by_cases hlast : q.take (i + 1) = q
        · rw [hlast, hnode] at hf
          cases hf
        · have habove' : q.take (i + 1) <+: q := take_prefix (i + 1) q
          exact hdir (habove _ habove' hlast)
    rw [node?, if_neg hdir] at hf
    rwa [node?, if_neg hnew]

end Workspace

namespace Job

variable {α β : Type} {cwd : Text} {places places' : Set Place}

def Leaves (cwd : Text) (places : Set Place) (ws : Workspace) (_ : Option Fault) (ws' : Workspace) :
    Prop :=
  ws.cwd = cwd → ws.SameBut places ws'

instance : Chains (Leaves cwd places) where
  refl ws _ := .refl places ws
  trans h h' hws := (h hws).trans (h' ((h hws).cwd.trans hws))

/-- In the current directory `cwd` a job leaves all directories, and all files but those at
`places`, even if it fails. -/
def ChangesOnly (cwd : Text) (places : Set Place) (x : Job α) : Prop := Runs (Leaves cwd places) x

theorem ChangesOnly.mono {x : Job α} (h : ChangesOnly cwd places x) (hsub : places ⊆ places') :
    ChangesOnly cwd places' x :=
  fun ws hws => (h ws hws).mono hsub

theorem changesOnly_throw (f : Fault) : ChangesOnly cwd places (throw f : Job α) :=
  .throw fun ws _ => .refl places ws

theorem changesOnly_ofExcept (x : Except Fault α) : ChangesOnly cwd places (ofExcept x) :=
  .ofExcept fun _ _ ws _ => .refl places ws

theorem changesOnly_require (f : Fault) (x : Option α) : ChangesOnly cwd places (require f x) :=
  .require fun ws _ => .refl places ws

/-! ### Files and directories -/

theorem changesOnly_readBytes (p : Text) : ChangesOnly cwd places (readBytes p) :=
  Runs.get.bind fun _ => (changesOnly_ofExcept _).bind .pure

theorem changesOnly_readUtf8 (p : Text) : ChangesOnly cwd places (readUtf8 p) :=
  (changesOnly_readBytes p).bind fun _ => (changesOnly_require _ _).bind .pure

theorem changesOnly_readUtf16 (p : Text) : ChangesOnly cwd places (readUtf16 p) := by
  refine (changesOnly_readBytes p).bind fun bs => ?_
  split
  · exact (changesOnly_require _ _).bind .pure
  · exact (changesOnly_require _ _).bind .pure
  · exact .pure _
  · exact changesOnly_throw _

theorem changesOnly_writeFile (f : File)
    (h : ∀ ws : Workspace, ws.cwd = cwd → ∀ q, ws.site p = .ok q → q ∈ places) :
    ChangesOnly cwd places (writeFile p f) := by
  refine runs_site (fun _ ws _ => .refl places ws) fun ws q hq hws => ?_
  split
  · exact .refl places ws
  · exact (sameBut_setFile ws q f).mono (Set.singleton_subset_iff.mpr (h ws hws q hq))

theorem changesOnly_makeDir (p : Text) : ChangesOnly cwd ∅ (makeDir p) := by
  refine runs_site (fun _ ws _ => .refl ∅ ws) fun ws q hq hws => ?_
  cases hnode : ws.node? q with
  | some n => exact .refl ∅ ws
  | none => exact sameBut_addDir hnode (hasDir_above_site hq)

/-- **Making directories changes no file.** -/
theorem changesOnly_makeDirs (p : Text) : ChangesOnly cwd ∅ (makeDirs p) :=
  runs_makeDirs changesOnly_makeDir (fun _ _ ws _ => .refl ∅ ws) p

end Job

/-! ### The log -/

namespace Glyph

variable (ws : Workspace)

theorem runs_logItems {R : Workspace → Option Fault → Workspace → Prop} [Chains R]
    (hfault : ∀ f ws, R ws (some f) ws) (hdirs : Runs R (makeDirs (Path.parent logPath)))
    (hwrite : ∀ f, Runs R (writeFile logPath f)) (items : List Text) :
    Runs R (logItems items logPath) := by
  have hthere : Runs R (isThere logPath) := by
    refine Runs.get.bind fun _ => ?_
    split
    · exact .pure _
    · exact .throw (hfault _)
    · exact .pure _
  have hread : Runs R (lines <$> readUtf8Lossy logPath) := by
    exact ((Runs.get.bind fun _ => (Runs.ofExcept fun f _ => hfault f).bind fun _ => .pure _).bind
      fun _ => .pure _).bind fun _ => .pure _
  have happend : ∀ ts, Runs R (appendUtf8 logPath ts) := fun ts =>
    (Runs.get.bind fun _ => hwrite _).bind fun _ => .ite (.throw (hfault _)) (.pure _)
  have hlog : ∀ known : List Text, Runs R (do
      let new := (items.eraseDups).filter fun i => !i.isEmpty && !known.contains i
      if !new.isEmpty then
        makeDirs (Path.parent logPath)
        appendUtf8 logPath (new.map fun i => i ++ ['\n'])) := fun known =>
    .ite (hdirs.bind fun _ => happend _) (.pure ())
  refine hthere.bind fun there => ?_
  cases there with
  | true => exact hread.bind hlog
  | false => exact hlog []

theorem changesOnly_logItems (items : List Text) :
    ChangesOnly ws.cwd {logPlace ws} (logItems items logPath) := by
  have hwrite : ∀ f, ChangesOnly ws.cwd {logPlace ws} (writeFile logPath f) := fun f => by
    refine changesOnly_writeFile f fun ws' hws q hq => ?_
    rw [site_logPath, logPlace, hws] at hq
    exact (Except.ok.inj hq).symm
  exact runs_logItems (fun _ ws _ => .refl _ ws)
    ((changesOnly_makeDirs _).mono (Set.empty_subset _)) hwrite items

theorem changesOnly_logChars (cs : List Char) : ChangesOnly ws.cwd {logPlace ws} (logChars cs) :=
  .ite (.pure ()) (changesOnly_logItems ws _)

theorem changesOnly_mapText (table : GlyphTable) (t : Text) :
    ChangesOnly ws.cwd {logPlace ws} (mapText table t) :=
  (changesOnly_logChars ws _).bind .pure

/-- **Conversion changes the log only.** -/
theorem changesOnly_convert (conv : Converter) (v : Json) :
    ChangesOnly ws.cwd {logPlace ws} (Document.convert conv v) := by
  unfold Document.convert
  split
  · exact changesOnly_mapText ws _ _
  · exact (changesOnly_ofExcept _).bind fun _ => changesOnly_mapText ws _ _

theorem changesOnly_encodeLogging (t : Text) : ChangesOnly ws.cwd {logPlace ws} (encodeLogging t) :=
  (changesOnly_logChars ws _).bind .pure

theorem changesOnly_converter {cwd : Text} {places : Set Place} (rules : Rules) :
    ChangesOnly cwd places (converter rules) :=
  Runs.get.bind fun _ =>
    ((changesOnly_readUtf16 _).bind fun _ => changesOnly_ofExcept _).bind fun _ => .pure _

end Glyph

/-! ## Logs

While texts are made ready, remarks on them are added to three logs in the current directory. A job
that writes to these logs only leaves everything else as it was (`SameButLogs`), directories
included, and nothing is made beside them. So it does not matter for the rest of the work in which
order remarks are made. -/

open Localizer.Path

variable {ws : Workspace}

def logNames : List Text := [Glyph.logPath, "wrap.log", "overflow.log"]

namespace Workspace

/-- Where a file of the current directory is. -/
def here (ws : Workspace) (name : Text) : Place := parts ws.cwd ++ [name]

theorem site_name (ws : Workspace) {n : Text} (hname : IsName n) (haddress : Addressable n)
    (hsize : (Utf8.encode n).length ≤ maxNameSize) : ws.site n = .ok (ws.here n) := by
  have hlast : n.getLast? ≠ some '/' := fun h => hname.no_slash (mem_of_getLast? h)
  have hstart : ws.startOf n = parts ws.cwd := by
    rw [startOf, if_neg]
    rw [isAbsolute, decide_eq_true_eq]
    exact fun h => hname.no_slash (mem_of_head? h)
  rw [site_eq_locate hlast, locate_eq_ok_iff, splitOn_of_not_mem hname.no_slash, hstart, follow_name hname]
  exact ⟨haddress, hasDir_of_node? (node?_cwd ws), hsize, rfl⟩

theorem site_log (ws : Workspace) (hp : p ∈ logNames) : ws.site p = .ok (ws.here p) := by
  have hpart : ∀ p ∈ logNames, p ≠ [] ∧ p ≠ ("." : Text) ∧ '/' ∉ p ∧ p ≠ (".." : Text) ∧ '\x00' ∉ p := by decide
  have hchars : (logNames.all fun p => p.all (fun c => !isHalf c) && (Utf8.encode p).length.ble 255) = true := by decide
  obtain ⟨hne, hhere, hslash, habove, hnul⟩ := hpart p hp
  obtain ⟨hhalf, hsize⟩ := Bool.and_eq_true_iff.mp (all_eq_true.mp hchars p hp)
  have hsize : (Utf8.encode p).length ≤ maxNameSize := Nat.ble_eq.mp hsize
  have hlimit : maxNameSize < pathSizeLimit := by decide
  refine ws.site_name ⟨⟨hne, hhere, hslash⟩, habove⟩ ⟨hnul, hne, fun c hc => ?_, Nat.lt_of_le_of_lt hsize hlimit⟩ hsize
  simpa using all_eq_true.mp hhalf c hc

/-- A workspace after some work that may have written to the logs, and has changed nothing else. -/
structure SameButLogs (ws ws' : Workspace) : Prop where
  cwd : ws'.cwd = ws.cwd
  dirs : ws'.dirs = ws.dirs
  files : ∀ q, (∀ p ∈ logNames, q ≠ ws.here p) → ws'.files.lookup q = ws.files.lookup q

variable {ws' ws'' : Workspace}

theorem SameButLogs.refl (ws : Workspace) : SameButLogs ws ws := ⟨rfl, rfl, fun _ _ => rfl⟩

theorem SameButLogs.here (h : SameButLogs ws ws') (p : Text) : ws'.here p = ws.here p := by
  rw [Workspace.here, h.cwd]
  rfl

theorem SameButLogs.hasDir (h : SameButLogs ws ws') (q : Place) : ws'.hasDir q = ws.hasDir q := by
  rw [Workspace.hasDir, h.dirs, h.cwd]
  rfl

theorem SameButLogs.trans (h : SameButLogs ws ws') (h' : SameButLogs ws' ws'') :
    SameButLogs ws ws'' where
  cwd := h'.cwd.trans h.cwd
  dirs := h'.dirs.trans h.dirs
  files q hq := (h'.files q fun p hp => h.here p ▸ hq p hp).trans (h.files q hq)

theorem sameButLogs_setFile (ws : Workspace) (hp : p ∈ logNames) (f : File) :
    SameButLogs ws (ws.setFile (ws.here p) f) where
  cwd := rfl
  dirs := rfl
  files _ hq := lookup_setFile_of_ne ws f (hq p hp)

/-- No directory stands in the place of a log. -/
def LogsReady (ws : Workspace) : Prop := ∀ p ∈ logNames, ws.hasDir (ws.here p) = false

theorem LogsReady.of_sameButLogs (h : LogsReady ws) (hsame : SameButLogs ws ws') :
    LogsReady ws' := by
  intro p hp
  rw [hsame.hasDir, hsame.here]
  exact h p hp

end Workspace

namespace Job

open Workspace

variable {α β : Type}

/-- A job that writes to the logs only, even if it fails. -/
def LogsOnly (x : Job α) : Prop := Runs (fun ws _ ws' => SameButLogs ws ws') x

instance : Chains fun ws _ ws' => SameButLogs ws ws' := ⟨.refl, .trans⟩

theorem logsOnly_throw (f : Fault) : LogsOnly (throw f : Job α) := .throw .refl

theorem logsOnly_writeFile (hp : p ∈ logNames) (f : File) : LogsOnly (writeFile p f) := by
  refine runs_site (fun _ => .refl) fun ws q hq => ?_
  obtain rfl : ws.here p = q := Except.ok.inj ((ws.site_log hp).symm.trans hq)
  split
  · exact .refl ws
  · exact sameButLogs_setFile ws hp f

theorem logsOnly_appendUtf8 (hp : p ∈ logNames) (ts : List Text) : LogsOnly (appendUtf8 p ts) :=
  (Runs.get.bind fun _ => logsOnly_writeFile hp _).bind fun _ => .ite (logsOnly_throw _) (.pure _)

theorem run_appendUtf8_log (h : LogsReady ws) (hp : p ∈ logNames) (ts : List Text) :
    ∃ ws', (appendUtf8 p ts).run.run ws =
      (if ts.any fun t => t.any isHalf then .error .unencodable else .ok (), ws') := by
  have hslash : ∀ p ∈ logNames, p.getLast? ≠ some '/' := by decide
  have happend : ∀ bs, ∃ ws', Yields (appendBytes p bs) ws () ws' := by
    intro bs
    exact ⟨_, .bind .get (yields_writeFile.mpr ⟨_, ws.site_log hp, h p hp, hslash p hp, rfl⟩)⟩
  obtain ⟨ws', hws'⟩ := happend (Utf8.encode (ts.takeWhile fun t => !t.any isHalf).flatten)
  refine ⟨ws', ?_⟩
  unfold appendUtf8
  rw [hws'.run_bind]
  split
  · rfl
  · rfl

end Job

namespace Glyph

theorem logPath_mem_logNames : logPath ∈ logNames := mem_cons_self

theorem isDir_logPath (h : ws.LogsReady) : ws.isDir logPath = false := by
  have hdir : ws.hasDir (logPlace ws) = false := h logPath logPath_mem_logNames
  rw [Workspace.isDir, look_logPath, Workspace.node?, hdir]
  cases ws.files.lookup (logPlace ws) with
  | none
  | some f => rfl

theorem logsOnly_logItems (items : List Text) : Job.LogsOnly (logItems items logPath) := by
  refine runs_logItems (fun _ => .refl) (fun ws => ?_) (Job.logsOnly_writeFile logPath_mem_logNames) items
  have hparent : parent logPath = "." := by decide
  rw [hparent, yields_makeDirs_here ws]
  exact .refl ws

/-- **Conversion writes to the log only.** -/
theorem logsOnly_mapText (table : GlyphTable) (t : Text) : Job.LogsOnly (mapText table t) :=
  (Job.Runs.ite (.pure ()) (logsOnly_logItems _)).bind fun _ => .pure _

end Glyph

end Localizer
