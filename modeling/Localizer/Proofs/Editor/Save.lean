import Localizer.Proofs.Animation.Resave
import Localizer.Proofs.Editor.RuleRun
import Localizer.Proofs.Workspace

/-!
# What is saved after a file has been loaded

Loading a file shows its animation but leaves the history alone. So the timeline then has the
animation of the file between documents of the files that were shown before, and saving writes
whichever of them the user has moved to.
-/

namespace Localizer.Animation

theorem pictureSize_unloaded (ps : List Picture) (name : Text) :
    pictureSize (ps.map Picture.unloaded) name = pictureSize ps name := by
  have hname : (fun p : Picture => decide (p.name = name)) ∘ Picture.unloaded = fun p => decide (p.name = name) := rfl
  unfold pictureSize
  rw [← List.map_reverse, List.find?_map, hname]
  cases List.find? (fun p : Picture => decide (p.name = name)) ps.reverse with
  | none
  | some p => rfl

theorem encode_unloaded (a : Animation) : encode a.unloaded = encode a := by
  have hentry : entryBytes (a.pictures.map Picture.unloaded) = entryBytes a.pictures := by
    funext l
    unfold entryBytes
    rw [pictureSize_unloaded]
  unfold encode
  rw [show a.unloaded.pictures = a.pictures.map Picture.unloaded from rfl, hentry]
  rfl

end Localizer.Animation

namespace Localizer.Editor

open Text Animation Localizer.Editor.Document Option

variable {e : Editor} {f : File} {b a : Animation}

/-! ### Loading -/

/-- What the user works on when a file with an animation has been loaded. -/
def opened (e : Editor) (p : Text) (b : Animation) (range : Int × Int) : Work where
  files := e.files
  doc := ⟨some (loadedFrom e.files (Path.directory p) b), [], 0, range⟩
  undos := e.undos
  redos := e.redos
  baseDir := Path.directory p
  path := p
  hidden := []

theorem work_load {p : Text} (hread : e.files.read p = .ok f)
    (hb : decode f.bytes = .ok b) : ∃ r, (after (load p) e).work = e.opened p b r := by
  refine of_after_tryCatch (p := fun e₁ => ∃ r, e₁.work = e.opened p b r) ?_
    fun _ => .exists_ fun _ => .modify fun _ h => h
  rw [openAnimation, after_get_bind, hread, after_ofExcept_bind, hb, after_ofExcept_bind, after_modify_bind]
  exact work_refresh _

theorem work_start (files : Workspace) (w h : Int) :
    (start files w h).work = ⟨files, {}, [], [], [], [], []⟩ :=
  keeps_render (w := ⟨files, {}, [], [], [], [], []⟩) { files := files, canvas := ⟨w, h, [], none, []⟩ } rfl

/-! ### Moving -/

theorem files_move (m : Move) (e : Editor) :
    (after m.work e).files = e.files ∧ (after m.work e).path = e.path := by
  rcases turns_cases m e with ⟨-, hsame⟩ | ⟨d, us, rs, hturns⟩
  · rw [hsame]
    exact ⟨rfl, rfl⟩
  · obtain ⟨r, hr⟩ := hturns.work_eq
    exact ⟨congrArg Work.files hr, congrArg Work.path hr⟩

theorem files_moved (ms : List Move) (e : Editor) :
    (moved ms e).files = e.files ∧ (moved ms e).path = e.path := by
  induction ms generalizing e with
  | nil => exact ⟨rfl, rfl⟩
  | cons m ms ih =>
    obtain ⟨hfiles, hpath⟩ := ih (after m.work e)
    obtain ⟨hfiles', hpath'⟩ := files_move m e
    exact ⟨hfiles.trans hfiles', hpath.trans hpath'⟩

/-! ### Saving -/

/-- The files after an animation has been saved at a path: its file is there, or nothing has changed
if it has none. -/
def Stores (ws : Workspace) (p : Text) (a : Animation) (ws' : Workspace) : Prop :=
  match encode a with
  | .ok bs => Job.Yields (Job.writeBytes p bs) ws () ws' ∧ ws'.read p = .ok { data := bs }
  | .error _ => ws' = ws

theorem files_save (ha : e.doc.anim? = some a) (hpath : e.path ≠ []) :
    (after save e).files = (after (writeTo a e.path) e).files := by
  have hnonempty : (!e.path.isEmpty) = true := by simpa using hpath
  rw [save, after_get_bind, ha]
  simp only [hnonempty, if_true]
  refine of_after_tryCatch (p := fun e₁ => e₁.files = (after (writeTo a e.path) e).files) ?_
    fun _ => .modify fun _ h => h
  exact of_after_bind (p := fun e₁ => e₁.files = (after (writeTo a e.path) e).files) rfl fun _ => .modify fun _ h => h

theorem stores_save (ha : e.doc.anim? = some a)
    (hread : e.files.read e.path = .ok f) : Stores e.files e.path a (after save e).files := by
  rw [files_save ha (Workspace.ne_nil_of_read hread)]
  unfold Stores writeTo
  cases hencode : encode a with
  | error g => rfl
  | ok bs =>
    obtain ⟨ws, hws⟩ := Job.yields_writeFile_of_read hread { data := bs }
    have hrun : (Job.writeBytes e.path bs).run.run e.files = (.ok (), ws) := hws
    rw [after_ofExcept_bind, after_get_bind, hrun]
    exact ⟨hws, Job.read_of_writeFile hws⟩

/-- The timeline of an editor with an animation that was just loaded in the place of the document
that is shown. -/
def timelineWith (e : Editor) (b : Animation) : List Content :=
  (e.undos.map content).reverse ++ ⟨some b.unloaded, [], 0⟩ :: e.redos.map content

theorem timeline_load {p : Text} (hread : e.files.read p = .ok f)
    (hb : decode f.bytes = .ok b) : (after (load p) e).timeline = e.timelineWith b := by
  obtain ⟨r, hr⟩ := work_load hread hb
  have hundos : (after (load p) e).undos = e.undos := congrArg Work.undos hr
  have hredos : (after (load p) e).redos = e.redos := congrArg Work.redos hr
  have hdoc : (after (load p) e).doc = (e.opened p b r).doc := congrArg Work.doc hr
  rw [timeline, timelineWith, hundos, hredos, hdoc, opened, content, map_some, unloaded_loadedFrom]

theorem stores_moved (he : Reachable e) {p : Text}
    (hread : e.files.read p = .ok f) (hb : decode f.bytes = .ok b) (ms : List Move) :
    ∃ c a, (e.timelineWith b)[walk (e.timelineWith b).length ms e.undos.length]? = some c ∧ c.anim? = some a ∧
      Stores e.files p a (after save (moved ms (after (load p) e))).files := by
  obtain ⟨r, hr⟩ := work_load hread hb
  set e₁ := after (load p) e
  have hfiles : e₁.files = e.files := congrArg Work.files hr
  have hpath : e₁.path = p := congrArg Work.path hr
  have hundos : e₁.undos = e.undos := congrArg Work.undos hr
  have hredos : e₁.redos = e.redos := congrArg Work.redos hr
  have hdoc : e₁.doc = (e.opened p b r).doc := congrArg Work.doc hr
  have hcomplete : e₁.Complete := by
    refine ⟨by rw [hdoc]; rfl, ?_⟩
    rw [hundos, hredos]
    exact he.tidy.aside
  have hcontent := content_moved hcomplete ms
  rw [timeline_load hread hb, hundos] at hcontent
  obtain ⟨a, ha⟩ := isSome_iff_exists.mp (complete_moved hcomplete ms).shown
  refine ⟨_, a.unloaded, hcontent, by rw [content, ha, map_some], ?_⟩
  obtain ⟨hfiles', hpath'⟩ := files_moved ms e₁
  have hstores := stores_save ha (f := f) (by rw [hfiles', hpath', hfiles, hpath, hread])
  rw [hfiles', hpath', hfiles, hpath] at hstores
  unfold Stores at hstores ⊢
  rwa [encode_unloaded]

/-- **Saving after loading, undoing and redoing.** What is written to the file that was loaded is
the animation at the place of the timeline where the moves lead. It is the file's own one where they
lead back to its place, as they always do if nothing had been put aside before. -/
theorem save_after_load {e : Editor} (he : Reachable e) {p : Text} {f : File} {b : Animation}
    (hread : e.files.read p = .ok f) (hb : decode f.bytes = .ok b) (ms : List Move) :
    let place := walk (e.timelineWith b).length ms e.undos.length
    ∃ c a, (e.timelineWith b)[place]? = some c ∧ c.anim? = some a ∧
      Stores e.files p a (after save (moved ms (after (load p) e))).files ∧
      (place = e.undos.length → encode a = encode b) ∧
      (e.undos = [] → e.redos = [] → place = e.undos.length) := by
  intro place
  obtain ⟨c, a, hc, ha, hstores⟩ := stores_moved he hread hb ms
  refine ⟨c, a, hc, ha, hstores, fun hplace => ?_, fun hu hr => ?_⟩
  · have hown : (e.timelineWith b)[place]? = some ⟨some b.unloaded, [], 0⟩ := by simp [hplace, timelineWith]
    obtain rfl : c = ⟨some b.unloaded, [], 0⟩ := some.inj (hc.symm.trans hown)
    obtain rfl : b.unloaded = a := some.inj ha
    exact encode_unloaded b
  · have hlength : (e.timelineWith b).length = 1 := by simp [timelineWith, hu, hr]
    have hlt : place < (e.timelineWith b).length := walk_lt ms (by simp [timelineWith])
    rw [hu, List.length_nil]
    omega

/-! ### Two files -/

/-- An animation with two layers that are never shown. -/
def blankPair : Animation where
  tickRate := 30
  totalFrames := 12
  markerA := 0
  markerB := 0
  pictures := [⟨[], 8, 8, none⟩]
  layers := [{ id := 0, picture := 0, name := [] }, { id := 1, picture := 0, name := [] }]

def blankFilm : Animation where
  tickRate := 60
  totalFrames := 24
  markerA := 0
  markerB := 0

def desk : Workspace where
  cwd := "/"
  files := [(["pair"], { data := blankPair.file }), (["film"], { data := blankFilm.file })]

theorem decode_blankPair : decode blankPair.file = .ok blankPair.stored := decode_file (by decide)

theorem decode_blankFilm : decode blankFilm.file = .ok blankFilm.stored := decode_file (by decide)

theorem encode_blankFilm : encode blankFilm.stored = .ok blankFilm.file :=
  encode_stored (by decide) (by decide)

theorem ledger_follow {rs : List Row} {target source : Nat} {l : Layer}
    (edits : List Key → Int → List KeyEdit) (ha : e.doc.anim? = some a)
    (hrows : layerRowsFrom e.hidden a 0 a.layers = (rs, none)) (htarget : target ∈ rs.map Row.place)
    (hsource : source ∈ rs.map Row.place) (hne : target ≠ source) (hlayers : 2 ≤ a.layers.length)
    (hl : a.layers[source]? = some l) :
    (after (follow edits (some target) (some source)) e).ledger = (pushed e).ledger := by
  rw [after_follow edits ha hrows (chosenAmong_eq _ htarget) (chosenAmong_eq _ hsource) hne hlayers hl]
  refine of_after_bind (p := fun e₁ => e₁.ledger = (pushed e).ledger) ?_ fun _ e₁ h₁ => ?_
  · rcases after_editKeys_cases target (edits l.keys a.totalFrames) (pushed e) with h | ⟨_, _, _, _, _, _, h⟩
    · rw [h]
    · rw [h]
      rfl
  · exact (draws_render.same (f := ledger) (fun _ => rfl) e₁).trans h₁

def shownPair : Animation := loadedFrom desk "/" blankPair.stored

theorem rows_shownPair :
    ∃ rs, layerRowsFrom [] shownPair 0 shownPair.layers = (rs, none) ∧ rs.map Row.place = [0, 1] :=
  ⟨_, rfl, rfl⟩

theorem ledger_followAlpha_pair (ha : e.doc.anim? = some shownPair) (hhidden : e.hidden = []) :
    (after (followAlpha (some 0) (some 1)) e).ledger = (pushed e).ledger := by
  obtain ⟨rs, hrs, hplaces⟩ := rows_shownPair
  rw [← hhidden] at hrs
  refine ledger_follow followAlphaEdits ha hrs ?_ ?_ Nat.zero_ne_one (le_refl 2) rfl
  · simp [hplaces]
  · simp [hplaces]

/-- The pair was loaded, and one of its layers made to follow the other. -/
def pairFollowed : Editor :=
  after (followAlpha (some 0) (some 1)) (after (load "/pair") (start desk 640 480))

theorem ledger_pairFollowed :
    ∃ d, pairFollowed.ledger = (desk, "/".toList, "/pair".toList, [d], []) ∧
      d.content = ⟨some blankPair.stored.unloaded, [], 0⟩ := by
  have hstart := work_start desk 640 480
  have hfiles : (start desk 640 480).files = desk := congrArg Work.files hstart
  have hread : (start desk 640 480).files.read "/pair" = .ok { data := blankPair.file } := by
    rfl
  have hdir : Path.directory "/pair" = "/".toList := rfl
  obtain ⟨r, hr⟩ := work_load hread decode_blankPair
  rw [opened, hfiles, hdir] at hr
  rw [pairFollowed]
  generalize after (load "/pair") (start desk 640 480) = e at hr ⊢
  have hdoc : e.doc = ⟨some shownPair, [], 0, r⟩ := congrArg Work.doc hr
  have hpushed := pushed_of_isSome (e := e) (by rw [hdoc]; rfl)
  have hhidden : e.hidden = [] := congrArg Work.hidden hr
  refine ⟨e.doc, ?_, ?_⟩
  · have hfiles' : e.files = desk := congrArg Work.files hr
    have hbase : e.baseDir = "/".toList := congrArg Work.baseDir hr
    have hpath : e.path = "/pair".toList := congrArg Work.path hr
    have hundos' : e.undos = [] := congrArg Work.undos hr
    rw [ledger_followAlpha_pair (congrArg anim? hdoc) hhidden, hpushed]
    simp only [ledger, work, Work.ledger, hfiles', hbase, hpath, hundos']
    rfl
  · rw [hdoc, content, map_some, shownPair, unloaded_loadedFrom]

theorem reachable_pairFollowed : Reachable pairFollowed :=
  .step (.step (.start desk 640 480) (.load "/pair")) (.followAlpha (some 0) (some 1))

/-- When the film is loaded next, the pair is still on the timeline. -/
theorem timelineWith_pairFollowed :
    pairFollowed.files.read "/film" = .ok { data := blankFilm.file } ∧ pairFollowed.undos.length = 1 ∧
      pairFollowed.timelineWith blankFilm.stored =
        [⟨some blankPair.stored.unloaded, [], 0⟩, ⟨some blankFilm.stored.unloaded, [], 0⟩] := by
  obtain ⟨d, hledger, hd⟩ := ledger_pairFollowed
  simp only [ledger, work, Work.ledger, Prod.mk.injEq] at hledger
  obtain ⟨hfiles, -, -, hundos, hredos⟩ := hledger
  rw [hfiles, timelineWith, hundos, hredos, ← hd]
  exact ⟨rfl, rfl, rfl⟩

/-- Undoing leads to the pair, and redoing back to the film, which is saved as it was. -/
theorem save_after_load_film :
    (pairFollowed.timelineWith blankFilm.stored).length = 2 ∧
      (after save (moved [.undo, .redo] (after (load "/film") pairFollowed))).files.read "/film" =
        .ok { data := blankFilm.file } := by
  obtain ⟨hread, hlength, hrow⟩ := timelineWith_pairFollowed
  obtain ⟨c, a, -, -, hstores, hown, -⟩ :=
    save_after_load reachable_pairFollowed hread decode_blankFilm [.undo, .redo]
  have hencode := hown (by rw [hrow, hlength]; rfl)
  unfold Stores at hstores
  rw [hencode, encode_blankFilm] at hstores
  exact ⟨by rw [hrow]; rfl, hstores.2⟩

/-- The film is loaded after the pair, of which a layer was made to follow the other. Undoing then
brings the pair back, and saving writes it over the film. -/
theorem save_overwrites_film :
    Reachable pairFollowed ∧ pairFollowed.files.read "/film" = .ok { data := blankFilm.file } ∧
    decode blankFilm.file = .ok blankFilm.stored ∧ encode blankFilm.stored = .ok blankFilm.file ∧
    (after save (moved [.undo] (after (load "/film") pairFollowed))).files.read "/film" =
      .ok { data := blankPair.file } ∧
    blankPair.file ≠ blankFilm.file := by
  obtain ⟨hread, hlength, hrow⟩ := timelineWith_pairFollowed
  refine ⟨reachable_pairFollowed, hread, decode_blankFilm, encode_blankFilm, ?_, ?_⟩
  · obtain ⟨c, a, hc, ha, hstores⟩ := stores_moved reachable_pairFollowed hread decode_blankFilm [.undo]
    rw [hrow, hlength] at hc
    obtain rfl : ⟨some blankPair.stored.unloaded, [], 0⟩ = c := some.inj hc
    obtain rfl : blankPair.stored.unloaded = a := some.inj ha
    unfold Stores at hstores
    rw [encode_unloaded, encode_stored (by decide) (by decide)] at hstores
    exact hstores.2
  · intro h
    have hrate : blankPair.file[4]? = blankFilm.file[4]? := by rw [h]
    exact absurd hrate (by decide)

end Localizer.Editor
