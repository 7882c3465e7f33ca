import Localizer.Proofs.Editor.Rule
import Localizer.Proofs.Text.Words

/-!
# Runs under a rule

Whatever the user does, a property that a rule carries goes on to hold, as long as the frames that a
dialogue works on are times by the rule, and the files that are loaded do not break it. So a lawful
rule for animations, one that the steps by which they change keep, goes on to hold of all documents.
-/

namespace Localizer.Editor

open List hiding span
open Text Animation

variable {e : Editor} {d : Document} {a : Animation}
variable {t : Text} {m : Int} {first? last? : Option Text} {i? : Option Int} {q : Editor → Prop}

inductive Input where
  | load (path : Text)
  | openFile (answer? : Option Text)
  | save
  | saveAs (answer? : Option Text)
  | pickFile (i? : Option Int)
  | pickFrame (i? : Option Int)
  | pickAction (i : Int)
  | pickLayer (i? : Option Int)
  | clickRow (place? : Option Int) (onMark : Bool)
  | openRowMenu (place? : Option Int)
  | togglePlay
  | stop
  | stepForward
  | stepBackward
  | tick
  | move (m : Move)
  | rename (answer? : Option Text)
  | add (answer? : Option NewLayer)
  | delete
  | enterAlpha (t : Text)
  | nudgeAlpha (step : Int)
  | enterPosition (x y : Text)
  | enterAdjust (t : Text)
  | nudge (dx dy : Int)
  | inherit
  | batchAlpha (first? last? alpha? : Option Text)
  | batchMove (first? last? expression? x? y? : Option Text)
  | followAlpha (target? source? : Option Int)
  | followPosition (target? source? : Option Int)
  | press (label : Text) (n : Nat)
  | resize (width height : Int)
  | setPicture (place picture : Int)

def Input.work : Input → Edit Unit
  | load path => Editor.load path
  | openFile answer? => Editor.openFile answer?
  | save => Editor.save
  | saveAs answer? => Editor.saveAs answer?
  | pickFile i? => Editor.pickFile i?
  | pickFrame i? => Editor.pickFrame i?
  | pickAction i => Editor.pickAction i
  | pickLayer i? => Editor.pickLayer i?
  | clickRow place? onMark => Editor.clickRow place? onMark
  | openRowMenu place? => Editor.openRowMenu place?
  | togglePlay => Editor.togglePlay
  | stop => Editor.stop
  | stepForward => Editor.stepForward
  | stepBackward => Editor.stepBackward
  | tick => Editor.tick
  | move m => m.work
  | rename answer? => renameChosen answer?
  | add answer? => addLayer answer?
  | delete => deleteChosen
  | enterAlpha t => Editor.enterAlpha t
  | nudgeAlpha step => Editor.nudgeAlpha step
  | enterPosition x y => Editor.enterPosition x y
  | enterAdjust t => Editor.enterAdjust t
  | nudge dx dy => Editor.nudge dx dy
  | inherit => inheritPrevious
  | batchAlpha first? last? alpha? => Editor.batchAlpha first? last? alpha?
  | batchMove first? last? expression? x? y? => Editor.batchMove first? last? expression? x? y?
  | followAlpha target? source? => Editor.followAlpha target? source?
  | followPosition target? source? => Editor.followPosition target? source?
  | press label n => Editor.press label n
  | resize width height => Editor.resize width height
  | setPicture place picture => Editor.setPicture place picture

def Input.Loads : Input → Prop
  | load _ | openFile _ | pickFile _ => True
  | _ => False

/-- The input edits the key frames of a layer. -/
def Input.EditsKeys : Input → Prop
  | enterAlpha _ | nudgeAlpha _ | enterPosition _ _ | enterAdjust _ | nudge _ _ | inherit | batchAlpha _ _ _ => True
  | batchMove _ _ _ _ _ | followAlpha _ _ | followPosition _ _ => True
  | _ => False

/-- The input gives layers places on the canvas, so that their positions follow from what is drawn.
-/
def Input.Places : Input → Prop
  | add (some _) | enterPosition _ _ | enterAdjust _ | nudge _ _ | batchMove _ _ _ _ _ => True
  | press label _ => label = "-10" ∨ label = "+10"
  | _ => False

def ran (is : List Input) (e : Editor) : Editor := is.foldl (fun e i => after i.work e) e

namespace Rule

variable {r : Rule} {i : Input} {p : Editor → Prop}

/-! ### Dialogues -/

/-- A number in a field of a dialogue: the one that the user has entered, or a time that the field
proposes. -/
def Entered (r : Rule) (t? : Option Text) (m : Int) : Prop :=
  match t? with
  | some t => typed? t = some m
  | none => r.time m

/-- The frames that a dialogue works on, given the numbers in its fields, are times. -/
def Covers (r : Rule) : Input → Prop
  | .batchAlpha first? last? _ => ∀ m k total, r.Entered first? m → r.Entered last? k → r.time total →
    let first := max 0 (min m k)
    let last := min total (max m k)
    ∀ t ∈ borders first last total ++ span first last, r.time t
  | .batchMove first? last? _ _ _ => ∀ m k total, r.Entered first? m → r.Entered last? k → r.time total →
    let first := min m k
    let last := max m k
    ∀ t ∈ borders first last total ++ span first last, r.time t
  | _ => True

theorem typed?_of_outcome (h : outcome (typed t) e = .ok m) : typed? t = some m := by
  unfold typed at h
  split at h
  · next k hk => exact hk.trans (congrArg some (Except.ok.inj h))
  · cases h

theorem shown_of_outcome (h : outcome shownFrameText e = .ok t) :
    ∃ i, Number.cut e.doc.frame = .ok i ∧ t = decimalInt i := by
  unfold shownFrameText at h
  rw [outcome_get_bind] at h
  cases hi : Number.cut e.doc.frame with
  | ok i =>
    rw [hi] at h
    exact ⟨i, rfl, (Except.ok.inj h).symm⟩
  | error g =>
    rw [hi] at h
    cases h

theorem entered_of_typed? {t? : Option Text} {i : Int} (hi : r.time i)
    (h : typed? (t?.getD (decimalInt i)) = some m) : r.Entered t? m := by
  cases t? with
  | some t => exact h
  | none =>
    rw [Option.getD_none, typed?, trim_eq_self_of_forall fun c hc => (of_mem_decimalInt hc).1] at h
    exact eq_of_readDecimal?_decimalInt h ▸ hi

theorem covers_of_forall (htime : ∀ t, r.time t) (i : Input) : r.Covers i := by
  cases i with
  | batchAlpha
  | batchMove => exact fun _ _ _ _ _ _ t _ => htime t
  | _ => trivial

namespace Edits

variable (hp : r.Edits p)
include hp

theorem keeps_batchAlpha {alpha? : Option Text}
    (hcovers : r.Covers (.batchAlpha first? last? alpha?)) :
    Keeps p (batchAlpha first? last? alpha?) := by
  refine .get_bind fun e he => ?_
  split
  · next place a _ ha =>
    refine .bind_of keeps_shownFrameText fun e' shown he' hshown => hp.keeps_orSay ?_
    obtain ⟨i, hi, rfl⟩ := shown_of_outcome hshown
    refine .bind_of keeps_typed fun _ m _ hm => .bind_of keeps_typed fun _ k _ hk => .bind keeps_typed fun opacity => ?_
    have htimes := hcovers m k a.totalFrames (entered_of_typed? hp.zero (typed?_of_outcome hm))
      (entered_of_typed? (hp.cut (hp.shown he') hi) (typed?_of_outcome hk)) (hp.total he ha)
    refine .seq (.discard keeps_layerAt) (.seq hp.keeps_pushUndo ?_)
    refine .seq (hp.keeps_editKeys fun _ edit hedit => ?_) hp.keeps_render
    rcases mem_append.mp hedit with hedit | hedit
    · obtain ⟨t, ht, rfl⟩ := mem_map.mp hedit
      exact within_of (htimes t (mem_append_left _ ht)) .keep
    · obtain ⟨t, ht, rfl⟩ := mem_map.mp hedit
      exact within_of (htimes t (mem_append_right _ ht)) (.alpha _)
  · exact .pure

theorem keeps_batchMove (hplace : ∀ x y, r.place x y) {expression? x? y? : Option Text}
    (hcovers : r.Covers (.batchMove first? last? expression? x? y?)) :
    Keeps p (batchMove first? last? expression? x? y?) := by
  refine .get_bind fun e he => ?_
  split
  · next place a _ ha =>
    refine .bind_of keeps_shownFrameText fun e' shown he' hshown => hp.keeps_orSay ?_
    obtain ⟨i, hi, rfl⟩ := shown_of_outcome hshown
    refine .bind_of keeps_typed fun _ m _ hm => .bind_of keeps_typed fun _ k _ hk => ?_
    have htimes := hcovers m k a.totalFrames (entered_of_typed? hp.zero (typed?_of_outcome hm))
      (entered_of_typed? (hp.cut (hp.shown he') hi) (typed?_of_outcome hk)) (hp.total he ha)
    obtain ⟨hborders, hspan⟩ := forall_mem_append.mp htimes
    have hfirst : r.time (min m k) := hborders _ (by simp [borders])
    have hpassed : ∀ i : Nat, i < (max m k + 1 - min m k).toNat → r.time (min m k + (0 + i)) := fun i hi =>
      hspan _ (mem_span.mpr ⟨by omega, by omega⟩)
    refine .ite (.seq .pure ?_) (.seq keeps_splitExpression ?_)
    all_goals
      refine .seq (.discard keeps_layerAt) (.bind keeps_readCourse fun cx => ?_)
      refine .bind keeps_readCourse fun cy => .seq (hp.keeps_visit hfirst) ?_
      refine .bind keeps_onScreen fun base => .seq hp.keeps_pushUndo ?_
      refine .seq (hp.keeps_anchor hborders) (.seq (hp.keeps_moveAlong hplace hpassed) ?_)
      exact .seq (hp.keeps_setFrame (hp.shown he)) hp.keeps_render
  · exact .pure

theorem keeps_input (hi : i.EditsKeys) (hcovers : r.Covers i)
    (hplaces : i.Places → ∀ x y, r.place x y) : Keeps p i.work := by
  have hmodify {f : Editor → Editor} (hf : ∀ e, stock (f e) = stock e) : Keeps p (modify f) := hp.keeps_modify hf
  cases i with
  | enterAlpha t => exact .seq (hmodify fun _ => rfl) hp.keeps_onAlphaEntered
  | nudgeAlpha step => exact hp.keeps_nudgeAlpha
  | enterPosition x y
  | enterAdjust t => exact .seq (hmodify fun _ => rfl) (hp.keeps_onFieldsEntered (hplaces trivial))
  | nudge dx dy => exact hp.keeps_nudge (hplaces trivial)
  | inherit => exact hp.keeps_inheritPrevious
  | batchAlpha first? last? alpha? => exact hp.keeps_batchAlpha hcovers
  | batchMove first? last? expression? x? y? => exact hp.keeps_batchMove (hplaces trivial) hcovers
  | followAlpha target? source? => exact hp.keeps_followAlpha
  | followPosition target? source? => exact hp.keeps_followPosition
  | _ => exact hi.elim

end Edits

namespace Carries

variable (hp : r.Carries p)
include hp

theorem keeps_buttons (e : Editor) :
    ∀ b ∈ buttons e, (b.1 = "-10" ∨ b.1 = "+10" → ∀ x y, r.place x y) → Keeps p b.2 := by
  simp only [buttons, forall_mem_cons]
  refine ⟨fun _ => hp.keeps_togglePlay, fun _ => keeps_addLayer_none, fun _ => hp.keeps_deleteChosen,
    fun _ => keeps_batchNothing, fun _ => keeps_followNothing, fun _ => keeps_batchNothing, fun _ => keeps_followNothing,
    fun h => hp.keeps_nudge (h (.inl trivial)), fun h => hp.keeps_nudge (h (.inr trivial)),
    fun h => hp.keeps_nudge (h (.inl trivial)), fun h => hp.keeps_nudge (h (.inr trivial)),
    fun _ => hp.keeps_inheritPrevious, fun _ => hp.keeps_nudgeAlpha, fun _ => hp.keeps_nudgeAlpha,
    nofun⟩

theorem keeps_press {label : Text} {i : Nat}
    (hplace : label = "-10" ∨ label = "+10" → ∀ x y, r.place x y) : Keeps p (press label i) := by
  refine .bind .get fun e => ?_
  split
  · next b hb =>
    obtain ⟨hmem, hlabel⟩ := mem_filter.mp (mem_of_getElem? hb)
    exact hp.keeps_buttons e _ hmem (of_decide_eq_true hlabel ▸ hplace)
  · exact .throw

/-! ### Inputs -/

theorem keeps_pickFrame : Keeps p (pickFrame i?) :=
  .seq (hp.keeps_modify fun _ => rfl) hp.keeps_onFrameChoice

theorem keeps_pickAction {i : Int} : Keeps p (pickAction i) := by
  refine .bind .get fun e => .ite (.seq .throw ?_) ?_
  all_goals exact .seq (hp.keeps_modify fun _ => rfl) hp.keeps_onActionChoice

theorem keeps_pickLayer : Keeps p (pickLayer i?) := by
  cases i? with
  | none => exact .seq (hp.keeps_modify fun _ => rfl) hp.keeps_onLayerChoice
  | some i => exact .seq hp.keeps_chooseRow hp.keeps_onLayerChoice

theorem keeps_of_loads (hi : i.Loads) (hload : ∀ path, Keeps p (load path)) : Keeps p i.work := by
  cases i with
  | load path => exact hload path
  | openFile answer? =>
    cases answer? with
    | none => exact .pure
    | some path => exact .seq hp.keeps_fillFiles (hload path)
  | pickFile i? =>
    refine .seq (hp.keeps_modify fun _ => rfl) (.bind .get fun e => ?_)
    split
    · exact .pure
    · exact .ite (.ite (hload _) .pure) .pure
  | _ => exact hi.elim

theorem leads_addLayer (hq : r.Carries q) (hpq : ∀ e, p e → q e)
    (hadd : ∀ e a name size x y, Probed size → r.place x y → p e → e.doc.anim? = some a →
      q (withAnim (addStatic name size x y a) e)) {answer? : Option NewLayer}
    (hplace : answer?.isSome → ∀ x y, r.place x y) : Leads p q (addLayer answer?) := by
  refine .keeps_bind hpq .get fun e => ?_
  split
  · refine .ite (hp.keeps_say.leads hpq) (.keeps_bind hpq .ofExcept fun x => ?_)
    refine .keeps_bind hpq .ofExcept fun y => .keeps_bind hpq (.ite .ofExcept .pure) fun x => ?_
    refine .keeps_bind hpq (.ite .ofExcept .pure) fun y => .keeps_bind hpq hp.keeps_pushUndo fun _ => ?_
    refine .bind_keeps (hp.leads_modifyAnim hpq fun e' a => hadd e' a _ _ x y (probed_probedSize e _) (hplace rfl x y)) ?_
    exact fun _ => .seq hq.keeps_loadAll (.seq hq.keeps_fillLayers hq.keeps_render)
  · exact Keeps.pure.leads hpq

/-- Every input leads to a property that follows from the one before, if adding a layer does and the
property is kept by the inputs that need more than the document that is shown. -/
theorem leads (hq : r.Carries q) (hpq : ∀ e, p e → q e)
    (hadd : ∀ e a name size x y, Probed size → r.place x y → p e → e.doc.anim? = some a →
      q (withAnim (addStatic name size x y a) e)) (hmoves : ∀ m : Move, Keeps p m.work)
    (hloads : i.Loads → ∀ path, Keeps p (load path)) (hcovers : r.Covers i) (hplaces : i.Places → ∀ x y, r.place x y)
    (hpicture : ∀ place picture, i = .setPicture place picture → Keeps p (setPicture place picture)) :
    Leads p q i.work := by
  have hkeeps {x : Edit Unit} (hx : Keeps p x) : Leads p q x := hx.leads hpq
  cases i with
  | load | openFile | pickFile => exact hkeeps (hp.keeps_of_loads trivial (hloads trivial))
  | save => exact hkeeps hp.keeps_save
  | saveAs answer? => exact hkeeps hp.keeps_saveAs
  | pickFrame i? => exact hkeeps hp.keeps_pickFrame
  | pickAction i => exact hkeeps hp.keeps_pickAction
  | pickLayer i? => exact hkeeps hp.keeps_pickLayer
  | clickRow place? onMark => exact hkeeps hp.keeps_clickRow
  | openRowMenu place? => exact hkeeps hp.keeps_openRowMenu
  | togglePlay => exact hkeeps hp.keeps_togglePlay
  | stop => exact hkeeps hp.keeps_stop
  | stepForward => exact hkeeps hp.keeps_stepForward
  | stepBackward => exact hkeeps hp.keeps_stepBackward
  | tick => exact hkeeps hp.keeps_tick
  | move m => exact hkeeps (hmoves m)
  | rename answer? => exact hkeeps hp.keeps_renameChosen
  | add answer? =>
    refine hp.leads_addLayer hq hpq hadd fun hanswer => hplaces ?_
    obtain ⟨answer, rfl⟩ := Option.isSome_iff_exists.mp hanswer
    trivial
  | delete => exact hkeeps hp.keeps_deleteChosen
  | press label i => exact hkeeps (hp.keeps_press hplaces)
  | resize width height => exact hkeeps (hp.keeps_modify fun _ => rfl)
  | setPicture place picture => exact hkeeps (hpicture place picture rfl)
  | _ => exact hkeeps (hp.keeps_input trivial hcovers hplaces)

end Carries

/-! ### Rules for documents -/

section

variable (r)

/-- A document with an animation obeys the rule. -/
structure Admits (n : Nat) (d : Document) : Prop where
  anim : ∀ a, d.anim? = some a → r.anim n a
  isSome : d.anim?.isSome
  frame : r.frame d.frame
  first : r.time d.range.1
  last : r.time d.range.2

/-- All documents of an editor obey the rule, and so do the frames that can be picked. -/
structure Holds (n : Nat) (e : Editor) : Prop where
  shown : r.Admits n e.doc
  aside : ∀ d ∈ e.undos ++ e.redos, r.Admits n d
  listed : ∀ i : Nat, i < e.frameCount → r.time (e.firstFrame + i)

/-- The steps by which animations change keep the rule. -/
structure Lawful : Prop extends r.Orderly where
  /-- After a layer has been added, no more is asked. -/
  mono {n a} : r.anim n a → r.anim (n + 1) a
  total {n a} : r.anim n a → r.time a.totalFrames
  action {n a act} : r.anim n a → act ∈ a.actions → r.time act.start ∧ r.time act.stop
  pose {n a l t p x y} : r.anim n a → l ∈ a.layers → poseAt (.whole t) l.keys = .ok (some p) → p.posX.trunc = .ok x →
    p.posY.trunc = .ok y → r.place x y
  reload {n a ws dir} : r.anim n a → r.anim n (loadedFrom ws dir a)
  rename {n a i name size} : Probed size → r.anim n a → r.anim n (renameLayer i name size a)
  add {n a name size x y} : Probed size → r.place x y → r.anim n a → r.anim (n + 1) (addStatic name size x y a)
  remove {n a i} : r.anim n a → r.anim n (removeLayer i a)
  keys {n a i l edits} : r.anim n a → a.layers[i]? = some l → (∀ e ∈ edits, r.Within l.keys e) →
    r.anim n (modifyKeys i (fun _ => (applyEdits edits { keys := l.keys }).keys) a)

end

variable {n : Nat}

theorem Holds.withDoc (h : r.Holds n e) (hd : r.Admits n d) :
    r.Holds n { e with doc := d } where
  shown := hd
  aside := h.aside
  listed := h.listed

theorem Admits.withAnim (h : r.Admits n d) (ha : r.anim n a) :
    r.Admits n { d with anim? := some a } :=
  ⟨fun _ hb => Option.some.inj hb ▸ ha, rfl, h.frame, h.first, h.last⟩

theorem Holds.withAnim (h : r.Holds n e) (ha : r.anim n a) : r.Holds n (withAnim a e) :=
  h.withDoc (h.shown.withAnim ha)

theorem Holds.admits_of_snapshot? (he : r.Holds n e) (hd : snapshot? e = some d) :
    r.Admits n d := by
  unfold snapshot? at hd
  split at hd
  · exact Option.some.inj hd ▸ he.shown
  · cases hd

theorem Holds.pushed (he : r.Holds n e) : r.Holds n (pushed e) := by
  unfold Editor.pushed
  split
  · exact he
  · next d hd =>
    refine ⟨he.shown, fun d' hd' => ?_, he.listed⟩
    rw [append_nil] at hd'
    rcases mem_cons.mp (mem_of_mem_take hd') with rfl | hd'
    · exact he.admits_of_snapshot? hd
    · exact he.aside d' (mem_append_left _ hd')

namespace Lawful

variable (hr : r.Lawful)
include hr

theorem carries : r.Carries (r.Holds n) where
  toOrderly := hr.toOrderly
  same hstock he := by
    simp only [stock, Prod.mk.injEq] at hstock
    obtain ⟨hdoc, hundos, hredos, hfirst, hcount⟩ := hstock
    exact ⟨hdoc ▸ he.shown, hundos ▸ hredos ▸ he.aside, hfirst ▸ hcount ▸ he.listed⟩
  pushed := Holds.pushed
  shown he := he.shown.frame
  total he ha := hr.total (he.shown.anim _ ha)
  pose he ha := hr.pose (he.shown.anim _ ha)
  setFrame he hx := he.withDoc ⟨he.shown.anim, he.shown.isSome, hx, he.shown.first, he.shown.last⟩
  setAdjust he := he.withDoc ⟨he.shown.anim, he.shown.isSome, he.shown.frame, he.shown.first, he.shown.last⟩
  keys he ha hl hedits := he.withAnim (hr.keys (he.shown.anim _ ha) hl hedits)
  first he := he.shown.first
  last he := he.shown.last
  listed he := he.listed _
  action he ha := hr.action (he.shown.anim _ ha)
  setRange he hs ht := he.withDoc ⟨he.shown.anim, he.shown.isSome, he.shown.frame, hs, ht⟩
  list he hn := ⟨he.shown, he.aside, hn⟩
  reload he ha := he.withAnim (hr.reload (he.shown.anim _ ha))
  rename hsize he ha := he.withAnim (hr.rename hsize (he.shown.anim _ ha))
  remove he := by
    unfold withoutLayer
    split
    · exact he
    · next a ha =>
      have hanim := he.shown.anim a ha
      refine ⟨⟨fun b hb => ?_, rfl, he.shown.frame, he.shown.first, ?_⟩, he.aside, he.listed⟩
      · exact Option.some.inj hb ▸ hr.remove hanim
      · exact time_min (hr.total hanim) he.shown.last

theorem keeps_move (m : Move) : Keeps (r.Holds n) m.work := by
  intro e he
  rcases turns_cases m e with ⟨-, hsame⟩ | ⟨d, us, rs, hturns⟩
  · rwa [hsame]
  · rw [hturns.after_eq]
    refine hr.carries.keeps_refresh _ ⟨he.aside d hturns.mem, fun d' hd' => ?_, he.listed⟩
    rcases hturns.of_mem hd' with hd' | hd'
    · exact he.admits_of_snapshot? hd'
    · exact he.aside d' hd'

theorem admits_succ (hd : r.Admits n d) : r.Admits (n + 1) d :=
  ⟨fun a ha => hr.mono (hd.anim a ha), hd.isSome, hd.frame, hd.first, hd.last⟩

theorem holds_succ (e : Editor) (he : r.Holds n e) : r.Holds (n + 1) e :=
  ⟨hr.admits_succ he.shown, fun d hd => hr.admits_succ (he.aside d hd), he.listed⟩

theorem admits_opened {adjust : List (Nat × Text)} {range : Int × Int} (ha : r.anim n a)
    (hfirst : r.time range.1) (hlast : r.time range.2) : r.Admits n ⟨some a, adjust, 0, range⟩ where
  anim _ hb := Option.some.inj hb ▸ ha
  isSome := rfl
  frame := hr.fraction hr.zero rfl
  first := hfirst
  last := hlast

end Lawful

/-- The input does not break the rule: it does not set the picture of a layer directly, files that
it loads hold animations that obey the rule, it works on frames that are times, and it gives layers
places on the canvas only if they may be anywhere. -/
structure Allows (r : Rule) (i : Input) : Prop where
  picture : ∀ place p, i ≠ .setPicture place p
  loads : i.Loads → ∀ n bs a, decode bs = .ok a → r.anim n a
  covers : r.Covers i
  places : i.Places → ∀ x y, r.place x y

/-- Every input that is allowed keeps the rule. Where it adds a layer, it keeps what is asked then.
-/
theorem Lawful.leads (hr : r.Lawful) (hi : r.Allows i) :
    Leads (r.Holds n) (r.Holds (n + 1)) i.work := by
  refine hr.carries.leads hr.carries hr.holds_succ (fun e a name size x y hsize hxy he ha => ?_) hr.keeps_move
    (fun hloads path => ?_) hi.covers hi.places fun place picture h => absurd h (hi.picture place picture)
  · exact (hr.holds_succ e he).withAnim (hr.add hsize hxy (he.shown.anim a ha))
  · refine hr.carries.keeps_load fun e bs a ha he => he.withDoc ?_
    exact hr.admits_opened (hi.loads hloads n bs a ha) he.shown.first he.shown.last

/-- **A lawful rule holds on.** After inputs that are allowed, all documents obey the rule. -/
theorem Lawful.ran (hr : r.Lawful) {is : List Input} (his : ∀ i ∈ is, r.Allows i) (he : r.Holds n e) :
    r.Holds (n + is.length) (ran is e) := by
  induction is generalizing n e with
  | nil => exact he
  | cons i is ih =>
    obtain ⟨hi, his⟩ := forall_mem_cons.mp his
    have hstep := ih his (hr.leads hi e he)
    rwa [Nat.add_right_comm, Nat.add_assoc] at hstep

/-- The editor in which a file has been loaded first obeys every lawful rule that the animation in
the file obeys. -/
theorem Lawful.loaded (hr : r.Lawful) {files : Workspace} {w h : Int} {p : Text} {f : File}
    (hread : files.read p = .ok f) (hdecode : decode f.bytes = .ok a) (ha : r.anim n a) :
    r.Holds n (after (load p) (start files w h)) := by
  refine of_after_tryCatch ?_ fun _ => hr.carries.keeps_say
  have hstart {β : Type} (g : Editor → β) (hg : ∀ e, g e.undrawn = g e) :
      g (start files w h) = g { files := files, canvas := ⟨w, h, [], none, []⟩ } :=
    draws_render.same hg { files := files, canvas := ⟨w, h, [], none, []⟩ }
  have hfiles : (start files w h).files = files := hstart (·.files) fun _ => rfl
  have hrange : (start files w h).doc.range = (0, 0) := hstart (·.doc.range) fun _ => rfl
  have haside : (start files w h).undos ++ (start files w h).redos = [] := hstart (fun e => e.undos ++ e.redos) fun _ => rfl
  have hcount : (start files w h).frameCount = 0 := hstart (·.frameCount) fun _ => rfl
  rw [openAnimation, after_get_bind, hfiles, hread, after_ofExcept_bind, hdecode, after_ofExcept_bind,
    after_modify_bind]
  refine hr.carries.keeps_refresh _ ⟨hr.admits_opened ha ?_ ?_, fun d hd => ?_, fun i hi => ?_⟩
  · exact hrange ▸ hr.zero
  · exact hrange ▸ hr.zero
  · simp [haside] at hd
  · simp [hcount] at hi

end Rule

/-! ## Runs of the editor

Whatever the user does, the history changes in three ways only: a document is put aside before a
change, and undoing and redoing move along the timeline. So a property of the history that these
three keep holds in every state that can be reached. -/

def Work.ledger (w : Work) : Workspace × Text × Text × List Document × List Document :=
  (w.files, w.baseDir, w.path, w.undos, w.redos)

def ledger (e : Editor) : Workspace × Text × Text × List Document × List Document := e.work.ledger

/-- A property that the history alone decides. -/
def OfHistory (p : Editor → Prop) : Prop :=
  ∀ ⦃e e' : Editor⦄, e'.undos = e.undos → e'.redos = e.redos → p e → p e'

/-- A property of the history that putting a document aside, undoing and redoing keep. -/
structure Persistent (p : Editor → Prop) : Prop where
  ofHistory : OfHistory p
  pushed : ∀ e, p e → p (pushed e)
  move : ∀ m : Move, Keeps p m.work

/-- The states that the user can bring about. -/
inductive Reachable : Editor → Prop where
  | start (files : Workspace) (w h : Int) : Reachable (start files w h)
  | step {e : Editor} (h : Reachable e) (i : Input) : Reachable (after i.work e)

section

variable {p : Editor → Prop} (hp : Persistent p)
include hp

theorem Persistent.withDoc (he : p e) : p { e with doc := d } :=
  hp.ofHistory (e := e) rfl rfl he

/-- Nothing needs to be asked of documents. -/
theorem Persistent.carries : Rule.anything.Carries p where
  toOrderly := Rule.orderly_of_forall (fun _ => trivial) fun _ => trivial
  same h := by
    simp only [stock, Prod.mk.injEq] at h
    exact hp.ofHistory h.2.1 h.2.2.1
  pushed := hp.pushed _
  shown _ := trivial
  total _ _ := trivial
  pose _ _ _ _ _ _ := trivial
  setFrame he _ := hp.withDoc he
  setAdjust he := hp.withDoc he
  keys he _ _ _ := hp.withDoc he
  first _ := trivial
  last _ := trivial
  listed _ _ := trivial
  action _ _ _ := ⟨trivial, trivial⟩
  setRange he _ _ := hp.withDoc he
  list {e s n} he _ := hp.ofHistory (e := e) rfl rfl he
  reload he _ := hp.withDoc he
  rename _ he _ := hp.withDoc he
  remove he := by
    unfold withoutLayer
    split
    · exact he
    · exact hp.ofHistory (by rfl) (by rfl) he

theorem Persistent.keeps_setPicture (place picture : Int) : Keeps p (setPicture place picture) := by
  refine .bind .get fun e => ?_
  split
  · exact .throw
  · split
    · exact .throw
    · exact .modify fun _ he => hp.withDoc he

/-- Every input keeps what putting aside, undoing and redoing keep. -/
theorem Persistent.keeps (i : Input) : Keeps p i.work := by
  exact hp.carries.leads hp.carries (fun _ he => he) (fun e a name size x y _ _ he _ => hp.withDoc he) hp.move
    (fun _ path => hp.carries.keeps_load fun e bs a _ he => hp.withDoc he) (Rule.covers_of_forall (fun _ => trivial) i)
    (fun _ _ _ => trivial) fun place picture _ => hp.keeps_setPicture place picture

end

theorem Persistent.of_reachable {p : Editor → Prop} (hp : Persistent p)
    (hempty : ∀ e, e.undos = [] → e.redos = [] → p e) (h : Reachable e) : p e := by
  induction h with
  | start files w h => exact hp.carries.keeps_tick _ (hempty _ rfl rfl)
  | step _ i ih => exact hp.keeps i _ ih

/-! ### The length of the history -/

/-- The history is within its limit, and its documents have animations. -/
structure Tidy (e : Editor) : Prop where
  length_le : e.undos.length + e.redos.length ≤ historyLimit
  aside : ∀ d ∈ e.undos ++ e.redos, d.anim?.isSome

theorem isSome_of_snapshot? (h : snapshot? e = some d) : d.anim?.isSome := by
  unfold snapshot? at h
  split at h
  · next hsome => exact (Option.some.inj h) ▸ hsome
  · cases h

theorem length_snapshot? (e : Editor) : (snapshot? e).toList.length ≤ 1 := by
  cases snapshot? e <;> simp

theorem Tidy.pushed (h : e.Tidy) : (pushed e).Tidy := by
  unfold Editor.pushed
  split
  · exact h
  · next d hd =>
    refine ⟨?_, fun d' hd' => ?_⟩
    · rw [length_nil, Nat.add_zero]
      exact length_take_le _ _
    · rw [append_nil] at hd'
      rcases mem_cons.mp (mem_of_mem_take hd') with rfl | hd'
      · exact isSome_of_snapshot? hd
      · exact h.aside d' (mem_append_left _ hd')

theorem Tidy.shift {e' : Editor} (h : e.Tidy) (d : Document) (us rs : List Document)
    (hfrom : (e.undos ++ e.redos).Perm (d :: (us ++ rs)))
    (hto : (e'.undos ++ e'.redos).Perm ((snapshot? e).toList ++ (us ++ rs))) : e'.Tidy := by
  have hlen := h.length_le
  have hfrom' := hfrom.length_eq
  have hto' := hto.length_eq
  have hsnapshot := length_snapshot? e
  simp only [length_append, length_cons] at hfrom' hto'
  refine ⟨by omega, fun d' hd' => ?_⟩
  rcases mem_append.mp (hto.mem_iff.mp hd') with hnew | hold
  · exact isSome_of_snapshot? (Option.mem_toList.mp hnew)
  · exact h.aside d' (hfrom.mem_iff.mpr (mem_cons_of_mem d hold))

theorem persistent_tidy : Persistent Tidy where
  ofHistory e e' hu hr h := ⟨hu ▸ hr ▸ h.length_le, hu ▸ hr ▸ h.aside⟩
  pushed _ := Tidy.pushed
  move m e h := by
    rcases turns_cases m e with ⟨-, hsame⟩ | ⟨d, us, rs, hturns⟩
    · rwa [hsame]
    · obtain ⟨hundos, hredos, -⟩ := hturns.history
      cases hturns with
      | undo hu =>
        refine h.shift d us e.redos (by rw [hu]; rfl) ?_
        rw [hundos, hredos]
        exact perm_append_comm_assoc ..
      | redo hr =>
        refine h.shift d e.undos rs (by rw [hr]; exact perm_middle) ?_
        rw [hundos, hredos, append_assoc]

theorem Reachable.tidy (h : Reachable e) : e.Tidy :=
  persistent_tidy.of_reachable (fun e hu hr => ⟨by simp [hu, hr], by simp [hu, hr]⟩) h

/-- **The history is linear.** After edits, each of which puts the document aside before it changes
it, undoing takes the latest ones back and redoing as often brings them back again, as far as the
history goes; and no state that can be reached has a longer history. There, every document of the
history has an animation if the one that is shown has. -/
theorem undo_redo_linear :
    (∀ (e : Editor) (cs : List Change), e.Complete → cs.length ≤ 50 → ∀ k ≤ cs.length,
      (moved (List.replicate k .undo) (edited cs e)).doc.content =
          (edited (cs.take (cs.length - k)) e).doc.content ∧
        (moved (List.replicate k .undo ++ List.replicate k .redo) (edited cs e)).doc.content =
          (edited cs e).doc.content) ∧
    ∀ e, Reachable e → e.undos.length + e.redos.length ≤ 50 ∧ (e.doc.anim?.isSome → e.Complete) := by
  refine ⟨fun e cs h hlimit k hk => ⟨content_undone h hlimit hk, content_redone h hlimit hk⟩, fun e h => ?_⟩
  exact ⟨h.tidy.length_le, fun hsome => ⟨hsome, h.tidy.aside⟩⟩

def centred (place : Nat) (way : Text) : Change where
  apply e := { e with doc := { e.doc with adjust := Assoc.insert place way e.doc.adjust } }
  isSome _ h := h
  undos _ := rfl
  redos _ := rfl

/-- Two layers are kept centred, and the second change is taken back. -/
theorem undo_redo_linear_centred :
    let a : Animation := { tickRate := 30, totalFrames := 12, markerA := 0, markerB := 0 }
    let e : Editor := { files := { cwd := "/" }, canvas := ⟨640, 480, [], none, []⟩, doc := { anim? := some a } }
    (moved [.undo] (edited [centred 0 "中心", centred 1 "仅X"] e)).doc.adjust = [(0, "中心".toList)] := by
  intro a e
  have h := undo_redo_linear.1 e [centred 0 "中心", centred 1 "仅X"] ⟨rfl, fun d hd => nomatch hd⟩ (by simp) 1 (by simp)
  exact congrArg Content.adjust h.1

end Localizer.Editor
