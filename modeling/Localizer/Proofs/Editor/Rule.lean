import Localizer.Editor.Dialogs
import Localizer.Proofs.Animation.Timeline
import Localizer.Proofs.Editor.History

/-!
# What commands keep

Everything that the user does changes documents by a few steps only: pictures are loaded, layers are
renamed, added and removed, key frames are edited, a frame or the range of an action is shown. So a
property of editors that these steps keep goes on to hold. Which frames, times and positions the
steps may lead to is said by a *rule*. What editing key frames asks for (`Rule.Edits`) is a part of
what all commands ask for (`Rule.Carries`).
-/

namespace Localizer.Animation

open List

theorem reached_applyEdits {edits : List KeyEdit} {s : Sweep} {x : Float}
    (h : (applyEdits edits s).reached? = some x) :
    s.reached? = some x ∨ ∃ e ∈ edits, Number.fraction e.time = .ok x := by
  fun_induction applyEdits edits s with
  | case1 s
  | case2 e es s fault hchange => exact .inl h
  | case3 e es s hchange ih =>
    rcases ih h with h | ⟨e', he', hx⟩
    · exact .inl h
    · exact .inr ⟨e', mem_cons_of_mem _ he', hx⟩
  | case4 e es s f hchange fault hx => exact .inl h
  | case5 e es s f hchange y hy fault hedit =>
    exact .inr ⟨e, mem_cons_self, Option.some.inj h ▸ hy⟩
  | case6 e es s f hchange y hy ks hedit ih =>
    rcases ih h with h | ⟨e', he', hx⟩
    · exact .inr ⟨e, mem_cons_self, Option.some.inj h ▸ hy⟩
    · exact .inr ⟨e', mem_cons_of_mem _ he', hx⟩

end Localizer.Animation

namespace Localizer.Editor

open List Text Animation

/-- The size of a picture that was looked for: that of a file, or the one that is taken if no file
can be read. -/
def Probed (size : Int × Int) : Prop := size = (64, 64) ∨ ∃ ws p, fileSize ws p = .ok size

theorem probed_probedSize (e : Editor) (name : Text) : Probed (probedSize e name) := by
  unfold probedSize
  split
  · next size h => exact .inr ⟨_, _, h⟩
  · exact .inl rfl

def withAnim (a : Animation) (e : Editor) : Editor := { e with doc := { e.doc with anim? := some a } }

def stock (e : Editor) : Document × List Document × List Document × Int × Nat :=
  (e.doc, e.undos, e.redos, e.firstFrame, e.frameCount)

section

variable {p : Editor → Prop} {a : Animation} {place : Nat} {l : Layer} {e : Editor} {rs : List Row} {rows : List Nat}
  {target? source? : Option Int} {x : Float} {before : Int × Int}

theorem layerAt_eq (h : a.layers[place]? = some l) : layerAt a place = pure l := by
  rw [layerAt, h]

theorem after_editKeys_cases (place : Nat) (edits : List KeyEdit) (e : Editor) :
    after (editKeys place edits) e = e ∨ ∃ a l x, e.doc.anim? = some a ∧ a.layers[place]? = some l ∧
      (x = e.doc.frame ∨ (applyEdits edits { keys := l.keys }).reached? = some x) ∧
      after (editKeys place edits) e =
        after (setFrame x) (withAnim (modifyKeys place (fun _ => (applyEdits edits { keys := l.keys }).keys) a) e) := by
  rw [editKeys, after_get_bind]
  cases ha : e.doc.anim? with
  | none => exact .inl rfl
  | some a =>
    cases hl : a.layers[place]? with
    | none =>
      simp only [layerAt, hl]
      exact .inl rfl
    | some l =>
      refine .inr ⟨a, l, ?_⟩
      simp only [layerAt_eq hl, pure_bind, modifyAnim, after_modify_bind, ha, Option.map_some, true_and, hl]
      generalize applyEdits edits { keys := l.keys } = done
      cases hfault : done.fault? with
      | none => exact ⟨e.doc.frame, .inl rfl, rfl⟩
      | some f =>
        cases hx : done.reached? with
        | none => exact ⟨e.doc.frame, .inl rfl, rfl⟩
        | some x => exact ⟨x, .inr rfl, rfl⟩

theorem dialogRows_eq (h : layerRowsFrom e.hidden a 0 a.layers = (rs, none)) :
    dialogRows e a = pure (rs.map Row.place) := by
  rw [dialogRows, h]
  rfl

theorem chosenAmong_eq {n : Nat} (default? : Option Nat) (h : n ∈ rows) :
    chosenAmong rows default? (some n) = pure (some n) := by
  have hany : (rows.any fun r => decide ((r : Int) = n)) = true :=
    any_eq_true.mpr ⟨n, h, decide_eq_true rfl⟩
  rw [chosenAmong, if_pos hany, Int.toNat_natCast]

theorem after_follow {target source : Nat} (edits : List Key → Int → List KeyEdit)
    (ha : e.doc.anim? = some a) (hrows : layerRowsFrom e.hidden a 0 a.layers = (rs, none))
    (htarget : chosenAmong (rs.map Row.place) e.selected? target? = pure (some target))
    (hsource : chosenAmong (rs.map Row.place) none source? = pure (some source))
    (hne : target ≠ source) (hlayers : 2 ≤ a.layers.length) (hl : a.layers[source]? = some l) :
    after (follow edits target? source?) e =
      after (do editKeys target (edits l.keys a.totalFrames); render) (pushed e) := by
  rw [follow, after_get_bind, ha]
  simp only [if_pos hlayers, dialogRows_eq hrows, htarget, hsource, pure_bind, if_neg hne, layerAt_eq hl]
  rfl

/-! ### Answers that are read -/

theorem keeps_typed {t : Text} : Keeps p (typed t) := by
  unfold typed
  split
  · exact .pure
  · exact .throw

theorem keeps_layerAt : Keeps p (layerAt a place) := by
  unfold layerAt
  split
  · exact .pure
  · exact .throw

theorem keeps_shownFrameText : Keeps p shownFrameText := .seq .get (.seq .ofExcept .pure)

theorem keeps_readCourse {t : Text} : Keeps p (readCourse t) := by
  unfold readCourse
  split
  · exact .pure
  · split
    · exact .pure
    · exact .throw
  · exact .seq keeps_typed .pure

theorem keeps_wholeText : Keeps p (wholeText x) := .seq .ofExcept .pure

theorem keeps_splitExpression {t : Text} : Keeps p (splitExpression t) := by
  unfold splitExpression
  split
  · split
    · exact .seq keeps_wholeText (.seq keeps_wholeText .pure)
    · exact .throw
  · split
    · exact .pure
    · exact .pure

theorem keeps_onScreen : Keeps p (onScreen place before) := .seq .get .pure

theorem keeps_dialogRows : Keeps p (dialogRows e a) := .seq .check .pure

theorem keeps_chosenAmong {default? : Option Nat} {choice? : Option Int} :
    Keeps p (chosenAmong rows default? choice?) := by
  unfold chosenAmong
  split
  · exact .ite .pure .throw
  · exact .pure

theorem keeps_batchNothing : Keeps p batchNothing :=
  .seq .get (.ite (.discard keeps_shownFrameText) .pure)

theorem keeps_followNothing : Keeps p followNothing := by
  refine .bind .get fun e => ?_
  split
  · exact .pure
  · exact .ite (.discard keeps_dialogRows) .pure

theorem keeps_addLayer_none : Keeps p (addLayer none) := by
  refine .bind .get fun e => ?_
  split
  · next h => cases h
  · exact .pure

end

/-! ### Rules -/

/-- What is asked of animations, of the frames that are shown, of times and of positions. Of an
animation less may be asked with every layer that is added. -/
structure Rule where
  /-- What is asked of an animation to which some layers have been added. -/
  anim : Nat → Animation → Prop
  frame : Float → Prop
  time : Int → Prop
  place : Int → Int → Prop

namespace Rule

def anything : Rule := ⟨fun _ _ => True, fun _ => True, fun _ => True, fun _ _ => True⟩

variable (r : Rule)

/-- What an edit of a timeline does to a key frame: nothing, or it changes the opacity or the
position, or it takes over the look of another key frame of the timeline whose fields are in range.
How far a key frame is moved is not known, so that this may lead anywhere. -/
inductive Retouch (ks : List Key) : (Key → Key) → Prop
  | keep : Retouch ks id
  | alpha (n : Int) : Retouch ks (Key.withAlpha n)
  | move (h : ∀ x y, r.place x y) (dx dy : Int) : Retouch ks (Key.moved dx dy)
  | place {x y : Int} (h : r.place x y) : Retouch ks (Key.placed x y)
  | take {k : Key} (hk : k ∈ ks) : Retouch ks fun c => if k.fits then Key.like k c else c

theorem Retouch.time_eq {ks : List Key} {f : Key → Key} (h : r.Retouch ks f) (k : Key) :
    (f k).time = k.time := by
  cases h with
  | take hk =>
    split <;> rfl
  | _ => rfl

structure Within (ks : List Key) (e : KeyEdit) : Prop where
  time : r.time e.time
  change : ∀ f, e.change = .ok (some f) → r.Retouch ks f

/-- Times and the frames that are shown fit together. -/
structure Orderly : Prop where
  zero : r.time 0
  between {s t u} : r.time s → r.time u → s ≤ t → t ≤ u → r.time t
  fraction {t x} : r.time t → Number.fraction t = .ok x → r.frame x
  /-- Key frames are made at the frame that is shown. -/
  cut {x t} : r.frame x → Number.cut x = .ok t → r.time t
  /-- The frame can go on as long as it is not beyond a last one that can be shown instead. -/
  forward {x step last} : r.frame x → ¬step ≤ 0 → r.time last →
    (∀ y, Number.fraction last = .ok y → (Number.whole last).lt (.real (x + step)) = false) → r.frame (x + step)
  /-- The frame can go back as long as it is not before a first one. -/
  backward {x first} : r.frame x → r.time first → Number.lt (.real (x - 1)) (.whole first) = false → r.frame (x - 1)

/-- A property of editors that is kept where key frames are edited. -/
structure Edits (p : Editor → Prop) : Prop extends r.Orderly where
  /-- Only the documents and the list of frames decide it. -/
  same {e e'} : stock e' = stock e → p e → p e'
  pushed {e} : p e → p (pushed e)
  shown {e} : p e → r.frame e.doc.frame
  total {e a} : p e → e.doc.anim? = some a → r.time a.totalFrames
  pose {e a l t q x y} : p e → e.doc.anim? = some a → l ∈ a.layers → poseAt (.whole t) l.keys = .ok (some q) →
    q.posX.trunc = .ok x → q.posY.trunc = .ok y → r.place x y
  setFrame {e x} : p e → r.frame x → p { e with doc := { e.doc with frame := x } }
  setAdjust {e adjust} : p e → p { e with doc := { e.doc with adjust := adjust } }
  keys {e a i l edits} : p e → e.doc.anim? = some a → a.layers[i]? = some l →
    (∀ edit ∈ edits, r.Within l.keys edit) →
    p (withAnim (modifyKeys i (fun _ => (applyEdits edits { keys := l.keys }).keys) a) e)

/-- A property of editors that is kept whatever the user does to an animation, apart from adding
layers. -/
structure Carries (p : Editor → Prop) : Prop extends r.Edits p where
  first {e} : p e → r.time e.doc.range.1
  last {e} : p e → r.time e.doc.range.2
  listed {e} {i : Nat} : p e → i < e.frameCount → r.time (e.firstFrame + i)
  action {e a act} : p e → e.doc.anim? = some a → act ∈ a.actions → r.time act.start ∧ r.time act.stop
  setRange {e s t} : p e → r.time s → r.time t → p { e with doc := { e.doc with range := (s, t) } }
  list {e s n} : p e → (∀ i : Nat, i < n → r.time (s + i)) → p { e with firstFrame := s, frameCount := n }
  reload {e a ws dir} : p e → e.doc.anim? = some a → p (withAnim (loadedFrom ws dir a) e)
  rename {e a i name size} : Probed size → p e → e.doc.anim? = some a → p (withAnim (renameLayer i name size a) e)
  remove {e i} : p e → p (withoutLayer i e)

variable {r} {p : Editor → Prop} {a : Animation} {place : Nat} {l : Layer} {e : Editor} {target? source? place? : Option Int}
  {t s : Int} {x step : Float} {before : Int × Int} {f : Key → Key} {change : Pose → Except Fault (Key → Key)} {tone : Tone}
  {title text path : Text} {answer? : Option Text} {ks : List Key}

theorem orderly_of_forall (hframe : ∀ x, r.frame x) (htime : ∀ t, r.time t) : r.Orderly where
  zero := htime 0
  between _ _ _ _ := htime _
  fraction _ _ := hframe _
  cut _ _ := htime _
  forward _ _ _ _ := hframe _
  backward _ _ _ := hframe _

theorem within_of (ht : r.time t) (hf : r.Retouch ks f) : r.Within ks (.of t f) where
  time := ht
  change g hg := by
    obtain rfl : f = g := Option.some.inj (Except.ok.inj hg)
    exact hf

theorem within_followEdits {source : List Key}
    (hchange : ∀ t p f, poseAt (.whole t) source = .ok (some p) → change p = .ok f → r.Retouch ks f)
    {total : Int} (htime : ∀ t, 0 ≤ t → t ≤ total → r.time t) :
    ∀ e ∈ followEdits change source total, r.Within ks e := by
  intro e he
  obtain ⟨t, ht, rfl⟩ := mem_map.mp he
  obtain ⟨hzero, htotal⟩ := mem_span.mp ht
  refine ⟨htime t hzero htotal, fun f hf => ?_⟩
  obtain ⟨pose?, hpose, hf⟩ := exists_of_bind_ok hf
  split at hf
  · obtain ⟨g, hg, hf⟩ := exists_of_bind_ok hf
    exact Option.some.inj (Except.ok.inj hf) ▸ hchange t _ g hpose hg
  · cases hf

theorem time_max (hs : r.time s) (ht : r.time t) : r.time (max s t) := by
  rcases max_choice s t with h | h
  · rwa [h]
  · rwa [h]

theorem time_min (hs : r.time s) (ht : r.time t) : r.time (min s t) := by
  rcases min_choice s t with h | h
  · rwa [h]
  · rwa [h]

theorem mem_of_layerAt (h : outcome (layerAt a place) e = .ok l) : l ∈ a.layers := by
  unfold layerAt at h
  split at h
  · next hl => exact Except.ok.inj h ▸ mem_of_getElem? hl
  · cases h

/-! ## Key frames -/

namespace Edits

variable (hp : r.Edits p)
include hp

theorem keeps_of_draws {α : Type} {x : Edit α} (hx : Draws x) : Keeps p x := fun e he =>
  hp.same (hx.same (fun _ => rfl) e) he

theorem keeps_render : Keeps p render := hp.keeps_of_draws draws_render

theorem keeps_modify {f : Editor → Editor} (h : ∀ e, stock (f e) = stock e) : Keeps p (modify f) :=
  .modify fun e he => hp.same (h e) he

theorem keeps_say : Keeps p (say tone title text) := hp.keeps_modify fun _ => rfl

theorem keeps_orSay {x : Edit Unit} (hx : Keeps p x) : Keeps p (orSay tone title text x) :=
  .tryCatch hx fun _ => hp.keeps_say

theorem keeps_pushUndo : Keeps p pushUndo := .modify fun _ he => hp.pushed he

theorem keeps_setFrame (hx : r.frame x) : Keeps p (Editor.setFrame x) :=
  .modify fun _ he => hp.setFrame he hx

theorem keeps_goTo (ht : r.time t) : Keeps p (goTo t) :=
  .ofExcept_bind fun _ hx => hp.keeps_setFrame (hp.fraction ht hx)

theorem keeps_visit (ht : r.time t) : Keeps p (visit t) := .seq (hp.keeps_goTo ht) hp.keeps_render

theorem of_editKeys {edits : List KeyEdit} (he : p e)
    (hedits : ∀ a l, e.doc.anim? = some a → a.layers[place]? = some l → ∀ edit ∈ edits, r.Within l.keys edit) :
    p (after (editKeys place edits) e) := by
  rcases after_editKeys_cases place edits e with h | ⟨a, l, x, ha, hl, hx, h⟩
  · rwa [h]
  · rw [h]
    refine hp.keeps_setFrame ?_ _ (hp.keys he ha hl (hedits a l ha hl))
    rcases hx with rfl | hx
    · exact hp.shown he
    · rcases reached_applyEdits hx with hx | ⟨edit, hedit, hx⟩
      · cases hx
      · exact hp.fraction (hedits a l ha hl edit hedit).time hx

theorem keeps_editKeys {edits : List KeyEdit} (hedits : ∀ ks, ∀ e ∈ edits, r.Within ks e) :
    Keeps p (editKeys place edits) := fun _ he =>
  hp.of_editKeys he fun _ l _ _ => hedits l.keys

theorem of_editShownKey (he : p e)
    (hf : ∀ a l, e.doc.anim? = some a → a.layers[place]? = some l → r.Retouch l.keys f) :
    p (after (editShownKey place f) e) := by
  simp only [editShownKey, after_get_bind]
  cases ht : Number.cut e.doc.frame with
  | error _ => exact he
  | ok t =>
    refine of_after_tryCatch (hp.of_editKeys he fun a l ha hl => ?_) fun _ => ?_
    · exact forall_mem_singleton.mpr (within_of (hp.cut (hp.shown he) ht) (hf a l ha hl))
    · exact .seq (hp.keeps_setFrame (hp.shown he)) .throw

theorem keeps_editShownKey (hf : ∀ ks, r.Retouch ks f) : Keeps p (editShownKey place f) := fun _ he =>
  hp.of_editShownKey he fun _ l _ _ => hf l.keys

theorem keeps_onAlphaEntered : Keeps p onAlphaEntered := by
  refine .bind .get fun e => ?_
  split
  · split
    · exact .pure
    · refine .seq (.discard keeps_layerAt) (.seq hp.keeps_pushUndo ?_)
      refine .seq (hp.keeps_editShownKey fun _ => .alpha _) ?_
      exact .seq (hp.keeps_modify fun _ => rfl) hp.keeps_render
  · exact .pure

theorem keeps_nudgeAlpha {step : Int} : Keeps p (nudgeAlpha step) :=
  .seq .get (.ite (.seq (hp.keeps_modify fun _ => rfl) hp.keeps_onAlphaEntered) .pure)

theorem keeps_inheritPrevious : Keeps p inheritPrevious := by
  intro e he
  rw [inheritPrevious, after_get_bind]
  split
  · next place a _ ha =>
    cases hl : a.layers[place]? with
    | none =>
      rw [layerAt, hl]
      exact he
    | some l =>
      rw [layerAt_eq hl, pure_bind]
      cases Number.cut e.doc.frame with
      | error _ => exact he
      | ok t =>
        rw [after_ofExcept_bind]
        split
        · exact he
        · next k hk =>
          rw [pushUndo, after_modify_bind]
          refine of_after_bind (hp.of_editShownKey (hp.pushed he) fun b m hb hm => .take ?_) fun _ =>
            .ite (.seq .throw hp.keeps_render) hp.keeps_render
          -- the key frame is one of the timeline that is edited
          rw [pushed_of_isSome (Option.isSome_of_mem ha)] at hb
          obtain rfl := Option.some.inj (ha.symm.trans hb)
          obtain rfl := Option.some.inj (hl.symm.trans hm)
          exact mem_of_previousKey? hk
  · exact he

theorem keeps_follow
    (hchange : ∀ ks e a l t q f, p e → e.doc.anim? = some a → l ∈ a.layers →
      poseAt (.whole t) l.keys = .ok (some q) → change q = .ok f → r.Retouch ks f) :
    Keeps p (follow (followEdits change) target? source?) := by
  refine .get_bind fun e he => ?_
  split
  · exact .pure
  · next a ha =>
    refine .ite (.bind keeps_dialogRows fun rows => ?_) .pure
    refine .bind keeps_chosenAmong fun target? => .bind keeps_chosenAmong fun source? => ?_
    split
    · refine .ite hp.keeps_say (.bind_of keeps_layerAt fun _ l _ hl => .bind hp.keeps_pushUndo fun _ => ?_)
      refine .seq (hp.keeps_editKeys fun ks => ?_) hp.keeps_render
      exact within_followEdits (fun t q f => hchange ks e a l t q f he ha (mem_of_layerAt hl))
        fun t => hp.between hp.zero (hp.total he ha)
    · exact hp.keeps_say

theorem keeps_followAlpha : Keeps p (followAlpha target? source?) :=
  hp.keeps_follow fun _ _ _ _ _ _ _ _ _ _ _ hf => Except.ok.inj hf ▸ .alpha _

theorem keeps_followPosition : Keeps p (followPosition target? source?) := by
  refine hp.keeps_follow fun _ e a l t q f he ha hl hq hf => ?_
  obtain ⟨x, hx, hf⟩ := exists_of_bind_ok hf
  obtain ⟨y, hy, hf⟩ := exists_of_bind_ok hf
  exact Except.ok.inj hf ▸ .place (hp.pose he ha hl hq hx hy)

section Places

variable (hplace : ∀ x y, r.place x y)
include hplace

theorem keeps_moveChosen {x y : Int} : Keeps p (moveChosen place a x y) := by
  refine .bind .get fun e => .bind keeps_typed fun newX => .bind keeps_typed fun newY => ?_
  refine .bind .ofExcept fun dx => .bind .ofExcept fun dy => .ite (.seq hp.keeps_pushUndo ?_) .pure
  exact .seq (.discard keeps_layerAt) (hp.keeps_editShownKey fun _ => .move hplace dx dy)

theorem keeps_onFieldsEntered : Keeps p onFieldsEntered := by
  refine .bind .get fun e => ?_
  split
  · next place _ _ =>
    have hadjust {adjust : Text} : Keeps p (do
        modify fun e => { e with doc := { e.doc with adjust := Assoc.insert place adjust e.doc.adjust } }
        render) :=
      .seq (.modify fun e he => hp.setAdjust he) hp.keeps_render
    cases Assoc.get? place e.screen with
    | none => exact hadjust
    | some corner =>
      cases e.doc.anim? with
      | none => exact hadjust
      | some a => exact .ite (.seq (.tryCatch (hp.keeps_moveChosen hplace) fun _ => .pure) hadjust) hadjust
  · exact .pure

theorem keeps_nudge {dx dy : Int} : Keeps p (nudge dx dy) := by
  refine .bind .get fun e => ?_
  split
  · exact .pure
  · refine .bind .ofExcept fun xText => .seq (hp.keeps_modify fun _ => rfl) ?_
    refine .bind .ofExcept fun yText => .seq (hp.keeps_modify fun _ => rfl) ?_
    exact hp.keeps_onFieldsEntered hplace

end Places

/-! ### Ranges of frames -/

theorem keeps_anchor {ts : List Int} (hts : ∀ t ∈ ts, r.time t) : Keeps p (anchor place ts) := by
  induction ts with
  | nil => exact .pure
  | cons t ts ih =>
    obtain ⟨ht, hts⟩ := forall_mem_cons.mp hts
    refine .seq (hp.keeps_visit ht) (.seq (hp.keeps_editKeys fun _ => ?_) (ih hts))
    exact forall_mem_singleton.mpr (within_of ht .keep)

theorem keeps_moveAlong (hplace : ∀ x y, r.place x y) {base : Int × Int} {first : Int}
    {cx cy : Course} {m : Nat} {passed : Int}
    (htimes : ∀ i : Nat, i < m → r.time (first + (passed + i))) :
    Keeps p (moveAlong place before base first cx cy m passed) := by
  induction m generalizing passed with
  | zero => exact .pure
  | succ m ih =>
    have ht : r.time (first + passed) := by simpa using htimes 0 m.succ_pos
    have hmore : Keeps p (moveAlong place before base first cx cy m (passed + 1)) := ih fun i hi => by
      simpa [add_assoc, add_comm (1 : Int)] using htimes (i + 1) (by omega)
    refine .seq (hp.keeps_visit ht) (.bind keeps_onScreen fun at_ => .bind .get fun e => ?_)
    refine .ite (.bind .ofExcept fun dx => .bind .ofExcept fun dy => ?_) hmore
    refine .seq (hp.keeps_editKeys fun _ => ?_) hmore
    exact forall_mem_singleton.mpr (within_of ht (.move hplace dx dy))

end Edits

/-! ### Frames -/

theorem not_le_of_frameStep {speed : Number} (h : frameStep a speed = .ok step) : ¬step ≤ 0 := by
  have hforward (x : Float) : ¬(if x ≤ 0 then 1 else x) ≤ 0 := by
    split
    · decide
    · assumption
  unfold frameStep at h
  split at h
  all_goals
    obtain ⟨rate, -, h⟩ := exists_of_bind_ok h
    obtain ⟨factor, -, h⟩ := exists_of_bind_ok h
    exact Except.ok.inj h ▸ hforward _

namespace Carries

variable (hp : r.Carries p)
include hp

theorem keeps_chooseFrame {i : Int} : Keeps p (chooseFrame i) :=
  hp.keeps_of_draws (draws_chooseFrame i)

theorem keeps_chooseRow {place : Int} : Keeps p (chooseRow place) :=
  hp.keeps_of_draws (draws_chooseRow place)

theorem keeps_fillLayers : Keeps p fillLayers := hp.keeps_of_draws draws_fillLayers

theorem keeps_fillFiles {dir : Text} : Keeps p (fillFiles dir path) :=
  hp.keeps_of_draws (draws_fillFiles dir path)

theorem keeps_chooseShownFrame : Keeps p chooseShownFrame :=
  .seq .get (.seq .ofExcept hp.keeps_chooseFrame)

theorem keeps_renderIfStill : Keeps p renderIfStill := .seq .get (.ite hp.keeps_render .pure)

theorem keeps_pause : Keeps p pause := hp.keeps_modify fun _ => rfl

theorem keeps_fillFrames : Keeps p fillFrames := by
  refine .seq (.modify fun e he => ?_) (.get_bind fun e he => ?_)
  · exact hp.same (by rfl) (hp.list (s := e.firstFrame) (n := 0) he fun i hi => nomatch hi)
  · split
    · exact .pure
    · next a ha =>
      have hstop := time_min (hp.last he) (hp.total he ha)
      have hstart := time_max hp.zero (time_min (hp.first he) hstop)
      refine .seq (.modify fun e he => hp.list he fun i hi => ?_) (.bind .ofExcept fun i => hp.keeps_chooseFrame)
      exact hp.between hstart hstop (by omega) (by omega)

theorem keeps_fillActions : Keeps p fillActions := by
  refine .seq (hp.keeps_modify fun _ => rfl) (.get_bind fun e he => ?_)
  split
  · exact .pure
  · next a ha =>
    refine .seq (hp.keeps_modify fun _ => rfl) ?_
    split
    · exact hp.keeps_fillFrames
    · next first more hactions =>
      obtain ⟨hstart, hstop⟩ := hp.action he ha (hactions ▸ mem_cons_self)
      refine .seq (.modify fun e he => ?_) hp.keeps_fillFrames
      exact hp.same (by rfl) (hp.setRange he hstart hstop)

theorem keeps_onActionChoice : Keeps p onActionChoice := by
  refine .get_bind fun e he => ?_
  split
  · next a i ha _ =>
    split
    · exact .pure
    · next action haction =>
      obtain ⟨hstart, hstop⟩ := hp.action he ha (mem_of_getElem? haction)
      refine .seq (.modify fun e he => hp.setRange he hstart hstop) (.seq hp.keeps_fillFrames ?_)
      exact .seq (hp.keeps_goTo hstart) (.seq hp.keeps_chooseFrame hp.keeps_render)
  · exact .pure

theorem keeps_onFrameChoice : Keeps p onFrameChoice := by
  refine .get_bind fun e he => .ite ?_ .pure
  split
  · exact .pure
  · next i _ _ =>
    refine .ite_of (fun hi => ?_) fun _ => hp.keeps_render
    simp only [Bool.and_eq_true, decide_eq_true_eq] at hi
    have htime := hp.listed (i := i.toNat) he (by omega)
    rw [Int.toNat_of_nonneg hi.1] at htime
    exact .seq (hp.keeps_goTo htime) hp.keeps_render

theorem keeps_play : Keeps p play := by
  have hstart : Keeps p (modify fun e => { e with playing := true, playLabel := "暂停" }) := hp.keeps_modify fun _ => rfl
  refine .get_bind fun e he => .ite (.ite ?_ hstart) .pure
  exact .seq (hp.keeps_goTo (hp.first he)) (.seq hp.keeps_chooseFrame hstart)

theorem keeps_togglePlay : Keeps p togglePlay :=
  .seq .get (.ite (.ite hp.keeps_pause hp.keeps_play) .pure)

theorem keeps_stop : Keeps p stop := by
  refine .seq hp.keeps_pause (.get_bind fun e he => .ite ?_ .pure)
  exact .seq (hp.keeps_goTo (hp.first he)) (.seq hp.keeps_chooseFrame hp.keeps_render)

theorem keeps_showFrame : Keeps p (do chooseShownFrame; renderIfStill) :=
  .seq hp.keeps_chooseShownFrame hp.keeps_renderIfStill

theorem keeps_stepForward : Keeps p stepForward := by
  refine .get_bind fun e he => ?_
  split
  · exact .pure
  · next a ha =>
    have hlast := time_max hp.zero (time_min (hp.total he ha) (hp.last he))
    refine .ite_of (fun _ => .seq (hp.keeps_goTo hlast) hp.keeps_showFrame) fun hle => ?_
    refine .seq (hp.keeps_setFrame ?_) hp.keeps_showFrame
    exact hp.forward (hp.shown he) (by decide) hlast fun _ _ => Bool.eq_false_of_not_eq_true hle

theorem keeps_stepBackward : Keeps p stepBackward := by
  refine .get_bind fun e he => ?_
  split
  · exact .pure
  · have hfirst := hp.first he
    refine .ite_of (fun _ => .seq (hp.keeps_goTo hfirst) hp.keeps_showFrame) fun hle => ?_
    refine .seq (hp.keeps_setFrame ?_) hp.keeps_showFrame
    exact hp.backward (hp.shown he) hfirst (Bool.eq_false_of_not_eq_true hle)

theorem keeps_advance {last : Int} (hstep : ¬step ≤ 0) (hlast : r.time last) :
    Keeps p (advance step last) := by
  refine .get_bind fun e he => .ite ?_ (.seq (hp.keeps_goTo hlast) hp.keeps_pause)
  split
  · intro e' he'
    rw [setFrame, after_modify_bind, goTo]
    cases hx : Number.fraction last with
    | ok x => exact hp.setFrame (e := e') he' (hp.fraction hlast hx)
    | error f =>
      exact hp.setFrame he' (hp.forward (hp.shown he) hstep hlast fun y hy => by rw [hx] at hy; cases hy)
  · next hle =>
    have hframe := hp.forward (hp.shown he) hstep hlast fun _ _ => Bool.eq_false_of_not_eq_true hle
    exact .seq (hp.keeps_setFrame hframe) .pure

theorem keeps_tick : Keeps p tick := by
  refine .get_bind fun e he => ?_
  split
  · next a _ ha =>
    have hlast : r.time (max (if e.doc.range.2 ≤ e.doc.range.1 then (0, a.totalFrames) else e.doc.range).1
        (if e.doc.range.2 ≤ e.doc.range.1 then (0, a.totalFrames) else e.doc.range).2) := by
      split
      · exact time_max hp.zero (hp.total he ha)
      · exact time_max (hp.first he) (hp.last he)
    refine .ofExcept_bind fun step hstep => .seq (hp.keeps_advance (not_le_of_frameStep hstep) hlast) ?_
    exact .seq hp.keeps_chooseShownFrame hp.keeps_render
  · exact hp.keeps_render

/-! ### Pictures and layers -/

theorem leads_modifyAnim {q : Editor → Prop} (hpq : ∀ e, p e → q e) {f : Animation → Animation}
    (hf : ∀ e a, p e → e.doc.anim? = some a → q (withAnim (f a) e)) : Leads p q (modifyAnim f) := by
  intro e he
  have hafter : after (modifyAnim f) e = { e with doc := { e.doc with anim? := e.doc.anim?.map f } } := rfl
  rw [hafter]
  cases ha : e.doc.anim? with
  | none => exact hpq _ (hp.same (by rw [stock, Option.map_none, ← ha]; rfl) he)
  | some a => exact hf e a he ha

theorem keeps_loadAll : Keeps p loadAll := by
  intro e he
  rw [loadAll, after_get_bind]
  split
  · exact he
  · next a ha =>
    simp only [modifyAnim, after_modify_bind, after_check, ha]
    exact hp.reload he ha

theorem keeps_refresh : Keeps p refresh :=
  .seq hp.keeps_loadAll (.seq hp.keeps_fillLayers (.seq hp.keeps_fillActions hp.keeps_render))

theorem keeps_renameChosen : Keeps p (renameChosen answer?) := by
  refine .bind .get fun e => ?_
  split
  · refine .ite (.seq hp.keeps_pushUndo (.seq (hp.leads_modifyAnim (fun _ => id) fun _ _ => ?_) ?_)) .pure
    · exact hp.rename (probed_probedSize e _)
    · refine .seq hp.keeps_loadAll (.seq hp.keeps_fillLayers ?_)
      exact .seq hp.keeps_chooseRow hp.keeps_render
  · exact .pure

theorem keeps_deleteChosen : Keeps p deleteChosen := by
  refine .bind .get fun e => ?_
  split
  · refine .ite (.seq hp.keeps_pushUndo (.seq (.modify fun e he => hp.remove he) ?_)) .pure
    exact .seq hp.keeps_fillLayers hp.keeps_render
  · exact .pure

theorem keeps_onLayerChoice : Keeps p onLayerChoice := by
  refine .bind .get fun e => ?_
  split
  · exact hp.keeps_modify fun _ => rfl
  · refine .seq (hp.keeps_modify fun _ => rfl) (.bind .get fun e => ?_)
    split
    · exact .throw
    · refine .seq keeps_layerAt (.seq .get (.seq .ofExcept ?_))
      exact .seq (hp.keeps_modify fun _ => rfl) hp.keeps_render

theorem keeps_clickRow {onMark : Bool} : Keeps p (clickRow place? onMark) := by
  refine .bind .get fun e => ?_
  split
  · refine .seq (hp.keeps_modify fun _ => rfl) (.seq hp.keeps_fillLayers ?_)
    exact .seq hp.keeps_chooseRow (.seq (hp.keeps_modify fun _ => rfl) hp.keeps_render)
  · exact .pure

theorem keeps_openRowMenu : Keeps p (openRowMenu place?) := by
  refine .bind .get fun e => ?_
  split
  · exact .seq hp.keeps_chooseRow (hp.keeps_modify fun _ => rfl)
  · exact .pure

/-! ### Files -/

theorem keeps_load (hopen : ∀ e bs a, decode bs = .ok a → p e →
    p { e with doc := { e.doc with anim? := some a, frame := 0, adjust := [] } }) : Keeps p (load path) := by
  refine hp.keeps_orSay (.bind .get fun e => .bind .ofExcept fun f => .ofExcept_bind fun a ha => ?_)
  exact .seq (.modify fun e he => hp.same (by rfl) (hopen e f.bytes a ha he)) hp.keeps_refresh

theorem keeps_writeTo : Keeps p (writeTo a path) :=
  .seq .ofExcept (.seq .get (.seq (hp.keeps_modify fun _ => rfl) .ofExcept))

theorem keeps_save : Keeps p save := by
  refine .bind .get fun e => ?_
  split
  · exact .pure
  · exact .ite (hp.keeps_orSay (.seq hp.keeps_writeTo hp.keeps_say)) .pure

theorem keeps_saveAs : Keeps p (saveAs answer?) := by
  refine .bind .get fun e => ?_
  split
  · refine hp.keeps_orSay (.seq hp.keeps_writeTo (.seq (hp.keeps_modify fun _ => rfl) ?_))
    exact .seq hp.keeps_fillFiles hp.keeps_say
  · exact .pure

end Carries

end Rule

end Localizer.Editor
