import Localizer.Proofs.Animation.Look
import Localizer.Proofs.Editor.RuleRun

/-!
# Editing key frames

However key frames are edited, the timelines of an animation grow (`Grows`): key frames stay where
they are, and one that is made for an edit is a copy of the one before it at that moment, which the
edit then changes. Letting a layer follow another one makes a key frame at every frame of the
animation, each a copy of one that has just been changed, and so gives it the opacity or the
position of the other at every frame.
-/

namespace Localizer.Editor

open Text Animation Number List

/-! ## The opacity within a range of frames

The dialogue that sets the opacity within a range promises that other frames are left alone. It
keeps its promise as far as the borders of the range are at key frames or do not lie between any
two. Otherwise what is shown outside of the range changes, up to the nearest key frames. -/

variable {e : Editor} {a : Animation} {place : Nat}

theorem typed_eq {t : Text} {n : Int} (h : typed? t = some n) : typed t = pure n := by
  rw [typed, h]

theorem after_shownFrameText_bind {shown : Int} (h : cut e.doc.frame = .ok shown)
    (f : Text → Edit Unit) : after (shownFrameText >>= f) e = after (f (decimalInt shown)) e := by
  rw [shownFrameText, bind_assoc, after_get_bind, bind_assoc, h, after_ofExcept_bind, pure_bind]

theorem after_editKeys {l : Layer} {edits : List KeyEdit} {ks : List Key}
    (ha : e.doc.anim? = some a) (hl : a.layers[place]? = some l) (h : Sweeps edits l.keys ks) :
    after (editKeys place edits) e =
      { e with doc := { e.doc with anim? := some (modifyKeys place (fun _ => ks) a) } } := by
  obtain ⟨hkeys, hfault⟩ := h { keys := l.keys } rfl rfl
  rw [editKeys, after_get_bind]
  simp only [ha, layerAt_eq hl, pure_bind, modifyAnim, after_modify_bind, hkeys, hfault, after_pure, Option.map_some]

theorem anim_batchAlpha {l : Layer} {first? last? alpha? : Option Text}
    {shown m n c : Int} {ks : List Key} (hselected : e.selected? = some place) (ha : e.doc.anim? = some a)
    (hl : a.layers[place]? = some l) (hshown : cut e.doc.frame = .ok shown)
    (hm : typed? (first?.getD "0") = some m) (hn : typed? (last?.getD (decimalInt shown)) = some n)
    (hc : typed? (alpha?.getD "255") = some c)
    (h : Sweeps (alphaEdits (max 0 (min m n)) (min a.totalFrames (max m n)) (max 0 (min 255 c)) a.totalFrames) l.keys ks) :
    (after (batchAlpha first? last? alpha?) e).doc.anim? = some (modifyKeys place (fun _ => ks) a) := by
  set edits := alphaEdits (max 0 (min m n)) (min a.totalFrames (max m n)) (max 0 (min 255 c)) a.totalFrames with hedits
  let p : Editor → Prop := fun e => e.doc.anim? = some (modifyKeys place (fun _ => ks) a)
  have hpushed : (pushed e).doc.anim? = some a := by rw [pushed_of_isSome (by simp [ha]), ha]
  have hedited : p (after (editKeys place edits) (pushed e)) := congrArg (·.doc.anim?) (after_editKeys hpushed hl h)
  have hdrawn : p (after (do editKeys place edits; render) (pushed e)) :=
    of_after_bind hedited fun _ e he => (draws_render.same (f := (·.doc.anim?)) (fun _ => rfl) e).trans he
  have hwork : p (after (do discard (layerAt a place); pushUndo; editKeys place edits; render) e) := by
    rwa [layerAt_eq hl]
  rw [batchAlpha, after_get_bind]
  simp only [hselected, ha]
  rw [after_shownFrameText_bind hshown]
  simp only [typed_eq hm, typed_eq hn, typed_eq hc, pure_bind]
  exact of_after_tryCatch (p := p) hwork fun _ => .modify fun _ he => he

theorem getElem?_modifyKeys {l : Layer} (hl : a.layers[place]? = some l) (ks : List Key) :
    (modifyKeys place (fun _ => ks) a).layers[place]? = some { l with keys := ks } := by
  simp [modifyKeys, hl]

/-- **Frames outside of the range.** Where the opacity of a layer is set within a range, frames
before the range look as the border just before it leaves them, and frames behind it as the border
just behind it does. They look as before if the border is settled. -/
theorem look_outside_batchAlpha {e : Editor} {a : Animation} {place : Nat} {l : Layer}
    {first? last? alpha? : Option Text} {shown m n c : Int} (hselected : e.selected? = some place)
    (ha : e.doc.anim? = some a) (hl : a.layers[place]? = some l) (hkeys : Editable l.keys)
    (hshown : Number.cut e.doc.frame = .ok shown) (hm : typed? (first?.getD "0") = some m)
    (hn : typed? (last?.getD (decimalInt shown)) = some n)
    (hc : typed? (alpha?.getD "255") = some c) (hend : n.natAbs < 2 ^ 53)
    (htotal : a.totalFrames.natAbs < 2 ^ 53) :
    let first := max 0 (min m n)
    let last := min a.totalFrames (max m n)
    let behind := max first (last + 1)
    ∃ b l', (after (batchAlpha first? last? alpha?) e).doc.anim? = some b ∧ b.layers[place]? = some l' ∧
      ∀ t, 0 ≤ t → t ≤ a.totalFrames →
        (t < first → lookAt t l'.keys = lookAt t (sealedBefore (first - 1) t l.keys) ∧
          (Settled (first - 1) l.keys → lookAt t l'.keys = lookAt t l.keys)) ∧
        (last < t → lookAt t l'.keys = lookAt t (sealedAfter behind t l.keys) ∧
          (Settled behind l.keys → lookAt t l'.keys = lookAt t l.keys)) := by
  obtain ⟨ks, hsweep, hlook⟩ := hkeys.exists_alphaEdits (m := m) (max 0 (min 255 c)) hend htotal
  refine ⟨_, _, anim_batchAlpha hselected ha hl hshown hm hn hc hsweep, getElem?_modifyKeys hl ks, fun t hzero ht => ?_⟩
  obtain ⟨hbefore, hafter⟩ := hlook t hzero ht
  refine ⟨fun hlt => ⟨hbefore hlt, fun hsettled => ?_⟩, fun hlt => ⟨hafter hlt, fun hsettled => ?_⟩⟩
  · rw [hbefore hlt, sealedBefore_of_settled hsettled (by omega)]
  · rw [hafter hlt, hkeys.lookAt_sealedAfter hsettled (by omega)]

def sliding : Layer where
  id := 0
  picture := 0
  name := []
  keys := [(defaultKey 0).placed 0 0, (defaultKey 10).placed 100 0]

def showingSlide : Editor where
  files := { cwd := "/" }
  canvas := ⟨640, 480, [], none, []⟩
  doc := { anim? := some { tickRate := 30, totalFrames := 12, markerA := 0, markerB := 0, layers := [sliding] } }
  selected? := some 0

theorem editable_sliding : Editable sliding.keys := ⟨by unfold Ordered; decide, by decide⟩

theorem cut_zero : cut 0 = .ok 0 := cut_of_value (by rw [Decimal.value?_zero, Int.cast_zero])

/-- A range that ends just before a key frame leaves the frames behind it alone. -/
theorem look_outside_batchAlpha_slide :
    ∃ b l', (after (batchAlpha (some "0") (some "9") (some "128")) showingSlide).doc.anim? = some b ∧
      b.layers[0]? = some l' ∧ lookAt 11 l'.keys = lookAt 11 sliding.keys := by
  have hopen : enclosing? (.whole 10) sliding.keys = none := by decide
  obtain ⟨b, l', hb, hl', h⟩ := @look_outside_batchAlpha showingSlide _ 0 sliding (some "0") (some "9") (some "128") 0 0 9
    128 rfl rfl rfl editable_sliding cut_zero (by decide) (by decide) (by decide) (by decide) (by decide)
  refine ⟨b, l', hb, hl', ((h 11 (by decide) (by decide)).2 (by decide)).2 ⟨by decide, fun k l hpair => ?_⟩⟩
  exact nomatch hopen.symm.trans hpair

/-- The integer part of the horizontal position at a frame. -/
def shownX (t : Int) (ks : List Key) : Option Int :=
  match lookAt t ks with
  | .ok (some v) => (cut v.posX).toOption
  | _ => none

/-- Setting the opacity at frame 5 moves the layer at frame 3. -/
theorem look_before_batchAlpha_slide :
    ∃ b l', (after (batchAlpha (some "5") (some "5") (some "128")) showingSlide).doc.anim? = some b ∧
      b.layers[0]? = some l' ∧ shownX 3 sliding.keys = some 30 ∧ shownX 3 l'.keys = some 0 := by
  obtain ⟨ks, hsweep, hlook⟩ := editable_sliding.exists_alphaEdits (m := 5) (n := 5) 128 (by decide)
    (show (12 : Int).natAbs < 2 ^ 53 by decide)
  have hanim := @anim_batchAlpha showingSlide _ 0 sliding (some "5") (some "5") (some "128") 0 5 5 128 ks rfl rfl rfl cut_zero
    (by decide) (by decide) (by decide) hsweep
  refine ⟨_, _, hanim, getElem?_modifyKeys rfl ks, by decide, ?_⟩
  have hbefore : lookAt 3 ks = lookAt 3 (sealedBefore 4 3 sliding.keys) := (hlook 3 (by decide) (by decide)).1 (by decide)
  rw [shownX, hbefore]
  decide +kernel

/-! ## Editing key frames -/

variable {change : Pose → Except Fault (Key → Key)} {agrees : Pose → Key → Prop}

/-! ### Timelines that grow -/

/-- What the commands do to a key frame of a timeline: nothing, or they change its opacity or its
position, or let it take over the look of another one of the timeline. -/
abbrev Touch : List Key → (Key → Key) → Prop := Rule.anything.Retouch

/-- An animation has come from another one by letting the timelines of its layers grow, as far as
they are in order. -/
structure Regrown (a b : Animation) : Prop where
  length : b.layers.length = a.layers.length
  layer : ∀ (i : Nat) (l : Layer), a.layers[i]? = some l →
    ∃ ks, b.layers[i]? = some { l with keys := ks } ∧ (Ordered l.keys → Grows Touch l.keys ks)

theorem Regrown.refl (a : Animation) : Regrown a a :=
  ⟨rfl, fun _ l hl => ⟨l.keys, hl, fun _ => .refl⟩⟩

theorem Regrown.modifyKeys {b : Animation} (h : Regrown a b) {i : Nat} {l : Layer}
    (hl : b.layers[i]? = some l) {edits : List KeyEdit}
    (hedits : ∀ e ∈ edits, ∀ f, e.change = .ok (some f) → Touch l.keys f) :
    Regrown a (modifyKeys i (fun _ => (applyEdits edits { keys := l.keys }).keys) b) := by
  refine ⟨(length_modify _ _ _).trans h.length, fun j m hm => ?_⟩
  obtain ⟨ks, hks, hgrows⟩ := h.layer j m hm
  by_cases hij : i = j
  · subst hij
    obtain rfl := Option.some.inj (hks.symm.trans hl)
    refine ⟨_, getElem?_modifyKeys hl _, fun hs => (hgrows hs).trans ?_⟩
    exact Grows.applyEdits (fun _ _ hf => hf.time_eq) hedits (s := { keys := ks }) ((hgrows hs).ordered hs)
  · exact ⟨ks, by simp [Animation.modifyKeys, hij, hks], hgrows⟩

def SameAlpha (p : Pose) (k : Key) : Prop := alpha k.color1 = alpha p.color1

/-- The key frame has the position of the pose, without fractions. -/
def SamePlace (p : Pose) (k : Key) : Prop := p.posX.trunc = .ok k.posX ∧ p.posY.trunc = .ok k.posY

/-- A timeline has come to follow another one: it has exactly one key frame at every frame, which is
as the other one is seen there. The key frames that it had keep their colour apart from the opacity.
-/
structure Follows (agrees : Pose → Key → Prop) (total : Int) (source ks ks' : List Key) : Prop where
  frames : ∀ t, 0 ≤ t → t ≤ total → ∃ p k, poseAt (.whole t) source = .ok (some p) ∧
    (ks'.filter fun l => l.time = t) = [k] ∧ agrees p k
  colours : ∀ k ∈ ks, ∃ k' ∈ ks', k'.time = k.time ∧ k'.color1 % 0x1000000 = k.color1 % 0x1000000

/-- A change of key frames copies something of a pose, and leaves their times and the rest of their
colours alone. -/
def Copies (agrees : Pose → Key → Prop) (p : Pose) (f : Key → Key) : Prop :=
  ∀ k : Key, (f k).time = k.time ∧ (k.fits → (f k).fits) ∧ (f k).color1 % 0x1000000 = k.color1 % 0x1000000 ∧ agrees p (f k)

/-- The edits by which a layer follows another one reach their end. Each changes the key frame of
one frame. -/
theorem exists_followEdits
    (hchange : ∀ p : Pose, p.Placed → ∃ f, change p = .ok f ∧ Copies agrees p f)
    {ks source : List Key} {total : Int} (hks : Editable ks) (hsource : Editable source)
    (hne : source ≠ []) (htotal : total < 2 ^ 53) :
    ∃ ks', Sweeps (followEdits change source total) ks ks' ∧
      Follows agrees total source ks ks' := by
  have hpose (t : Int) : ∃ p f, poseAt (.whole t) source = .ok (some p) ∧ change p = .ok f ∧ Copies agrees p f := by
    obtain ⟨p, hp, hplaced⟩ := hsource.exists_poseAt hne t
    obtain ⟨f, hf, hspec⟩ := hchange p hplaced
    exact ⟨p, f, hp, hf, hspec⟩
  choose p f hp hf hspec using hpose
  have hedits : followEdits change source total = (span 0 total).map fun t => .of t (f t) := by
    refine map_congr_left fun t _ => ?_
    rw [hp t]
    change KeyEdit.mk t (change (p t) >>= fun g => .ok (some g)) = _
    rw [hf t]
    rfl
  have htimes : ∀ t ∈ span 0 total, t.natAbs < 2 ^ 53 := fun t ht => by
    have := mem_span.mp ht
    omega
  obtain ⟨ks', hsweep, hre, -⟩ := hks.exists_sweep (f := f) (fun t k => (hspec t k).1) (fun t k => (hspec t k).2.1) htimes
  refine ⟨ks', hedits ▸ hsweep, fun t hzero ht => ?_, fun k hk => ?_⟩
  · obtain ⟨k, rfl, hmem, -⟩ := hre.made t (mem_span.mpr ⟨hzero, ht⟩)
    have hone := hre.editable.ordered.filter_time hmem
    rw [(hspec k.time k).1] at hone
    exact ⟨p k.time, f k.time k, hp k.time, hone, (hspec k.time k).2.2.2⟩
  · by_cases hspan : k.time ∈ span 0 total
    · obtain ⟨k', hk', hmem, hold⟩ := hre.made k.time hspan
      obtain rfl := hold (nodup_span 0 total) k hk rfl
      exact ⟨_, hmem, (hspec k.time k).1, (hspec k.time k).2.2.1⟩
    · exact ⟨k, (hre.others k hspan).mpr hk, rfl, rfl⟩

theorem alpha_setAlpha (c d : Int) : alpha (setAlpha (alpha c) d) = alpha c ∧
    setAlpha (alpha c) d % 0x1000000 = d % 0x1000000 := by
  simp only [alpha, setAlpha, channel, Nat.pow_eq, Nat.reducePow]
  omega

theorem fits_placed {x y : Int} (hx : Word.FitsSigned x) (hy : Word.FitsSigned y) {k : Key}
    (h : k.fits) : (k.placed x y).fits := by
  have hfits := fits_iff.mp h
  refine fits_iff.mpr ⟨hfits.unsigned, fun n hn => ?_⟩
  simp only [Key.placed, mem_cons, not_mem_nil, or_false] at hn
  rcases hn with rfl | rfl | rfl | rfl | rfl | rfl | rfl | rfl
  all_goals first | assumption | exact hfits.signed _ (by simp)

section

variable {e : Editor} {a : Animation} {target source : Nat} {l m : Layer} {rs : List Row} {target? source? : Option Int}
  (ha : e.doc.anim? = some a) (hl : a.layers[target]? = some l) (hm : a.layers[source]? = some m)
  (hne : target ≠ source) (hlkeys : Editable l.keys) (hmkeys : Editable m.keys) (hkeys : m.keys ≠ [])
  (htotal : a.totalFrames < 2 ^ 53) (hrows : layerRowsFrom e.hidden a 0 a.layers = (rs, none))
  (htarget : chosenAmong (rs.map Row.place) e.selected? target? = pure (some target))
  (hsource : chosenAmong (rs.map Row.place) none source? = pure (some source))
include ha hl hm hne hlkeys hmkeys hkeys htotal hrows htarget hsource

/-- A layer follows another one, and nothing else changes in the document that is shown. -/
theorem exists_follow (hchange : ∀ p : Pose, p.Placed → ∃ f, change p = .ok f ∧ Copies agrees p f) :
    ∃ b ks, (after (follow (followEdits change) target? source?) e).doc = { e.doc with anim? := some b } ∧
      b.layers[source]? = some m ∧ b.layers[target]? = some { l with keys := ks } ∧
      Follows agrees a.totalFrames m.keys l.keys ks := by
  obtain ⟨ks, hsweep, hfollows⟩ := exists_followEdits hchange hlkeys hmkeys hkeys htotal
  have hlayers : 2 ≤ a.layers.length := by
    obtain ⟨htarget, -⟩ := List.getElem?_eq_some_iff.mp hl
    obtain ⟨hsource, -⟩ := List.getElem?_eq_some_iff.mp hm
    omega
  have hpushed : (pushed e).doc = e.doc := by rw [pushed_of_isSome (by simp [ha])]
  refine ⟨modifyKeys target (fun _ => ks) a, ks, ?_, ?_, getElem?_modifyKeys hl ks, hfollows⟩
  · rw [after_follow _ ha hrows htarget hsource hne hlayers hm]
    refine of_after_bind (p := fun e₁ => e₁.doc = { e.doc with anim? := some (modifyKeys target (fun _ => ks) a) }) ?_
      fun _ e₁ h₁ => (draws_render.same (f := (·.doc)) (fun _ => rfl) e₁).trans h₁
    rw [after_editKeys (by rw [hpushed, ha]) hl hsweep, hpushed]
  · simp [modifyKeys, hne, hm]

/-- **Following copies every frame.** Where a layer is made to follow the opacity or the position of
another one, it has exactly one key frame at every frame of the animation, with the opacity or the
position at which the other one is seen there. The other one stays, and so do the frame that is
shown and the colours of the key frames that there were. -/
theorem follow_copies_every_frame :
    (∃ b ks, (after (followAlpha target? source?) e).doc = { e.doc with anim? := some b } ∧ b.layers[source]? = some m ∧
      b.layers[target]? = some { l with keys := ks } ∧ Follows SameAlpha a.totalFrames m.keys l.keys ks) ∧
    ∃ b ks, (after (followPosition target? source?) e).doc = { e.doc with anim? := some b } ∧ b.layers[source]? = some m ∧
      b.layers[target]? = some { l with keys := ks } ∧ Follows SamePlace a.totalFrames m.keys l.keys ks := by
  constructor
  · refine exists_follow ha hl hm hne hlkeys hmkeys hkeys htotal hrows htarget hsource fun p _ => ⟨_, rfl, fun k => ?_⟩
    obtain ⟨halpha, hcolour⟩ := alpha_setAlpha p.color1 k.color1
    exact ⟨rfl, fits_withAlpha _ k, hcolour, halpha⟩
  · refine exists_follow ha hl hm hne hlkeys hmkeys hkeys htotal hrows htarget hsource fun p hp => ?_
    obtain ⟨x, y, hx, hy, hxfits, hyfits⟩ := hp
    exact ⟨Key.placed x y, by rw [hx, hy]; rfl, fun k => ⟨rfl, fits_placed hxfits hyfits, rfl, hx, hy⟩⟩

end

/-- The layer that moves with a picture, and another one without key frames. -/
def slidingPair : Animation where
  tickRate := 30
  totalFrames := 12
  markerA := 0
  markerB := 0
  pictures := [⟨[], 8, 8, some (8, 8)⟩]
  layers := [sliding, { id := 1, picture := 0, name := [] }]

/-- The second layer comes to where the first one is at the end. -/
theorem follow_copies_every_frame_slide :
    ∃ b ks k, (after (followPosition (some 1) (some 0)) { showingSlide with doc := { anim? := some slidingPair } }).doc =
        { anim? := some b } ∧
      b.layers[0]? = some sliding ∧ b.layers[1]? = some { id := 1, picture := 0, name := [], keys := ks } ∧
      (ks.filter fun l => l.time = 10) = [k] ∧ k.posX = 100 ∧ k.posY = 0 := by
  obtain ⟨-, b, ks, hdoc, hsource, htarget, hfollows⟩ := @follow_copies_every_frame
    { showingSlide with doc := { anim? := some slidingPair } } slidingPair 1 0 _ sliding _ (some 1) (some 0) rfl rfl rfl
    (by decide) ⟨.nil, fun k hk => (nomatch hk)⟩ editable_sliding (by decide) (by decide) rfl (chosenAmong_eq _ (by decide))
    (chosenAmong_eq _ (by decide))
  obtain ⟨p, k, hp, hk, hx, hy⟩ := hfollows.frames 10 (by decide) (by decide)
  obtain rfl : ((defaultKey 10).placed 100 0).pose = p := Option.some.inj (Except.ok.inj hp)
  exact ⟨b, ks, k, hdoc, hsource, htarget, hk, (Except.ok.inj hx).symm, (Except.ok.inj hy).symm⟩

end Localizer.Editor
