import Localizer.Proofs.Animation.Limits
import Localizer.Proofs.Editor.KeyEdits
import Localizer.Proofs.Editor.Save

/-!
# Animations that can be saved

An animation that was loaded can be saved again after whatever the user does, as far as that leaves
key frames at frames that there are and at positions that fit in a file.
-/

namespace Localizer.Editor

open List Text Animation Decimal Number

variable {size : Int × Int} {t : Int} {x : Float}

/-! ### Sizes of pictures -/

theorem probed_bounds (h : Probed size) : ∀ m ∈ [size.1, size.2], 0 ≤ m ∧ m < 0x80000000 := by
  rcases h with rfl | ⟨ws, p, h⟩
  · decide
  · obtain ⟨f, -, hsize⟩ := exists_of_bind_ok h
    exact ws.pictures.size_bounds hsize

theorem sizesFit_loadPictures (ws : Workspace) (dir : Text) {ps : List Picture} (h : SizesFit ps) :
    SizesFit (loadPictures ws dir ps).1 := by
  intro p hp
  have hmem : p.unloaded ∈ ps.map Picture.unloaded :=
    unloaded_loadPictures ws dir ps ▸ mem_map_of_mem hp
  obtain ⟨q, hq, hunloaded⟩ := mem_map.mp hmem
  have hwidth : q.unloaded.width = p.unloaded.width := congrArg Picture.width hunloaded
  have hheight : q.unloaded.height = p.unloaded.height := congrArg Picture.height hunloaded
  exact hwidth ▸ hheight ▸ h q hq

/-! ### The rule -/

/-- The numbers of all animations are within limits, and so are the frames that are shown. -/
def packing (b : Limits) : Rule where
  anim n a := a.Within b n
  frame x := ∀ v, value? x = some v → -(b.before : ℚ) ≤ v ∧ v ≤ b.last
  time := b.Time
  place := b.Place

section

variable {b : Limits}

theorem cast_of_time (h : b.Time t) : -(b.before : ℚ) ≤ t ∧ (t : ℚ) ≤ b.last := by
  obtain ⟨hlow, hhigh⟩ := h
  exact ⟨by exact_mod_cast hlow, by exact_mod_cast hhigh⟩

theorem frame_of_fraction (ht : b.Time t) (hx : fraction t = .ok x) : (packing b).frame x := by
  intro v hv
  obtain ⟨y, hy, hvalue, -⟩ := fraction_of_lt (b.natAbs_lt ht)
  obtain rfl := Except.ok.inj (hy.symm.trans hx)
  exact Option.some.inj (hvalue.symm.trans hv) ▸ cast_of_time ht

theorem time_of_cut (hx : (packing b).frame x) (ht : cut x = .ok t) : b.Time t := by
  obtain ⟨v, hv, hcut⟩ := cut_mem ht
  exact hcut _ _ (hx v hv)

theorem before_lt_pow : b.before < 2 ^ 53 := b.before_lt.trans (by norm_num)

theorem last_lt_pow : b.last < 2 ^ 53 := b.last_lt.trans (by norm_num)

theorem frame_forward {step : Float} {last : Int} (hx : (packing b).frame x) (hstep : ¬step ≤ 0)
    (hlast : b.Time last)
    (hle : ∀ y, fraction last = .ok y → (whole last).lt (.real (x + step)) = false) :
    (packing b).frame (x + step) := by
  intro v hv
  obtain ⟨⟨p, hp⟩, q, hq⟩ := exists_of_value?_add hv
  have hpos := nonneg_of_not_le_zero hstep hq
  obtain ⟨y, hy, -⟩ := fraction_of_lt (b.natAbs_lt hlast)
  have hnot := mt (whole_lt_real hv last).mpr (Bool.eq_false_iff.mp (hle y hy))
  refine ⟨(rounds_add hp hq hv).lower _ before_lt_pow ?_, (not_lt.mp hnot).trans (cast_of_time hlast).2⟩
  linarith [(hx p hp).1]

theorem frame_backward {first : Int} (hx : (packing b).frame x) (hfirst : b.Time first)
    (hle : lt (.real (x - 1)) (.whole first) = false) : (packing b).frame (x - 1) := by
  intro v hv
  obtain ⟨p, hp⟩ := exists_of_value?_sub hv
  have hnot := mt (real_lt_whole hv first).mpr (Bool.eq_false_iff.mp hle)
  refine ⟨(cast_of_time hfirst).1.trans (not_lt.mp hnot), (rounds_sub hp value?_one hv).upper _ last_lt_pow ?_⟩
  linarith [(hx p hp).2]

theorem within_of_retouch {ks : List Key} {f : Key → Key} (h : (packing b).Retouch ks f) {k : Key}
    (hk : k.Within b) : (f k).Within b := by
  cases h with
  | keep => exact hk
  | alpha n => exact hk.withAlpha n
  | move hplace dx dy => exact hk.placed (hplace _ _)
  | place hplace => exact hk.placed hplace
  | take _ =>
    split
    · next hfits => exact (fits_iff.mp hfits).within hk.time
    · exact hk

end

theorem lawful_packing (b : Limits) : (packing b).Lawful where
  mono h := h.mono
  zero := b.time_zero
  between hs hu hst htu := ⟨hs.1.trans hst, htu.trans hu.2⟩
  total h := h.time_total
  action h hact := h.actions _ hact
  fraction ht hx := frame_of_fraction ht hx
  cut hx ht := time_of_cut hx ht
  forward := frame_forward
  backward := frame_backward
  pose {n a l t p x y} h hl hpose hx hy := by
    by_cases hfree : b.free
    · exact .inl hfree
    · exact .inr ((placed_of_poseAt (h.placed hfree l hl) hpose).fits hx hy)
  reload h := ⟨h.header, h.total, h.actions, sizesFit_loadPictures _ _ h.pictures, h.count, h.layers⟩
  rename hsize h := h.renameLayer _ _ (probed_bounds hsize)
  add hsize hplace h := h.addStatic _ (probed_bounds hsize) hplace
  remove h := h.removeLayer _
  keys {n a i l edits} h hl hedits := by
    have htrack := (h.layers l (mem_of_getElem? hl)).track
    refine h.modifyKeys (Track.applyEdits (fun e he => ⟨(hedits e he).time, fun f hf => ?_⟩) htrack)
    have hretouch := (hedits e he).change f hf
    exact ⟨fun k hk => within_of_retouch hretouch hk, hretouch.time_eq⟩

/-! ### Ranges of frames -/

/-- What has been entered in a field, if it can be read, is such a number. -/
def Enters (P : Int → Prop) (t? : Option Text) : Prop := ∀ t ∈ t?, ∀ m ∈ typed? t, P m

instance (P : Int → Prop) [DecidablePred P] (t? : Option Text) : Decidable (Enters P t?) :=
  inferInstanceAs (Decidable (∀ t ∈ t?, ∀ m ∈ typed? t, P m))

/-- The frames that are entered are not farther from the beginning than some number of frames. -/
def Input.Near (bound : Nat) : Input → Prop
  | batchAlpha first? last? _ | batchMove first? last? _ _ _ =>
    Enters (fun m => m.natAbs ≤ bound) first? ∧ Enters (fun m => m.natAbs ≤ bound) last?
  | _ => True

/-- A range that is entered does not reach before the beginning. Where the opacity is set, a range
is cut at the beginning, so that only one that ends before it does harm: just behind its end a key
frame is made. -/
def Input.FromBeginning : Input → Prop
  | batchAlpha first? last? _ => Enters (-1 ≤ ·) first? ∨ Enters (-1 ≤ ·) last?
  | batchMove first? last? _ _ _ => Enters (0 ≤ ·) first? ∧ Enters (0 ≤ ·) last?
  | _ => True

instance (bound : Nat) : DecidablePred (Input.Near bound) := fun i => by
  cases i <;> dsimp only [Input.Near] <;> infer_instance

instance : DecidablePred Input.FromBeginning := fun i => by
  cases i <;> dsimp only [Input.FromBeginning] <;> infer_instance

section

variable {b : Limits} {bound : Nat} {t? : Option Text} {m : Int}

theorem of_enters {P : Int → Prop} (henters : Enters P t?) (htime : b.Time m → P m)
    (h : (packing b).Entered t? m) : P m := by
  cases t? with
  | some t => exact henters t rfl m h
  | none => exact htime h

theorem le_last_of_entered (hlast : bound ≤ b.last) (hnear : Enters (fun m => m.natAbs ≤ bound) t?)
    (h : (packing b).Entered t? m) : m ≤ b.last := by
  refine of_enters (P := fun m => m ≤ b.last) (fun t ht m hm => ?_) And.right h
  have := hnear t ht m hm
  omega

theorem le_of_entered (hbefore : bound ≤ b.before) (hnear : Enters (fun m => m.natAbs ≤ bound) t?)
    (h : (packing b).Entered t? m) : -(b.before : Int) ≤ m := by
  refine of_enters (P := fun m => -(b.before : Int) ≤ m) (fun t ht m hm => ?_) And.left h
  have := hnear t ht m hm
  omega

theorem sub_le_of_entered {c : Int} (hc : c ≤ 0) (henters : Enters (c ≤ ·) t?)
    (h : (packing b).Entered t? m) : c - b.before ≤ m := by
  refine of_enters (P := fun m => c - b.before ≤ m) (fun t ht m hm => ?_) (fun hm => ?_) h
  · have : c ≤ m := henters t ht m hm
    omega
  · have := hm.1
    omega

theorem covers_packing {i : Input} (hnear : i.Near bound) (hlast : bound ≤ b.last)
    (hbefore : bound ≤ b.before ∨ i.FromBeginning) : (packing b).Covers i := by
  cases i with
  | batchAlpha first? last? alpha? =>
    intro m k total hm hk htotal first last t ht
    have hk' := le_last_of_entered hlast hnear.2 hk
    have hend : -1 - (b.before : Int) ≤ max m k := by
      rcases hbefore with hbefore | hfirst | hlast
      · have := le_of_entered hbefore hnear.1 hm
        omega
      · exact le_max_of_le_left (sub_le_of_entered (by decide) hfirst hm)
      · exact le_max_of_le_right (sub_le_of_entered (by decide) hlast hk)
    obtain ⟨htotal, htotal'⟩ := htotal
    rw [mem_append, mem_borders, mem_span] at ht
    exact ⟨by omega, by omega⟩
  | batchMove first? last? expression? x? y? =>
    intro m k total hm hk htotal first last t ht
    have hm' := le_last_of_entered hlast hnear.1 hm
    have hk' := le_last_of_entered hlast hnear.2 hk
    have hstart : 0 - (b.before : Int) ≤ min m k := by
      rcases hbefore with hbefore | ⟨hfirst, hlast⟩
      · rw [zero_sub]
        exact le_min (le_of_entered hbefore hnear.1 hm) (le_of_entered hbefore hnear.2 hk)
      · exact le_min (sub_le_of_entered le_rfl hfirst hm) (sub_le_of_entered le_rfl hlast hk)
    obtain ⟨htotal, htotal'⟩ := htotal
    rw [mem_append, mem_borders, mem_span] at ht
    exact ⟨by omega, by omega⟩
  | _ => trivial

end

/-! ### Saving -/

/-- An animation with fewer than 2³¹ layers and key frames, and fewer than 2³⁰ frames. -/
structure Small (a : Animation) : Prop where
  layers : a.layers.length < 2 ^ 31
  keys : (a.layers.map (·.keys.length)).sum < 2 ^ 31
  frames : a.totalFrames < 2 ^ 30

/-- The limits that hold at first for an animation that was read. -/
def limitsOf (a : Animation) (htotal : a.totalFrames < 0x100000000) (before bound : Nat)
    (hbefore : before < 2 ^ 30) (hbound : bound < 2 ^ 30) (free : Prop) : Limits where
  before := before
  last := max a.totalFrames.toNat bound
  free := free
  layers := a.layers.length
  keys := (a.layers.map (·.keys.length)).sum
  before_lt := by omega
  last_lt := by omega

section

variable {files : Workspace} {w h : Int} {p : Text} {f : File} {a : Animation} {is : List Input}

theorem within_ran (hread : files.read p = .ok f) (hdecode : decode f.bytes = .ok a)
    (hsizes : SizesFit a.pictures) (hids : ∀ l ∈ a.layers, l.id < 2 ^ 31)
    (hedits : ∀ i ∈ is, ¬i.Loads ∧ ∀ place picture, i ≠ .setPicture place picture)
    {bound before : Nat} (htotal : a.totalFrames < 0x100000000) (hbefore : before < 2 ^ 30)
    (hbound : bound < 2 ^ 30) (hnear : ∀ i ∈ is, i.Near bound)
    (hfirst : bound ≤ before ∨ ∀ i ∈ is, i.FromBeginning) (free : Prop)
    (hplaces : free ∨ ∀ i ∈ is, ¬i.Places) :
    ∃ c, (ran is (after (load p) (start files w h))).doc.anim? = some c ∧
      c.Within (limitsOf a htotal before bound hbefore hbound free) is.length := by
  set b := limitsOf a htotal before bound hbefore hbound free
  have hallows : ∀ i ∈ is, (packing b).Allows i := fun i hi => by
    refine ⟨(hedits i hi).2, fun hloads => absurd hloads (hedits i hi).1, ?_, fun hi' x y => ?_⟩
    · exact covers_packing (hnear i hi) (le_max_right _ _) (hfirst.imp_right fun hfirst => hfirst i hi)
    · exact .inl (hplaces.resolve_right fun hplaces => hplaces i hi hi')
  have hlast : a.totalFrames ≤ b.last := by
    change a.totalFrames ≤ (max a.totalFrames.toNat bound : Nat)
    omega
  have hwithin : a.Within b 0 := within_of_decode hdecode hlast hsizes hids le_rfl fun l hl =>
    le_sum_of_mem (mem_map_of_mem hl)
  have hran := (lawful_packing b).ran hallows ((lawful_packing b).loaded (w := w) (h := h) hread hdecode hwithin)
  obtain ⟨c, hc⟩ := Option.isSome_iff_exists.mp hran.shown.isSome
  exact ⟨c, hc, Nat.zero_add is.length ▸ hran.shown.anim c hc⟩

/-- **When an animation can be saved.** An animation that was loaded from a file can be saved after
any edits, unless a key frame has come to be before the beginning, a position does not fit in a
word, or there are more layers or key frames than a word can count. No key frame comes to be before
the beginning if no range that is entered reaches there, positions fit if layers are not given
places on the canvas, and there is no lack of numbers if the animation was not a huge one. -/
theorem encode_ran (hread : files.read p = .ok f) (hdecode : decode f.bytes = .ok a) (hsizes : SizesFit a.pictures)
    (hids : ∀ l ∈ a.layers, l.id < 2 ^ 31) (hcount : is.length ≤ 2 ^ 31)
    (hedits : ∀ i ∈ is, ¬i.Loads ∧ ∀ place picture, i ≠ .setPicture place picture) {bound : Nat} (hbound : bound < 2 ^ 30)
    (hnear : ∀ i ∈ is, i.Near bound) :
    ∃ c, (ran is (after (load p) (start files w h))).doc.anim? = some c ∧
      ((∃ bs, encode c = .ok bs) ↔ c.Timely ∧ c.Placed ∧ c.Counted) ∧
      ((∀ i ∈ is, i.FromBeginning) → c.Timely) ∧ ((∀ i ∈ is, ¬i.Places) → c.Placed) ∧ (Small a → c.Counted) := by
  have htotal : a.totalFrames < 0x100000000 := ((of_decode hdecode).1 _ (by simp)).2
  have hwithin {before : Nat} (hbefore : before < 2 ^ 30) := within_ran (w := w) (h := h) hread hdecode hsizes hids hedits
    htotal hbefore hbound hnear
  obtain ⟨c, hc, hfree⟩ := hwithin hbound (.inl le_rfl) True (.inl trivial)
  refine ⟨c, hc, hfree.succeeds_encode hcount, fun hfirst => ?_, fun hplaces => ?_, fun hsmall => ?_⟩
  · obtain ⟨c', hc', hbegin⟩ := hwithin (Nat.two_pow_pos 30) (.inr hfirst) True (.inl trivial)
    obtain rfl := Option.some.inj (hc.symm.trans hc')
    exact hbegin.timely rfl
  · obtain ⟨c', hc', hplaced⟩ := hwithin hbound (.inl le_rfl) False (.inr hplaces)
    obtain rfl := Option.some.inj (hc.symm.trans hc')
    exact hplaced.placed id
  · refine hfree.counted ?_ ?_
    · have := hsmall.layers
      change a.layers.length + is.length < 0x100000000
      omega
    · have := hsmall.keys
      have := hsmall.frames
      change (a.layers.map (·.keys.length)).sum + (bound + max a.totalFrames.toNat bound + 1) < 0x100000000
      omega

end

/-- The pair with a layer made opaque for some frames, made to follow the other, and renamed. -/
theorem encode_ran_pair :
    let is : List Input := [.pickLayer (some 0), .batchAlpha (some "2") (some "5") (some "128"),
      .followAlpha (some 1) (some 0), .rename (some "star"), .move .undo]
    ∃ c, (ran is (after (load "/pair") (start desk 640 480))).doc.anim? = some c ∧ ∃ bs, encode c = .ok bs := by
  intro is
  obtain ⟨c, hc, hencode, htimely, hplaced, hcounted⟩ :=
    @encode_ran desk 640 480 "/pair" { data := blankPair.file } _ is rfl decode_blankPair (by decide) (by decide)
      (by decide) (by simp [is, Input.Loads]) 1000 (by decide) (by decide)
  have hkeys : (blankPair.stored.layers.map (·.keys.length)).sum < 2 ^ 31 := by
    simp [blankPair, stored, storedLayer, inOrder]
  refine ⟨c, hc, hencode.mpr ⟨htimely (by decide), hplaced ?_, hcounted ⟨by decide, hkeys, by decide⟩⟩⟩
  simp [is, Input.Places]

theorem not_encode_batchAlpha {e : Editor} {a : Animation} {place : Nat} {l : Layer}
    {first? last? alpha? : Option Text} {shown m n c : Int} (hselected : e.selected? = some place)
    (ha : e.doc.anim? = some a) (hl : a.layers[place]? = some l) (hkeys : Editable l.keys)
    (hshown : cut e.doc.frame = .ok shown) (hm : typed? (first?.getD "0") = some m)
    (hn : typed? (last?.getD (decimalInt shown)) = some n)
    (hc : typed? (alpha?.getD "255") = some c) (hend : n.natAbs < 2 ^ 53)
    (htotal : a.totalFrames.natAbs < 2 ^ 53) (hzero : 0 ≤ a.totalFrames) (hbefore : max m n < -1) :
    ∃ b, (after (batchAlpha first? last? alpha?) e).doc.anim? = some b ∧
      ∀ bs, encode b ≠ .ok bs := by
  obtain ⟨ks₁, ks₂, hsweep, hre₁, hre₂, -⟩ := hkeys.exists_borders_span (m := m) (max 0 (min 255 c)) hend htotal
  refine ⟨_, anim_batchAlpha hselected ha hl hshown hm hn hc hsweep, fun bs hencode => ?_⟩
  -- The key frame behind the range is made with the borders, and the frames within, of which there are none, leave it.
  obtain ⟨k, hkt, hk, -⟩ := hre₁.made (max m n + 1) (mem_borders.mpr (by omega))
  have hmem := (hre₂.others k fun hmem => by have := mem_span.mp hmem; omega).mpr hk
  have hlayer := (succeeds_encode.mp ⟨bs, hencode⟩).2 _ (mem_of_getElem? (getElem?_modifyKeys hl ks₂))
  have hpacks := (hlayer.keys k hmem).unsigned k.time (by simp)
  have := hpacks.1
  omega

/-- Setting the opacity from frame -5 to frame -3 makes a key frame at -2. -/
theorem not_encode_batchAlpha_slide :
    ∃ b, (after (batchAlpha (some "-5") (some "-3") none) showingSlide).doc.anim? = some b ∧
      ∀ bs, encode b ≠ .ok bs :=
  @not_encode_batchAlpha showingSlide _ 0 sliding (some "-5") (some "-3") none 0 (-5) (-3) 255 rfl rfl rfl editable_sliding
    cut_zero (by decide) (by decide) (by decide) (by decide) (by decide) (by decide) (by decide)

end Localizer.Editor
