import Localizer.Proofs.Animation.Timeline

/-!
# How a layer looks

The look of a layer at a time is what its pose shows, with all measures as fractions. On an ordered
timeline it depends on the latest key frame not after the time and on the next one only
(`lookAt_eq`). Between two key frames that look the same, and at a key frame, nothing is blended:
the fractions come out exactly (`lookBetween_still`).
-/

namespace Localizer.Animation

open List Decimal Except Word Number

variable {a b : Int} {x : Float} {v : ℚ} {k l : Key} {t : Int} {ks : List Key} {p : Pose} {share : Float} (shift : Nat)
  (c : Int)

structure Look where
  color1 : Int
  color2 : Int
  rotZ : Float
  scaleX : Float
  scaleY : Float
  posX : Float
  posY : Float

def Pose.look (p : Pose) : Except Fault Look := do
  return ⟨p.color1, p.color2, ← p.rotZ.toFloat, ← p.scaleX.toFloat, ← p.scaleY.toFloat, ← p.posX.toFloat,
    ← p.posY.toFloat⟩

/-- How a layer with some key frames looks at a frame, if it is shown at all. -/
def lookAt (t : Int) (ks : List Key) : Except Fault (Option Look) := do
  match ← poseAt (.whole t) ks with
  | some p => return some (← p.look)
  | none => return none

/-- How a layer looks at a time between two key frames. -/
def lookBetween (k l : Key) (t : Int) : Except Fault Look := do
  (← interpolate k l (← shareAt k l (.whole t))).look

/-! ### Blending -/

theorem between_eq (ha : a.natAbs < 2 ^ 53) (hb : (b - a).natAbs < 2 ^ 53) (x : Float) :
    ∃ y d, fraction a = .ok y ∧ y.toModel.unpack ≠ .zero .negative ∧ value? y = some (a : ℚ) ∧
      value? d = some ((b - a : Int) : ℚ) ∧ between a b (.real x) = .ok (.real (y + d * x)) := by
  obtain ⟨y, hy, hvalue, hsign⟩ := fraction_of_lt ha
  obtain ⟨d, hd, hdvalue, -⟩ := fraction_of_lt hb
  have hmul : (whole (b - a)).mul (.real x) = .ok (.real (d * x)) := by
    simp only [mul, toFloat, hd]
    rfl
  have hadd : (whole a).add (.real (d * x)) = .ok (.real (y + d * x)) := by
    simp only [add, toFloat, hy]
    rfl
  refine ⟨y, d, hy, hsign, hvalue, hdvalue, ?_⟩
  unfold between
  rwa [hmul]

theorem between_still (ha : FitsSigned a ∨ FitsUnsigned a) (hb : FitsSigned b ∨ FitsUnsigned b)
    (hx : value? x = some v) (h : b = a ∨ v = 0) :
    ∃ y, fraction a = .ok y ∧ value? y = some (a : ℚ) ∧ between a b (.real x) = .ok (.real y) := by
  have ha' : a.natAbs < 2 ^ 53 := by unfold FitsSigned FitsUnsigned at ha; omega
  have hb' : (b - a).natAbs < 2 ^ 53 := by unfold FitsSigned FitsUnsigned at ha hb; omega
  obtain ⟨y, d, hy, hsign, hvalue, hdvalue, hbetween⟩ := between_eq ha' hb' x
  have hzero : value? (d * x) = some 0 := by
    rcases h with rfl | rfl
    · rw [sub_self, Int.cast_zero] at hdvalue
      exact (value?_mul_zero hx hdvalue).2
    · exact (value?_mul_zero hdvalue hx).1
  exact ⟨y, hy, hvalue, hbetween.trans (by rw [add_of_value_zero hsign hzero])⟩

theorem mul_share_le (d : Int) (hv : v ∈ Set.Icc (0 : ℚ) 1) : (d : ℚ) * v ≤ d.toNat := by
  have hle : (d : ℚ) ≤ d.toNat := by exact_mod_cast Int.self_le_toNat d
  calc (d : ℚ) * v ≤ d.toNat * v := mul_le_mul_of_nonneg_right hle hv.1
    _ ≤ d.toNat := mul_le_of_le_one_right (Nat.cast_nonneg _) hv.2

/-- **A share of the way between integers within bounds** ends within them. -/
theorem exists_between {lo hi : Nat} (hlo : lo ≤ 2 ^ 31) (hhi : hi ≤ 2 ^ 31)
    (ha : a ∈ Set.Icc (-(lo : Int)) hi) (hb : b ∈ Set.Icc (-(lo : Int)) hi) (hx : value? x = some v)
    (hv : v ∈ Set.Icc (0 : ℚ) 1) :
    ∃ y w, between a b (.real x) = .ok (.real y) ∧ value? y = some w ∧
      w ∈ Set.Icc (-(lo : ℚ)) hi := by
  obtain ⟨ha₁, ha₂⟩ := ha
  obtain ⟨hb₁, hb₂⟩ := hb
  obtain ⟨y, d, -, -, hy, hd, hbetween⟩ := between_eq (a := a) (b := b) (by omega) (by omega) x
  -- The distance is covered in part, in whichever direction it goes.
  have hforth := mul_share_le (b - a) hv
  have hback : -((a - b).toNat : ℚ) ≤ (b - a : Int) * v := by
    have := mul_share_le (a - b) hv
    push_cast at this ⊢
    linarith
  have hlong : ((a - b).toNat : ℚ) ≤ (b - a).natAbs ∧ ((b - a).toNat : ℚ) ≤ (b - a).natAbs :=
    ⟨by exact_mod_cast (by omega : (a - b).toNat ≤ (b - a).natAbs), by exact_mod_cast (by omega : (b - a).toNat ≤ (b - a).natAbs)⟩
  obtain ⟨u, hu, hmul⟩ := exists_mul hd hx (n := (b - a).natAbs) (by omega) ⟨by linarith, by linarith⟩
  have hlow := hmul.lower _ (by omega) hback
  have hhigh := hmul.upper _ (by omega) hforth
  have hge : -(lo : ℚ) ≤ a - (a - b).toNat := by exact_mod_cast (by omega : -(lo : Int) ≤ a - (a - b).toNat)
  have hle : (a : ℚ) + (b - a).toNat ≤ hi := by exact_mod_cast (by omega : a + (b - a).toNat ≤ (hi : Int))
  have hmax : (lo : ℚ) ≤ (max lo hi : Nat) ∧ (hi : ℚ) ≤ (max lo hi : Nat) :=
    ⟨by exact_mod_cast le_max_left lo hi, by exact_mod_cast le_max_right lo hi⟩
  obtain ⟨w, hw, hadd⟩ := exists_add hy hu (n := max lo hi) (by omega) ⟨by linarith, by linarith⟩
  exact ⟨_, w, hbetween, hw, hadd.lower lo (by omega) (by linarith), hadd.upper hi (by omega) (by linarith)⟩

theorem exists_trunc_between (ha : FitsSigned a) (hb : FitsSigned b) (hx : value? x = some v)
    (hv : v ∈ Set.Icc (0 : ℚ) 1) :
    ∃ c n, between a b (.real x) = .ok c ∧ c.trunc = .ok n ∧ FitsSigned n := by
  have hsigned {c : Int} (h : FitsSigned c) : c ∈ Set.Icc (-((2 ^ 31 : Nat) : Int)) (2 ^ 31 - 1 : Nat) := by
    unfold FitsSigned at h
    exact ⟨by omega, by omega⟩
  obtain ⟨y, w, hbetween, hw, hmem⟩ := exists_between (by omega) (by omega) (hsigned ha) (hsigned hb) hx hv
  obtain ⟨n, hn⟩ := (exists_cut hw).1
  obtain ⟨w', hw', hcut⟩ := cut_mem hn
  obtain rfl := Option.some.inj (hw.symm.trans hw')
  obtain ⟨hlow, hhigh⟩ := hcut _ _ hmem
  exact ⟨.real y, n, hbetween, hn, by omega, by omega⟩

theorem channel_fits : FitsUnsigned (channel shift c) := by
  unfold channel FitsUnsigned
  omega

theorem blendChannel_still (hx : value? x = some v) (h : b = a ∨ v = 0) :
    blendChannel (channel shift a) (channel shift b) (.real x) = .ok (channel shift a) := by
  have h' : channel shift b = channel shift a ∨ v = 0 := h.imp_left (congrArg _)
  obtain ⟨y, -, hvalue, hbetween⟩ := between_still (.inr (channel_fits shift a)) (.inr (channel_fits shift b)) hx h'
  unfold blendChannel
  rw [hbetween]
  change (rounded y >>= fun n => .ok (n % 256)) = _
  rw [rounded_of_value hvalue]
  exact congrArg ok (Int.emod_emod_of_dvd _ (by decide))

theorem blend_still {c d : Int} (hc : FitsUnsigned c) (hx : value? x = some v) (h : d = c ∨ v = 0) :
    blend c d (.real x) = .ok c := by
  unfold blend
  simp only [blendChannel_still _ hx h]
  refine congrArg ok ?_
  simp only [channel, Nat.pow_eq, Nat.reducePow]
  obtain ⟨hlow, hhigh⟩ := hc
  omega

theorem succeeds_blend (d : Int) (hx : value? x = some v) (hv : v ∈ Set.Icc (0 : ℚ) 1) :
    Succeeds (blend c d (.real x)) := by
  have hchannel (shift : Nat) : Succeeds (blendChannel (channel shift c) (channel shift d) (.real x)) := by
    have hbyte (c : Int) : channel shift c ∈ Set.Icc (-((0 : Nat) : Int)) (255 : Nat) := by
      unfold channel
      exact ⟨by omega, by omega⟩
    obtain ⟨y, w, hbetween, hw, -⟩ := exists_between (by decide) (by decide) (hbyte c) (hbyte d) hx hv
    obtain ⟨n, hn⟩ := (exists_cut hw).2
    unfold blendChannel
    rw [hbetween]
    change Succeeds (rounded y >>= fun n => .ok (n % 256))
    rw [hn]
    exact ⟨n % 256, rfl⟩
  unfold blend
  simp only [succeeds_bind, succeeds_pure, and_true, exists_and_right]
  exact ⟨hchannel 24, hchannel 16, hchannel 8, hchannel 0⟩

theorem exists_shareAt (hle : k.time ≤ t) (hle' : t ≤ l.time) :
    ∃ x v, shareAt k l (.whole t) = .ok (.real x) ∧ value? x = some v ∧ v ∈ Set.Icc (0 : ℚ) 1 ∧
      (t = k.time → v = 0) := by
  obtain ⟨x, v, hx, hv, hmem⟩ := quotient_of_le (a := t - k.time) (b := (l.time - k.time).toNat) (by omega) (by omega)
  refine ⟨x, v, ?_, hv, hmem, fun heq => ?_⟩
  · change (quotient (t - k.time) (l.time - k.time).toNat >>= fun x => .ok (real x)) = _
    rw [hx]
    rfl
  · rw [heq, sub_self] at hx
    obtain rfl : 0 = x := ok.inj hx
    exact Option.some.inj (hv.symm.trans value?_zero)

theorem look_pose_at (t : Int) (k : Key) : (k.at t).pose.look = k.pose.look := rfl

theorem look_interpolate_still (hk : k.Fits) (hl : l.Fits) (hx : value? x = some v)
    (h : l.at 0 = k.at 0 ∨ v = 0) : (interpolate k l (.real x) >>= Pose.look) = k.pose.look := by
  have hsame {f : Key → Int} (hf : ∀ k : Key, f (k.at 0) = f k) : f l = f k ∨ v = 0 :=
    h.imp_left fun heq => (hf l).symm.trans ((congrArg f heq).trans (hf k))
  have hfield {f : Key → Int} (hf : ∀ k : Key, f (k.at 0) = f k) (hfk : FitsSigned (f k))
      (hfl : FitsSigned (f l)) :
      ∃ y, fraction (f k) = .ok y ∧ between (f k) (f l) (.real x) = .ok (.real y) := by
    obtain ⟨y, hy, -, hbetween⟩ := between_still (.inl hfk) (.inl hfl) hx (hsame hf)
    exact ⟨y, hy, hbetween⟩
  have hc1 : blend k.color1 l.color1 (.real x) = .ok k.color1 :=
    blend_still (hk.unsigned _ (by simp)) hx (hsame fun _ => rfl)
  have hc2 : blend k.color2 l.color2 (.real x) = .ok k.color2 :=
    blend_still (hk.unsigned _ (by simp)) hx (hsame fun _ => rfl)
  obtain ⟨rotZ, hrotZ, hrotZ'⟩ := hfield (f := Key.rotZ) (fun _ => rfl) (hk.signed _ (by simp)) (hl.signed _ (by simp))
  obtain ⟨scaleX, hsX, hsX'⟩ := hfield (f := Key.scaleX) (fun _ => rfl) (hk.signed _ (by simp)) (hl.signed _ (by simp))
  obtain ⟨scaleY, hsY, hsY'⟩ := hfield (f := Key.scaleY) (fun _ => rfl) (hk.signed _ (by simp)) (hl.signed _ (by simp))
  obtain ⟨posX, hpX, hpX'⟩ := hfield (f := Key.posX) (fun _ => rfl) (hk.signed _ (by simp)) (hl.signed _ (by simp))
  obtain ⟨posY, hpY, hpY'⟩ := hfield (f := Key.posY) (fun _ => rfl) (hk.signed _ (by simp)) (hl.signed _ (by simp))
  unfold interpolate Pose.look
  rw [hc1, hc2, hrotZ', hsX', hsY', hpX', hpY']
  simp only [Key.pose, toFloat, hrotZ, hsX, hsY, hpX, hpY]
  rfl

/-- **Where nothing changes, nothing is blended**: between two key frames that look the same, and at
a key frame. -/
theorem lookBetween_still (hk : k.fits) (hl : l.fits) (hle : k.time ≤ t) (hle' : t ≤ l.time)
    (h : l.at 0 = k.at 0 ∨ t = k.time) : lookBetween k l t = k.pose.look := by
  obtain ⟨x, v, hshareAt, hv, -, hzero⟩ := exists_shareAt hle hle'
  unfold lookBetween
  rw [hshareAt]
  exact look_interpolate_still (fits_iff.mp hk) (fits_iff.mp hl) hv (h.imp_right hzero)

/-! ### What decides the look -/

theorem reached_whole (k : Key) (t : Int) : k.reached (.whole t) = decide (k.time ≤ t) := rfl

theorem whole_lt_whole (a b : Int) : (whole a).lt (.whole b) = decide (a < b) := by
  rw [Bool.eq_iff_iff]
  simp only [lt, le, Bool.and_eq_true, Bool.not_eq_true', decide_eq_true_eq, decide_eq_false_iff_not]
  omega

theorem next?_cons (t : Int) (k : Key) (ks : List Key) :
    next? t (k :: ks) = if t < k.time then some k else next? t ks := by
  unfold next?
  rw [find?_cons]
  split
  · next h => rw [if_pos (of_decide_eq_true h)]
  · next h => rw [if_neg (of_decide_eq_false h)]

theorem Ordered.enclosing?_eq (hs : Ordered ks) (t : Int) :
    enclosing? (.whole t) ks = (latest? t ks).bind fun k => (next? t ks).map fun l => (k, l) := by
  fun_induction enclosing? (.whole t) ks with
  | case1 k l ks h =>
    simp only [reached_whole, whole_lt_whole, Bool.and_eq_true, decide_eq_true_eq] at h
    rw [latest?_cons, if_pos h.1, latest?_cons, if_neg (by omega), next?_cons, if_neg (by omega), next?_cons,
      if_pos h.2]
    rfl
  | case2 k l ks h ih =>
    simp only [reached_whole, whole_lt_whole, Bool.and_eq_true, decide_eq_true_eq, not_and, not_lt] at h
    obtain ⟨hlt, hs'⟩ := pairwise_cons.mp hs
    have hkl : k.time < l.time := hlt l mem_cons_self
    rw [ih hs']
    by_cases hk : k.time ≤ t
    · have hl := h hk
      rw [latest?_cons t k, if_pos hk, next?_cons t k, if_neg (by omega), latest?_cons t l, if_pos hl]
      rfl
    · rw [latest?_cons t k, if_neg hk, latest?_cons t l, if_neg (by omega)]
      rfl
  | case3 ks h =>
    match ks, h with
    | [], _ => rfl
    | [k], _ =>
      rw [latest?_cons, next?_cons]
      split
      · next hk => rw [if_neg (by omega)]; rfl
      · rfl
    | k :: l :: ks, h => exact absurd rfl (h k l ks)

theorem Ordered.enclosing?_eq_some_iff (hs : Ordered ks) :
    enclosing? (.whole t) ks = some (k, l) ↔ latest? t ks = some k ∧ next? t ks = some l := by
  rw [hs.enclosing?_eq]
  cases latest? t ks <;> cases next? t ks <;> simp

theorem Ordered.enclosing?_eq_none_iff (hs : Ordered ks) :
    enclosing? (.whole t) ks = none ↔ latest? t ks = none ∨ next? t ks = none := by
  rw [hs.enclosing?_eq]
  cases latest? t ks <;> cases next? t ks <;> simp

/-- The look that the latest key frame and the next one decide. -/
def lookFrom (t : Int) : Option Key → Option Key → Except Fault (Option Look)
  | some k, some l => some <$> lookBetween k l t
  | some k, none => some <$> k.pose.look
  | none, some l => some <$> l.pose.look
  | none, none => .ok none

/-! The three cases of a pose, for key frames from a first one to a last one. -/

section

variable {first last : Key} (hfirst : ks.head? = some first) (hlast : ks.getLast? = some last)
include hfirst hlast

theorem lookAt_of_le (hle : t ≤ first.time) : lookAt t ks = some <$> first.pose.look := by
  unfold lookAt poseAt
  simp only [hfirst, hlast, le, decide_eq_true hle, if_true]
  rfl

theorem lookAt_of_last_le (hlt : first.time < t) (hle : last.time ≤ t) :
    lookAt t ks = some <$> last.pose.look := by
  unfold lookAt poseAt
  simp only [hfirst, hlast, le, reached_whole, decide_eq_false (not_le.mpr hlt), decide_eq_true hle, if_true]
  rfl

theorem lookAt_of_enclosing (hlt : first.time < t) (hlt' : t < last.time)
    (h : enclosing? (.whole t) ks = some (k, l)) : lookAt t ks = some <$> lookBetween k l t := by
  unfold lookAt poseAt
  simp only [hfirst, hlast, Number.le, reached_whole, decide_eq_false (not_le.mpr hlt), decide_eq_false (not_le.mpr hlt'),
    h, lookBetween, Bool.false_eq_true, if_false, bind_assoc, pure_bind]
  cases shareAt k l (.whole t) with
  | error g => rfl
  | ok x =>
    cases hpose : interpolate k l x with
    | error g =>
      simp only [bind, Except.bind, hpose]
      rfl
    | ok p =>
      simp only [bind, Except.bind, hpose]
      cases p.look <;> rfl

end

/-- **The look is decided by two key frames.** -/
theorem Editable.lookAt_eq (h : Editable ks) (t : Int) :
    lookAt t ks = lookFrom t (latest? t ks) (next? t ks) := by
  cases hhead : ks.head? with
  | none =>
    obtain rfl := head?_eq_none_iff.mp hhead
    rfl
  | some first =>
    obtain ⟨hfirst, hmin⟩ := h.ordered.head?_eq_some_iff.mp hhead
    obtain ⟨last, hlast⟩ := Option.isSome_iff_exists.mp (getLast?_isSome.mpr (ne_nil_of_mem hfirst))
    rcases lt_trichotomy t first.time with hlt | rfl | hlt
    · have hlatest : latest? t ks = none :=
        h.ordered.latest?_eq_none_iff.mpr fun k hk => hlt.trans_le (hmin k hk)
      have hnext : next? t ks = some first :=
        h.ordered.next?_eq_some_iff.mpr ⟨hfirst, hlt, fun k hk _ => hmin k hk⟩
      rw [lookAt_of_le hhead hlast hlt.le, hlatest, hnext, lookFrom]
    · have hlatest : latest? first.time ks = some first :=
        h.ordered.latest?_eq_some_iff.mpr ⟨hfirst, le_rfl, fun _ _ hle => hle⟩
      rw [lookAt_of_le hhead hlast le_rfl, hlatest]
      cases hnext : next? first.time ks with
      | none => rfl
      | some l =>
        obtain ⟨hl, hlt, -⟩ := h.ordered.next?_eq_some_iff.mp hnext
        rw [lookFrom, lookBetween_still (h.fits first hfirst) (h.fits l hl) le_rfl hlt.le (.inr rfl)]
    · by_cases hle : last.time ≤ t
      · have hupto := (h.ordered.getLast?_eq_some_iff.mp hlast).2
        have hlatest : latest? t ks = some last :=
          h.ordered.latest?_eq_some_iff.mpr ⟨mem_of_getLast? hlast, hle, fun k hk _ => hupto k hk⟩
        have hnext : next? t ks = none := Ordered.next?_eq_none_iff.mpr fun k hk => (hupto k hk).trans hle
        rw [lookAt_of_last_le hhead hlast hlt hle, hlatest, hnext, lookFrom]
      · have hlt' := not_le.mp hle
        cases hlatest : latest? t ks with
        | none => exact absurd (h.ordered.latest?_eq_none_iff.mp hlatest first hfirst) hlt.not_gt
        | some k =>
          cases hnext : next? t ks with
          | none => exact absurd (Ordered.next?_eq_none_iff.mp hnext last (mem_of_getLast? hlast)) hle
          | some l =>
            have hpair := h.ordered.enclosing?_eq_some_iff.mpr ⟨hlatest, hnext⟩
            rw [lookAt_of_enclosing hhead hlast hlt hlt' hpair, lookFrom]

/-! ### Positions in range -/

def Key.Placed (k : Key) : Prop := FitsSigned k.posX ∧ FitsSigned k.posY

theorem of_enclosing? (h : enclosing? (.whole t) ks = some (k, l)) :
    k ∈ ks ∧ l ∈ ks ∧ k.time ≤ t ∧ t < l.time := by
  fun_induction enclosing? (.whole t) ks with
  | case1 k' l' ks hcond =>
    simp only [reached_whole, whole_lt_whole, Bool.and_eq_true, decide_eq_true_eq] at hcond
    cases h
    exact ⟨by simp, by simp, hcond⟩
  | case2 k' l' ks hcond ih =>
    obtain ⟨hk, hl, htimes⟩ := ih h
    exact ⟨mem_cons_of_mem _ hk, mem_cons_of_mem _ hl, htimes⟩
  | case3 => cases h

/-- A pose has a position whose integer parts fit in words. -/
def Pose.Placed (p : Pose) : Prop :=
  ∃ x y, p.posX.trunc = .ok x ∧ p.posY.trunc = .ok y ∧ FitsSigned x ∧ FitsSigned y

theorem Key.Placed.pose (h : k.Placed) : k.pose.Placed := ⟨k.posX, k.posY, rfl, rfl, h⟩

theorem Pose.Placed.fits (h : p.Placed) {x y : Int} (hx : p.posX.trunc = .ok x)
    (hy : p.posY.trunc = .ok y) : FitsSigned x ∧ FitsSigned y := by
  obtain ⟨x', y', hx', hy', hfits⟩ := h
  rwa [ok.inj (hx'.symm.trans hx), ok.inj (hy'.symm.trans hy)] at hfits

theorem placed_of_interpolate (hk : k.Placed) (hl : l.Placed) (hshare : value? share = some v)
    (hv : v ∈ Set.Icc (0 : ℚ) 1) (h : interpolate k l (.real share) = .ok p) : p.Placed := by
  iterate 5 obtain ⟨_, -, h⟩ := exists_of_bind_ok h
  obtain ⟨posX, hposX, h⟩ := exists_of_bind_ok h
  obtain ⟨posY, hposY, h⟩ := exists_of_bind_ok h
  obtain rfl := ok.inj h
  obtain ⟨_, x, hbetween, hx, hxfits⟩ := exists_trunc_between hk.1 hl.1 hshare hv
  obtain rfl := ok.inj (hbetween.symm.trans hposX)
  obtain ⟨_, y, hbetween, hy, hyfits⟩ := exists_trunc_between hk.2 hl.2 hshare hv
  obtain rfl := ok.inj (hbetween.symm.trans hposY)
  exact ⟨x, y, hx, hy, hxfits, hyfits⟩

theorem succeeds_interpolate (hk : k.Fits) (hl : l.Fits) (hshare : value? share = some v)
    (hv : v ∈ Set.Icc (0 : ℚ) 1) : Succeeds (interpolate k l (.real share)) := by
  have hfield {a b : Int} (ha : FitsSigned a) (hb : FitsSigned b) : Succeeds (between a b (.real share)) := by
    obtain ⟨c, -, hc, -⟩ := exists_trunc_between ha hb hshare hv
    exact ⟨c, hc⟩
  unfold interpolate
  simp only [succeeds_bind, succeeds_pure, and_true, exists_and_right]
  refine ⟨succeeds_blend _ _ hshare hv, succeeds_blend _ _ hshare hv, ?_, ?_, ?_, ?_, ?_⟩ <;>
    exact hfield (hk.signed _ (by simp)) (hl.signed _ (by simp))

theorem poseAt_cases (hne : ks ≠ []) (t : Int) :
    (∃ k ∈ ks, poseAt (.whole t) ks = .ok (some k.pose)) ∨ ∃ k ∈ ks, ∃ l ∈ ks, ∃ share v, value? share = some v ∧
      v ∈ Set.Icc (0 : ℚ) 1 ∧ poseAt (.whole t) ks = some <$> interpolate k l (.real share) := by
  have hmem := getLast_mem hne
  unfold poseAt
  rw [head?_eq_some_head hne, getLast?_eq_some_getLast hne]
  dsimp only
  split
  · exact .inl ⟨_, head_mem hne, rfl⟩
  · split
    · exact .inl ⟨_, hmem, rfl⟩
    · split
      · next k l hpair =>
        obtain ⟨hk, hl, hle, hlt⟩ := of_enclosing? hpair
        obtain ⟨share, v, hshare, hv, hv', -⟩ := exists_shareAt hle hlt.le
        exact .inr ⟨k, hk, l, hl, share, v, hv, hv', by rw [hshare]; rfl⟩
      · exact .inl ⟨_, hmem, rfl⟩

theorem placed_of_poseAt (hks : ∀ k ∈ ks, k.Placed) (h : poseAt (.whole t) ks = .ok (some p)) :
    p.Placed := by
  by_cases hne : ks = []
  · subst hne
    cases h
  · rcases poseAt_cases hne t with ⟨k, hk, hpose⟩ | ⟨k, hk, l, hl, share, v, hv, hmem, hpose⟩
    · obtain rfl := Option.some.inj (ok.inj (hpose.symm.trans h))
      exact (hks k hk).pose
    · obtain ⟨q, hq, h⟩ := exists_of_bind_ok (hpose.symm.trans h)
      obtain rfl := Option.some.inj (ok.inj h)
      exact placed_of_interpolate (hks k hk) (hks l hl) hv hmem hq

/-- **A timeline with key frames has a pose at every frame.** -/
theorem Editable.exists_poseAt (h : Editable ks) (hne : ks ≠ []) (t : Int) :
    ∃ p, poseAt (.whole t) ks = .ok (some p) ∧ p.Placed := by
  have hfits (k : Key) (hk : k ∈ ks) := fits_iff.mp (h.fits k hk)
  have hpose : ∃ p, poseAt (.whole t) ks = .ok (some p) := by
    rcases poseAt_cases hne t with ⟨k, -, hpose⟩ | ⟨k, hk, l, hl, share, v, hv, hmem, hpose⟩
    · exact ⟨k.pose, hpose⟩
    · obtain ⟨p, hp⟩ := succeeds_interpolate (hfits k hk) (hfits l hl) hv hmem
      exact ⟨p, by rw [hpose, hp]; rfl⟩
  obtain ⟨p, hp⟩ := hpose
  exact ⟨p, hp, placed_of_poseAt (fun k hk => ⟨(hfits k hk).signed _ (by simp), (hfits k hk).signed _ (by simp)⟩) hp⟩

/-! ## Sealing a range of frames

Before key frames within a range are changed, key frames are made at its borders. A key frame that
is made looks like the latest one before it, not like what is shown at its time. So the look outside
of the range stays as it is up to the nearest border that lies between two key frames: before such a
border the layer stands still from the earlier one on (`sealedBefore`), and behind it the layer
starts from the look of the earlier one (`sealedAfter`). -/

variable {s m n total : Int}

/-- The key frames that decide the look at a frame not after a border at which a key frame has been
made. -/
def sealedBefore (s t : Int) (ks : List Key) : List Key :=
  if ks.isEmpty then [defaultKey s]
  else
    match enclosing? (.whole s) ks with
    | some (k, _) => if k.time < t then [k] else ks
    | none => ks

/-- The key frames that decide the look at a frame not before a border at which a key frame has been
made. -/
def sealedAfter (s t : Int) (ks : List Key) : List Key :=
  if ks.isEmpty then [defaultKey s]
  else
    match enclosing? (.whole s) ks with
    | some (k, l) => if t < l.time then [k.at s, l] else ks
    | none => ks

/-! ### Timelines that agree on one side -/

section

variable {ks' : List Key} (hs : Ordered ks) (hs' : Ordered ks') {t' : Int}
include hs hs'

theorem latest?_congr (h : ∀ l : Key, l ∈ ks' ∧ l.time ≤ t' ↔ l ∈ ks ∧ l.time ≤ t) :
    latest? t' ks' = latest? t ks := by
  refine Option.ext fun k => ?_
  simp only [hs.latest?_eq_some_iff, hs'.latest?_eq_some_iff, ← and_assoc, ← and_imp, h]

theorem next?_congr (h : ∀ l : Key, l ∈ ks' ∧ t' < l.time ↔ l ∈ ks ∧ t < l.time) :
    next? t' ks' = next? t ks := by
  refine Option.ext fun k => ?_
  simp only [hs.next?_eq_some_iff, hs'.next?_eq_some_iff, ← and_assoc, ← and_imp, h]

end

/-! ### Times without a key frame between them -/

section

variable (hgap : ∀ l ∈ ks, l.time ≤ t ↔ l.time ≤ s)
include hgap

theorem isSource_of_gap (h : IsSource s ks k) : IsSource t ks k := by
  refine ⟨h.mem, ?_⟩
  rcases h.place with ⟨hle, hmax⟩ | hall
  · exact .inl ⟨(hgap k h.mem).mpr hle, fun l hl hlt => hmax l hl ((hgap l hl).mp hlt)⟩
  · refine .inr fun l hl => ⟨?_, (hall l hl).2⟩
    exact not_le.mp fun hle => absurd ((hgap l hl).mp hle) (not_le.mpr (hall l hl).1)

theorem next?_of_gap : next? t ks = next? s ks := by
  refine find?_congr fun l hl => ?_
  rw [decide_eq_decide, ← not_le, ← not_le, hgap l hl]

theorem latest?_of_gap (hs : Ordered ks) : latest? t ks = latest? s ks :=
  latest?_congr hs hs fun l => and_congr_right (hgap l)

theorem enclosing?_of_gap (hs : Ordered ks) :
    enclosing? (.whole t) ks = enclosing? (.whole s) ks := by
  rw [hs.enclosing?_eq, hs.enclosing?_eq, latest?_of_gap hgap hs, next?_of_gap hgap]

end

namespace Editable

variable (h : Editable ks)
include h

theorem lookAt_time (hk : k ∈ ks) : lookAt k.time ks = some <$> k.pose.look := by
  have hlatest : latest? k.time ks = some k := h.ordered.latest?_eq_some_iff.mpr ⟨hk, le_rfl, fun _ _ hle => hle⟩
  rw [h.lookAt_eq, hlatest]
  cases hnext : next? k.time ks with
  | none => rfl
  | some l =>
    obtain ⟨hl, hlt, -⟩ := h.ordered.next?_eq_some_iff.mp hnext
    rw [lookFrom, lookBetween_still (h.fits k hk) (h.fits l hl) le_rfl hlt.le (.inr rfl)]

theorem lookAt_of_isSource (hk : IsSource t ks k) (hopen : enclosing? (.whole t) ks = none) :
    lookAt t ks = some <$> k.pose.look := by
  rw [h.ordered.enclosing?_eq_none_iff] at hopen
  rw [h.lookAt_eq]
  rcases hk.place with ⟨hle, hmax⟩ | hall
  · have hlatest : latest? t ks = some k := h.ordered.latest?_eq_some_iff.mpr ⟨hk.mem, hle, hmax⟩
    have hnext : next? t ks = none := hopen.resolve_left fun hnone => nomatch hlatest.symm.trans hnone
    rw [hlatest, hnext, lookFrom]
  · have hlatest : latest? t ks = none := h.ordered.latest?_eq_none_iff.mpr fun l hl => (hall l hl).1
    have hnext : next? t ks = some k :=
      h.ordered.next?_eq_some_iff.mpr ⟨hk.mem, (hall k hk.mem).1, fun l hl _ => (hall l hl).2⟩
    rw [hlatest, hnext, lookFrom]

end Editable

theorem lookAt_singleton (hk : k.fits) (t : Int) : lookAt t [k] = some <$> k.pose.look := by
  have h : Editable [k] := ⟨pairwise_singleton _ _, forall_mem_singleton.mpr hk⟩
  refine h.lookAt_of_isSource ⟨mem_singleton_self k, ?_⟩ rfl
  rcases le_or_gt k.time t with hle | hlt
  · exact .inl ⟨hle, forall_mem_singleton.mpr fun _ => le_rfl⟩
  · exact .inr (forall_mem_singleton.mpr ⟨hlt, le_rfl⟩)

theorem lookAt_pair (hk : k.fits) (hl : l.fits) (hle : k.time ≤ t) (hlt : t < l.time) :
    lookAt t [k, l] = some <$> lookBetween k l t := by
  have h : Editable [k, l] := by
    refine ⟨pairwise_pair.mpr (by omega), ?_⟩
    simp [hk, hl]
  have hlatest : latest? t [k, l] = some k := by
    rw [latest?_cons, if_pos hle, latest?_cons, if_neg (by omega)]
    rfl
  have hnext : next? t [k, l] = some l := by rw [next?_cons, if_neg (by omega), next?_cons, if_pos hlt]
  rw [h.lookAt_eq, hlatest, hnext, lookFrom]

/-! ### Behind a border -/

theorem sealedAfter_eq (hne : ks ≠ []) (s t : Int) :
    sealedAfter s t ks = match enclosing? (.whole s) ks with
      | some (k, l) => if t < l.time then [k.at s, l] else ks
      | none => ks := by
  rw [sealedAfter, if_neg (by simpa using hne)]

theorem Editable.lookFrom_copied (h : Editable ks) (hk : IsSource s ks k)
    (hgap : ∀ l ∈ ks, l.time ≤ t ↔ l.time ≤ s) (ht : s ≤ t) :
    lookFrom t (some (k.at s)) (next? s ks) = lookAt t (sealedAfter s t ks) := by
  have hkfits := h.fits k hk.mem
  have hbehind {l : Key} (hl : l ∈ ks) (hsl : s < l.time) : t < l.time :=
    not_le.mp ((hgap l hl).not.mpr (not_le.mpr hsl))
  rw [sealedAfter_eq (ne_nil_of_mem hk.mem)]
  cases hpair : enclosing? (.whole s) ks with
  | none =>
    have hopen := (enclosing?_of_gap hgap h.ordered).trans hpair
    rw [h.lookAt_of_isSource (isSource_of_gap hgap hk) hopen]
    cases hnext : next? s ks with
    | none => rfl
    | some l =>
      -- all key frames are behind the border, and the first of them was copied
      have hnone : latest? s ks = none :=
        (h.ordered.enclosing?_eq_none_iff.mp hpair).resolve_right fun heq => nomatch hnext.symm.trans heq
      obtain rfl := h.ordered.isSource_unique hk (h.ordered.isSource_of_next? hnone hnext)
      have hsk := h.ordered.latest?_eq_none_iff.mp hnone k hk.mem
      rw [lookFrom, lookBetween_still (k := k.at s) hkfits hkfits ht (hbehind hk.mem hsk).le (.inl rfl), look_pose_at]
  | some pair =>
    obtain ⟨k', l⟩ := pair
    obtain ⟨hlatest, hnext⟩ := h.ordered.enclosing?_eq_some_iff.mp hpair
    obtain rfl := h.ordered.isSource_unique hk (h.ordered.isSource_of_latest? hlatest)
    obtain ⟨hl, hsl, -⟩ := h.ordered.next?_eq_some_iff.mp hnext
    have htl := hbehind hl hsl
    dsimp only
    rw [hnext, if_pos htl, lookFrom, lookAt_pair (k := k.at s) hkfits (h.fits l hl) ht htl]

section

variable {ks ks' : List Key} (h : Editable ks) (h' : Editable ks')
include h h'

theorem lookAt_after_of_mem (hothers : ∀ l : Key, s < l.time → (l ∈ ks' ↔ l ∈ ks)) (hl : l ∈ ks)
    (hsl : s < l.time) (hlt : l.time ≤ t) : lookAt t ks' = lookAt t ks := by
  have hnext : next? t ks' = next? t ks := next?_congr h.ordered h'.ordered fun k => and_congr_left fun hk => hothers k (by omega)
  have hlatest : latest? t ks' = latest? t ks := by
    cases hk : latest? t ks with
    | none => exact absurd (h.ordered.latest?_eq_none_iff.mp hk l hl) (by omega)
    | some k =>
      obtain ⟨hmem, hle, hmax⟩ := h.ordered.latest?_eq_some_iff.mp hk
      have hlk := hmax l hl hlt
      refine h'.ordered.latest?_eq_some_iff.mpr ⟨(hothers k (by omega)).mpr hmem, hle, fun l' hl' hlt' => ?_⟩
      by_cases hs : s < l'.time
      · exact hmax l' ((hothers l' hs).mp hl') hlt'
      · omega
  rw [h.lookAt_eq, h'.lookAt_eq, hlatest, hnext]

/-- **Behind a border** a layer goes on from the key frame that was copied to the border. -/
theorem lookAt_after {b : Key} (hb : b ∈ ks') (hnew : newKey s ks = .ok b) (ht : s ≤ t)
    (hothers : ∀ l : Key, s < l.time → (l ∈ ks' ↔ l ∈ ks)) :
    lookAt t ks' = lookAt t (sealedAfter s t ks) := by
  by_cases hbetween : ∃ l ∈ ks, s < l.time ∧ l.time ≤ t
  · obtain ⟨l, hl, hsl, hlt⟩ := hbetween
    rw [lookAt_after_of_mem h h' hothers hl hsl hlt, sealedAfter_eq (ne_nil_of_mem hl)]
    split
    · next k l' hpair =>
      obtain ⟨-, -, hmin⟩ := h.ordered.next?_eq_some_iff.mp (h.ordered.enclosing?_eq_some_iff.mp hpair).2
      rw [if_neg (by have := hmin l hl hsl; omega)]
    · rfl
  · have hgap (l : Key) (hl : l ∈ ks) : l.time ≤ t ↔ l.time ≤ s := by
      refine ⟨fun hlt => ?_, fun hls => hls.trans ht⟩
      by_contra hsl
      exact hbetween ⟨l, hl, by omega, hlt⟩
    have hbs := h.ordered.time_of_newKey hnew
    have hnext : next? t ks' = next? s ks := by
      rw [next?_congr h.ordered h'.ordered fun k => and_congr_left fun hk => hothers k (by omega), next?_of_gap hgap]
    have hlatest : latest? t ks' = some b := by
      refine h'.ordered.latest?_eq_some_iff.mpr ⟨hb, by omega, fun l hl hlt => ?_⟩
      by_contra hbl
      have := (hgap l ((hothers l (by omega)).mp hl)).mp hlt
      omega
    rw [h'.lookAt_eq, hlatest, hnext]
    rcases h.ordered.eq_of_newKey hnew with ⟨rfl, rfl⟩ | ⟨k, hk, rfl⟩
    · exact (lookAt_singleton rfl t).symm
    · exact h.lookFrom_copied hk hgap ht

end

/-! ### Before a border -/

theorem sealedBefore_eq (hne : ks ≠ []) (s t : Int) :
    sealedBefore s t ks = match enclosing? (.whole s) ks with
      | some (k, _) => if k.time < t then [k] else ks
      | none => ks := by
  rw [sealedBefore, if_neg (by simpa using hne)]

theorem Editable.lookAt_sealedBefore (h : Editable ks) (hk : IsSource s ks k)
    (hgap : ∀ l ∈ ks, l.time ≤ t ↔ l.time ≤ s) :
    lookAt t (sealedBefore s t ks) = some <$> k.pose.look := by
  rw [sealedBefore_eq (ne_nil_of_mem hk.mem)]
  cases hpair : enclosing? (.whole s) ks with
  | none =>
    have hopen := (enclosing?_of_gap hgap h.ordered).trans hpair
    exact h.lookAt_of_isSource (isSource_of_gap hgap hk) hopen
  | some pair =>
    obtain ⟨k', l⟩ := pair
    obtain ⟨hlatest, -⟩ := h.ordered.enclosing?_eq_some_iff.mp hpair
    obtain rfl := h.ordered.isSource_unique hk (h.ordered.isSource_of_latest? hlatest)
    obtain ⟨-, hle, -⟩ := h.ordered.latest?_eq_some_iff.mp hlatest
    have hkt := (hgap k hk.mem).mpr hle
    dsimp only
    split
    · exact lookAt_singleton (h.fits k hk.mem) t
    · obtain rfl : k.time = t := by omega
      exact h.lookAt_time hk.mem

section

variable {ks ks' : List Key} (h : Editable ks) (h' : Editable ks') {b : Key} (hb : b ∈ ks')
  (hnew : newKey s ks = .ok b)
include h h' hb hnew

theorem lookAt_before_of_mem (hothers : ∀ l : Key, l.time < s → (l ∈ ks' ↔ l ∈ ks))
    (hl : l ∈ ks) (htl : t < l.time) (hls : l.time ≤ s) : lookAt t ks' = lookAt t ks := by
  have hlatest : latest? t ks' = latest? t ks := latest?_congr h.ordered h'.ordered fun k => and_congr_left fun hk => hothers k (by omega)
  have hnext : next? t ks' = next? t ks := by
    cases hk : next? t ks with
    | none => exact absurd (Ordered.next?_eq_none_iff.mp hk l hl) (by omega)
    | some k =>
      obtain ⟨hmem, hlt, hmin⟩ := h.ordered.next?_eq_some_iff.mp hk
      have hkl := hmin l hl htl
      have hmem' : k ∈ ks' := by
        rcases (hkl.trans hls).lt_or_eq with hks | hks
        · exact (hothers k hks).mpr hmem
        · have hcopy := h.newKey_of_mem hmem
          rw [hks, hnew] at hcopy
          exact Except.ok.inj hcopy ▸ hb
      refine h'.ordered.next?_eq_some_iff.mpr ⟨hmem', hlt, fun l' hl' hlt' => ?_⟩
      by_cases hs : l'.time < s
      · exact hmin l' ((hothers l' hs).mp hl') hlt'
      · omega
  rw [h.lookAt_eq, h'.lookAt_eq, hlatest, hnext]

theorem lookAt_before_of_gap (ht : t ≤ s) (hothers : ∀ l : Key, l.time < s → (l ∈ ks' ↔ l ∈ ks))
    (hgap : ∀ l ∈ ks, l.time ≤ t ↔ l.time ≤ s) : lookAt t ks' = some <$> b.pose.look := by
  have hbs := h.ordered.time_of_newKey hnew
  rcases ht.lt_or_eq with hlt | rfl
  · have hlatest : latest? t ks' = latest? t ks := latest?_congr h.ordered h'.ordered fun k => and_congr_left fun hk => hothers k (by omega)
    have hnext : next? t ks' = some b := by
      refine h'.ordered.next?_eq_some_iff.mpr ⟨hb, by omega, fun l hl htl => ?_⟩
      by_contra hlb
      have := (hgap l ((hothers l (by omega)).mp hl)).mpr (by omega)
      omega
    rw [h'.lookAt_eq, hlatest, hnext]
    cases hk : latest? t ks with
    | none => rfl
    | some k =>
      have hsource := isSource_of_gap (fun l hl => (hgap l hl).symm) (h.ordered.isSource_of_latest? hk)
      obtain rfl : k.at s = b := Except.ok.inj ((h.newKey_eq hsource).symm.trans hnew)
      obtain ⟨hmem, hle, -⟩ := h.ordered.latest?_eq_some_iff.mp hk
      have hfits := h.fits k hmem
      rw [lookFrom, lookBetween_still (l := k.at s) hfits hfits hle (by omega) (.inl rfl), look_pose_at]
  · exact hbs ▸ h'.lookAt_time hb

/-- **Before a border** a layer stands still from the key frame on that was copied to the border. -/
theorem lookAt_before (ht : t ≤ s) (hothers : ∀ l : Key, l.time < s → (l ∈ ks' ↔ l ∈ ks)) :
    lookAt t ks' = lookAt t (sealedBefore s t ks) := by
  by_cases hbetween : ∃ l ∈ ks, t < l.time ∧ l.time ≤ s
  · obtain ⟨l, hl, htl, hls⟩ := hbetween
    rw [lookAt_before_of_mem h h' hb hnew hothers hl htl hls, sealedBefore_eq (ne_nil_of_mem hl)]
    split
    · next k l' hpair =>
      obtain ⟨-, -, hmax⟩ := h.ordered.latest?_eq_some_iff.mp (h.ordered.enclosing?_eq_some_iff.mp hpair).1
      rw [if_neg (by have := hmax l hl hls; omega)]
    · rfl
  · have hgap (l : Key) (hl : l ∈ ks) : l.time ≤ t ↔ l.time ≤ s := by
      refine ⟨fun hlt => hlt.trans ht, fun hls => ?_⟩
      by_contra htl
      exact hbetween ⟨l, hl, by omega, hls⟩
    rw [lookAt_before_of_gap h h' hb hnew ht hothers hgap]
    rcases h.ordered.eq_of_newKey hnew with ⟨rfl, rfl⟩ | ⟨k, hk, rfl⟩
    · exact (lookAt_singleton rfl t).symm
    · rw [h.lookAt_sealedBefore hk hgap, look_pose_at]

end

/-! ### Borders that do no harm -/

/-- A border at which there is a key frame, or which does not lie between two key frames. -/
structure Settled (s : Int) (ks : List Key) : Prop where
  ne_nil : ks ≠ []
  time_eq : ∀ k l, enclosing? (.whole s) ks = some (k, l) → k.time = s

theorem sealedBefore_of_settled (h : Settled s ks) (ht : t ≤ s) : sealedBefore s t ks = ks := by
  rw [sealedBefore_eq h.ne_nil]
  split
  · next k l hpair => rw [if_neg (by have := h.time_eq k l hpair; omega)]
  · rfl

theorem Editable.lookAt_sealedAfter (hks : Editable ks) (h : Settled s ks) (ht : s ≤ t) :
    lookAt t (sealedAfter s t ks) = lookAt t ks := by
  rw [sealedAfter_eq h.ne_nil]
  split
  · next k l hpair =>
    split
    · next hlt =>
      obtain rfl := h.time_eq k l hpair
      obtain ⟨hlatest, hnext⟩ := hks.ordered.enclosing?_eq_some_iff.mp hpair
      obtain ⟨hk, -, -⟩ := hks.ordered.latest?_eq_some_iff.mp hlatest
      obtain ⟨hl, hkl, hmin⟩ := hks.ordered.next?_eq_some_iff.mp hnext
      have hgap : ∀ k' ∈ ks, k'.time ≤ t ↔ k'.time ≤ k.time := fun k' hk' => by
        have := hmin k' hk'
        omega
      rw [hks.lookAt_eq, latest?_of_gap hgap hks.ordered, next?_of_gap hgap, hlatest, hnext, lookFrom]
      exact lookAt_pair (hks.fits k hk) (hks.fits l hl) ht hlt
    · rfl
  · rfl

/-! ### Setting the opacity within a range -/

theorem fits_withAlpha (a : Int) (k : Key) (h : k.fits) : (k.withAlpha a).fits := by
  have hfits := fits_iff.mp h
  refine fits_iff.mpr ⟨forall_mem_cons.mpr ⟨?_, fun n hn => hfits.unsigned n (mem_cons_of_mem _ hn)⟩, hfits.signed⟩
  change 0 ≤ a % 256 * 0x1000000 + k.color1 % 0x1000000 ∧ a % 256 * 0x1000000 + k.color1 % 0x1000000 < 0x100000000
  omega

theorem Editable.exists_borders_span (h : Editable ks) (a : Int) (hn : n.natAbs < 2 ^ 53)
    (htotal : total.natAbs < 2 ^ 53) :
    let first := max 0 (min m n)
    let last := min total (max m n)
    ∃ ks₁ ks₂, Sweeps (alphaEdits first last a total) ks ks₂ ∧ Reworked (fun _ => id) (borders first last total) ks ks₁ ∧
      Reworked (fun _ => Key.withAlpha a) (span first last) ks₁ ks₂ ∧ ∀ u, newKey u ks₁ = newKey u ks := by
  intro first last
  have hborders : ∀ t ∈ borders first last total, t.natAbs < 2 ^ 53 := by
    intro t ht
    have := mem_borders.mp ht
    omega
  have hspan : ∀ t ∈ span first last, t.natAbs < 2 ^ 53 := by
    intro t ht
    have := mem_span.mp ht
    omega
  obtain ⟨ks₁, hsweep₁, hre₁, hsame⟩ := h.exists_sweep (f := fun _ => id) (fun _ _ => rfl) (fun _ _ hk => hk) hborders
  obtain ⟨ks₂, hsweep₂, hre₂, -⟩ :=
    hre₁.editable.exists_sweep (f := fun _ => Key.withAlpha a) (fun _ _ => rfl) (fun _ => fits_withAlpha a) hspan
  exact ⟨ks₁, ks₂, hsweep₁.append hsweep₂, hre₁, hre₂, hsame fun _ => rfl⟩

/-- **The opacity within a range.** The edits reach their end. At frames before the range and behind
it the look is the one that the borders leave. -/
theorem Editable.exists_alphaEdits (h : Editable ks) (a : Int) (hn : n.natAbs < 2 ^ 53)
    (htotal : total.natAbs < 2 ^ 53) :
    let first := max 0 (min m n)
    let last := min total (max m n)
    ∃ ks', Sweeps (alphaEdits first last a total) ks ks' ∧ ∀ t, 0 ≤ t → t ≤ total →
      (t < first → lookAt t ks' = lookAt t (sealedBefore (first - 1) t ks)) ∧
        (last < t → lookAt t ks' = lookAt t (sealedAfter (max first (last + 1)) t ks)) := by
  intro first last
  obtain ⟨ks₁, ks₂, hsweep, hre₁, hre₂, hsame⟩ := h.exists_borders_span (m := m) a hn htotal
  have hborder {s : Int} (hs : s ∈ borders first last total) (hs' : s ∉ span first last) :
      ∃ b ∈ ks₂, newKey s ks = .ok b := by
    obtain ⟨b, rfl, hb, -⟩ := hre₁.made s hs
    exact ⟨b, (hre₂.others b hs').mpr hb, (hsame b.time).symm.trans (hre₁.editable.newKey_of_mem hb)⟩
  have hothers (l : Key) (hl : l.time ∉ borders first last total) (hl' : l.time ∉ span first last) :
      l ∈ ks₂ ↔ l ∈ ks :=
    (hre₂.others l hl').trans (hre₁.others l hl)
  simp only [mem_borders, mem_span] at hborder hothers
  refine ⟨ks₂, hsweep, fun t hzero ht => ⟨fun hlt => ?_, fun hlt => ?_⟩⟩
  · obtain ⟨b, hb, hnew⟩ := hborder (s := first - 1) (by omega) (by omega)
    exact lookAt_before h hre₂.editable hb hnew (by omega) fun l hl => hothers l (by omega) (by omega)
  · obtain ⟨b, hb, hnew⟩ := hborder (s := max first (last + 1)) (by omega) (by omega)
    exact lookAt_after h hre₂.editable hb hnew (by omega) fun l hl => hothers l (by omega) (by omega)

end Localizer.Animation
