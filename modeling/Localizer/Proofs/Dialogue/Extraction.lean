import Localizer.Dialogue.Extraction
import Localizer.Proofs.Dialogue.Statement
import Localizer.Proofs.Text.Words

/-!
# What extraction takes from a script

Extraction follows the code with a stack and adds an item for each text that a call shows. Here the
two are taken apart: `showAll` gives the texts that are shown, in order and each with the number
that was pushed with it, and `addAll` makes items of them.

The stack machine is *linear*: no statement makes two of one text (`subperm_shown`), so that what a
run shows is part of what it pushes. It is also *blind* to texts and their numbers (`showAll_map`):
if the texts are pushed in another wording or with other numbers, the same ones are shown, in that
wording and with those numbers. So the lines that the items come from are found by running the
machine once more, with each line of the script numbered by its position (`origins`).
-/

namespace Localizer.Dialogue

open List Text Function Statement Value

variable {n : Nat} {c : Char} {as bs : List Value} {ls : List Text}

/-! ### Keys -/

theorem hexValue?_of_mem_keyOfLine (h : c ∈ keyOfLine n) : (hexValue? c).isSome = true := by
  obtain ⟨d, hd, rfl⟩ := mem_upperHex h
  rw [hexValue?_upperHexDigit d hd]
  rfl

theorem not_blank_of_mem_keyOfLine (h : c ∈ keyOfLine n) : isBlank c = false :=
  forall_mem_upperHex (P := fun c => isBlank c = false) (by decide) c h

/-- **Every form of the key of a line names the line.** -/
theorem lineOfKey?_keyForm (n i : Nat) : lineOfKey? (keyForm (keyOfLine n) i) = some n := by
  obtain ⟨s, hs, hform⟩ : ∃ s : Text, (∀ c, s.head? = some c → (hexValue? c).isSome = false) ∧
      keyForm (keyOfLine n) i = keyOfLine n ++ s := by
    unfold keyForm
    split
    · exact ⟨[], by simp, (append_nil _).symm⟩
    · refine ⟨"_" ++ decimal (i + 1), fun c hc => ?_, append_assoc ..⟩
      obtain rfl : '_' = c := Option.some.inj hc
      decide
  have hne : keyOfLine n ≠ [] := upperHex_ne_nil 1 _
  have hstart : trimStart (keyOfLine n ++ s) = keyOfLine n ++ s := by
    refine trimStart_eq_self fun c hc => ?_
    rw [head?_append_of_ne_nil _ hne] at hc
    exact not_blank_of_mem_keyOfLine (mem_of_head? hc)
  have hdigits : (keyOfLine n ++ s).takeWhile (fun c => (hexValue? c).isSome) = keyOfLine n :=
    takeWhile_append_eq_left (fun c hc => hexValue?_of_mem_keyOfLine hc) hs
  rw [hform, lineOfKey?, hstart, hdigits]
  split
  · next h => exact absurd h hne
  · exact congrArg some (hexNumber_upperHex 1 n)

theorem keyForm_injective (base : Text) : Function.Injective (keyForm base) := by
  intro i j h
  unfold keyForm at h
  split at h <;> split at h
  · omega
  · have := congrArg length h
    simp at this
  · have := congrArg length h
    simp at this
  · have hdecimal := decimal_injective (append_cancel_left h)
    omega

theorem freshForm_not_mem {used : List Text} {base : Text} {i fuel : Nat}
    (hfuel : i + fuel = used.length) (hbefore : ∀ j < i, keyForm base j ∈ used) :
    freshForm used base i fuel ∉ used := by
  induction fuel generalizing i with
  | zero =>
    -- the forms up to this one are more than there are keys in use
    intro hmem
    have hforms : (range (i + 1)).map (keyForm base) ⊆ used := by
      intro key hkey
      obtain ⟨j, hj, rfl⟩ := mem_map.mp hkey
      rcases Nat.lt_succ_iff_lt_or_eq.mp (mem_range.mp hj) with hlt | rfl
      · exact hbefore j hlt
      · exact hmem
    have hnodup : ((range (i + 1)).map (keyForm base)).Nodup := nodup_range.map (keyForm_injective base)
    have hlength := (hnodup.subperm hforms).length_le
    simp only [length_map, length_range] at hlength
    omega
  | succ fuel ih =>
    rw [freshForm]
    split
    · next hused =>
      refine ih (by omega) fun j hj => ?_
      rcases Nat.lt_succ_iff_lt_or_eq.mp hj with hlt | rfl
      · exact hbefore j hlt
      · exact contains_iff_mem.mp hused
    · next hused => exact fun hmem => hused (contains_iff_mem.mpr hmem)

theorem freshKey_not_mem (used : List Text) (base : Text) : freshKey used base ∉ used :=
  freshForm_not_mem (Nat.zero_add _) fun _ h => absurd h (Nat.not_lt_zero _)

theorem exists_freshKey_eq (used : List Text) (base : Text) :
    ∃ i, freshKey used base = keyForm base i := by
  unfold freshKey
  generalize used.length = fuel
  generalize 0 = i
  induction fuel generalizing i with
  | zero => exact ⟨i, rfl⟩
  | succ fuel ih =>
    rw [freshForm]
    split
    · exact ih (i + 1)
    · exact ⟨i, rfl⟩

theorem lineOfKey?_freshKey (used : List Text) (n : Nat) :
    lineOfKey? (freshKey used (keyOfLine n)) = some n := by
  obtain ⟨i, hi⟩ := exists_freshKey_eq used (keyOfLine n)
  rw [hi, lineOfKey?_keyForm]

/-! ### Items -/

/-- Makes items of texts that are shown, each with its number and its context. -/
def addAll (items : List Item) (shown : List (Text × Nat × Text)) : List Item :=
  shown.foldl (fun is x => addItem is x.1 x.2.1 x.2.2) items

theorem addAll_append (items : List Item) (xs ys : List (Text × Nat × Text)) :
    addAll items (xs ++ ys) = addAll (addAll items xs) ys := foldl_append

def MadeOf (it : Item) (x : Text × Nat × Text) : Prop :=
  it.text = x.1 ∧ lineOfKey? it.key = some x.2.1 ∧ it.context = x.2.2

theorem addAll_madeOf {items : List Item} {before : List (Text × Nat × Text)}
    (h : Forall₂ MadeOf items before) (xs : List (Text × Nat × Text)) :
    Forall₂ MadeOf (addAll items xs) (before ++ xs) := by
  induction xs generalizing items before with
  | nil => rwa [append_nil]
  | cons x xs ih =>
    have hx : Forall₂ MadeOf (addItem items x.1 x.2.1 x.2.2) (before ++ [x]) :=
      rel_append h (.cons ⟨rfl, lineOfKey?_freshKey _ _, rfl⟩ .nil)
    rw [← singleton_append, ← append_assoc]
    exact ih hx

theorem nodup_keys_addAll (items : List Item) (h : (items.map Item.key).Nodup)
    (xs : List (Text × Nat × Text)) : ((addAll items xs).map Item.key).Nodup := by
  induction xs generalizing items with
  | nil => exact h
  | cons x xs ih =>
    have hx : ((addItem items x.1 x.2.1 x.2.2).map Item.key).Nodup := by
      rw [addItem, map_append, map_singleton]
      exact nodup_append.mpr ⟨h, nodup_singleton _, fun key hkey key' hkey' heq =>
        freshKey_not_mem _ _ (mem_singleton.mp hkey' ▸ heq ▸ hkey)⟩
    exact ih _ hx

/-! ### What a statement does -/

section

variable (loc : Locale) (cast : Cast)

def Statement.stackAfter (line : Text) (n : Nat) (stack : List Value) : Statement → List Value
  | .number k => .number k :: stack
  | .symbol => .symbol :: stack
  | .call count _ => afterCall (min count stack.length) stack
  | .leave count => afterCall (min count stack.length) stack
  | .operation op => operate op stack
  | .text => .text line n :: stack
  | .other => stack

def Statement.sceneAfter (stack : List Value) (scene : Scene) : Statement → Scene
  | .call count function => scene.afterCall function (arguments (min count stack.length) stack)
  | _ => scene

def Statement.shown (stack : List Value) (scene : Scene) : Statement → List (Text × Nat × Text)
  | .call count function =>
    shownTexts loc cast (scene.afterCall function (arguments (min count stack.length) stack)) function
      (arguments (min count stack.length) stack)
  | _ => []

/-- **What a statement does**, in one equation. -/
theorem execute_eq (e : Extraction) (line : Text) (n : Nat) (s : Statement) :
    e.execute loc cast line n s =
      { e with
        stack := s.stackAfter line n e.stack
        scene := s.sceneAfter e.stack e.scene
        items := addAll e.items (s.shown loc cast e.stack e.scene) } := by
  cases s <;> rfl

/-- The texts that statements show, each of them with the line it stands on and a number. -/
def showAll : List Value → Scene → List (Statement × Text × Nat) → List (Text × Nat × Text)
  | _, _, [] => []
  | stack, scene, (s, line, n) :: code =>
    s.shown loc cast stack scene ++ showAll (s.stackAfter line n stack) (s.sceneAfter stack scene) code

end

/-! ### Nothing is shown twice -/

def pushedTexts (code : List (Statement × Text × Nat)) : List (Text × Nat) :=
  (code.filter fun x => x.1 = .text).map Prod.snd

section

variable {loc : Locale} {cast : Cast}

theorem textsOf_append (as bs : List Value) : textsOf (as ++ bs) = textsOf as ++ textsOf bs :=
  filterMap_append

theorem arguments_append_afterCall (count : Nat) (stack : List Value) :
    (arguments count stack ++ afterCall count stack).Perm stack := by
  unfold arguments afterCall
  split
  · rw [append_nil]
    exact stack.reverse_perm
  · exact ((reverse_perm _).append_right _).trans (by rw [take_append_drop])

theorem textsOf_perm (h : as.Perm bs) : (textsOf as).Perm (textsOf bs) := h.filterMap _

theorem textsOf_arguments_append (count : Nat) (stack : List Value) :
    (textsOf (arguments count stack) ++ textsOf (afterCall count stack)).Perm (textsOf stack) := by
  rw [← textsOf_append]
  exact textsOf_perm (arguments_append_afterCall count stack)

theorem textsOf_sublist (h : as.Sublist bs) : (textsOf as).Sublist (textsOf bs) := h.filterMap _

theorem textsOf_operate_subperm (op : Text) (stack : List Value) :
    (textsOf (operate op stack)).Subperm (textsOf stack) := by
  unfold operate
  split
  · split
    · next a b s =>
      exact (textsOf_sublist ((sublist_cons_self b s).cons a)).subperm
    · exact Subperm.refl _
  · split
    · exact (textsOf_sublist stack.tail_sublist).subperm
    · split
      · split
        · next a b s => exact (textsOf_perm (.swap a b s)).subperm
        · exact Subperm.refl _
      · split
        · exact (textsOf_sublist stack.tail_sublist).subperm
        · split
          · exact Subperm.refl _
          · exact Subperm.refl _

theorem map_shownTexts_sublist (loc : Locale) (cast : Cast) (scene : Scene) (function : Nat) (args : List Value) :
    ((shownTexts loc cast scene function args).map fun x => (x.1, x.2.1)).Sublist (textsOf args) := by
  unfold shownTexts
  split
  · simp [comp_def]
  · split
    · simp [comp_def]
    · exact nil_sublist _

/-- **A statement makes no two of one text**: what it shows and what it leaves on the stack was on
the stack before, or is the text that it pushes. -/
theorem subperm_shown (loc : Locale) (cast : Cast) (line : Text) (n : Nat) (stack : List Value) (scene : Scene)
    (s : Statement) :
    (((s.shown loc cast stack scene).map fun x => (x.1, x.2.1)) ++ textsOf (s.stackAfter line n stack)).Subperm
      (textsOf stack ++ pushedTexts [(s, line, n)]) := by
  cases s with
  | number k
  | symbol
  | other => exact (append_nil (textsOf stack)).symm ▸ Subperm.refl _
  | text => exact (perm_append_singleton (line, n) (textsOf stack)).symm.subperm
  | operation op => exact (append_nil (textsOf stack)).symm ▸ textsOf_operate_subperm op stack
  | leave count =>
    have htaken := textsOf_arguments_append (min count stack.length) stack
    exact (append_nil (textsOf stack)).symm ▸ (sublist_append_right _ _).subperm.trans htaken.subperm
  | call count function =>
    have hshown := map_shownTexts_sublist loc cast
      (scene.afterCall function (arguments (min count stack.length) stack)) function
      (arguments (min count stack.length) stack)
    have htaken := textsOf_arguments_append (min count stack.length) stack
    exact (append_nil (textsOf stack)).symm ▸ (hshown.append_right _).subperm.trans htaken.subperm

/-- **Each text that is pushed is shown at most once.** -/
theorem subperm_showAll (loc : Locale) (cast : Cast) (stack : List Value) (scene : Scene)
    (code : List (Statement × Text × Nat)) :
    ((showAll loc cast stack scene code).map fun x => (x.1, x.2.1)).Subperm (textsOf stack ++ pushedTexts code) := by
  induction code generalizing stack scene with
  | nil => exact nil_subperm
  | cons x code ih =>
    obtain ⟨s, line, n⟩ := x
    have hpushed : pushedTexts ((s, line, n) :: code) = pushedTexts [(s, line, n)] ++ pushedTexts code := by
      rw [pushedTexts, ← singleton_append, filter_append, map_append]
      rfl
    rw [showAll, map_append, hpushed, ← append_assoc]
    have hrest := (subperm_append_left ((s.shown loc cast stack scene).map fun x => (x.1, x.2.1))).mpr
      (ih (s.stackAfter line n stack) (s.sceneAfter stack scene))
    have hstep := (subperm_append_right (pushedTexts code)).mpr
      (subperm_shown loc cast line n stack scene s)
    rw [append_assoc] at hstep
    exact hrest.trans hstep

/-! ### Other wordings and numbers -/

def Value.map (f : Text × Nat → Text × Nat) : Value → Value
  | .text t n => .text (f (t, n)).1 (f (t, n)).2
  | v => v

/-- A text that is shown, changed in the same way. -/
def relabel (f : Text × Nat → Text × Nat) (x : Text × Nat × Text) : Text × Nat × Text :=
  ((f (x.1, x.2.1)).1, (f (x.1, x.2.1)).2, x.2.2)

variable (f : Text × Nat → Text × Nat)

theorem textsOf_map (vs : List Value) : textsOf (vs.map (map f)) = (textsOf vs).map f := by
  induction vs with
  | nil => rfl
  | cons v vs ih =>
    cases v with
    | number n
    | symbol => exact ih
    | text t n => exact congrArg (f (t, n) :: ·) ih

theorem numberAt?_map (vs : List Value) (i : Nat) :
    numberAt? (vs.map (map f)) i = numberAt? vs i := by
  rw [numberAt?, numberAt?, getElem?_map]
  cases vs[i]? with
  | none => rfl
  | some v => cases v <;> rfl

theorem arguments_map (count : Nat) (stack : List Value) :
    arguments count (stack.map (Value.map f)) = (arguments count stack).map (Value.map f) := by
  unfold arguments
  split <;> simp

theorem afterCall_map (count : Nat) (stack : List Value) :
    afterCall count (stack.map (Value.map f)) = (afterCall count stack).map (Value.map f) := by
  unfold afterCall
  split <;> simp

theorem operate_map (op : Text) (stack : List Value) :
    operate op (stack.map (Value.map f)) = (operate op stack).map (Value.map f) := by
  unfold operate
  split
  · match stack with
    | []
    | [_]
    | _ :: _ :: _ => rfl
  · split
    · rw [map_cons, map_tail]
      rfl
    · split
      · match stack with
        | []
        | [_]
        | _ :: _ :: _ => rfl
      · split
        · rw [map_tail]
        · split
          · rfl
          · rfl

theorem sceneAfterCall_map (scene : Scene) (function : Nat) (args : List Value) :
    scene.afterCall function (args.map (map f)) = scene.afterCall function args := by
  simp only [Scene.afterCall, numberAt?_map]

theorem shownTexts_map (scene : Scene) (function : Nat) (args : List Value) :
    shownTexts loc cast scene function (args.map (map f)) =
      (shownTexts loc cast scene function args).map (relabel f) := by
  unfold shownTexts
  split
  · simp [textsOf_map, relabel, comp_def]
  · split
    · simp [textsOf_map, relabel, comp_def, zipIdx_map]
    · rfl

/-- A line with other wording or number pushes the changed text, if it is one. -/
def Relabels (x y : Statement × Text × Nat) : Prop := y.1 = x.1 ∧ (x.1 = .text → y.2 = f x.2)

variable {f}

theorem stackAfter_map {s : Statement} {line line' : Text} {n' : Nat} (stack : List Value)
    (h : s = .text → (line', n') = f (line, n)) :
    s.stackAfter line' n' (stack.map (Value.map f)) =
      (s.stackAfter line n stack).map (Value.map f) := by
  cases s with
  | number k
  | symbol
  | other => rfl
  | operation op => exact operate_map f op stack
  | leave count =>
    rw [stackAfter, stackAfter, length_map]
    exact afterCall_map f _ stack
  | call count function =>
    rw [stackAfter, stackAfter, length_map]
    exact afterCall_map f _ stack
  | text =>
    rw [stackAfter, stackAfter, map_cons, Value.map, ← h rfl]

theorem sceneAfter_map (s : Statement) (stack : List Value) (scene : Scene) :
    s.sceneAfter (stack.map (map f)) scene = s.sceneAfter stack scene := by
  cases s with
  | call count function =>
    rw [sceneAfter, sceneAfter, length_map, arguments_map, sceneAfterCall_map]
  | _ => rfl

theorem shown_map (s : Statement) (stack : List Value) (scene : Scene) :
    s.shown loc cast (stack.map (map f)) scene = (s.shown loc cast stack scene).map (relabel f) := by
  cases s with
  | call count function =>
    rw [shown, shown, length_map, arguments_map, sceneAfterCall_map, shownTexts_map]
  | _ => rfl

/-- **The machine is blind to texts and their numbers**: if others are pushed, the same ones are
shown. -/
theorem showAll_map {code code' : List (Statement × Text × Nat)}
    (h : Forall₂ (Relabels f) code code') (stack : List Value) (scene : Scene) :
    showAll loc cast (stack.map (map f)) scene code' =
      (showAll loc cast stack scene code).map (relabel f) := by
  induction h generalizing stack scene with
  | nil => rfl
  | @cons x y code code' hxy _ ih =>
    obtain ⟨s', line', n'⟩ := y
    obtain ⟨rfl, hpush⟩ := hxy
    rw [showAll, showAll, map_append, shown_map, sceneAfter_map, stackAfter_map stack hpush, ih]

end

/-! ### Following a listing -/

/-- A line of code of a listing. -/
structure CodeSite where
  line : Text
  number : Nat
  position : Nat
  deriving DecidableEq

/-- The lines of code among lines of a listing, the cursor being before the first of them, which has
the position `p`. -/
def codeSites : Cursor → Nat → List Text → List CodeSite
  | _, _, [] => []
  | c, p, l :: ls => ((c.number? l).map fun n => ⟨l, n, p⟩).toList ++ codeSites (c.next l) (p + 1) ls

/-- Lines of code as statements, each text being pushed with the number that `mark` gives it. -/
def marked (mark : CodeSite → Nat) (sites : List CodeSite) : List (Statement × Text × Nat) :=
  sites.map fun s => (.ofLine s.line, s.line, mark s)

/-- The texts that a listing shows, each with the number that `mark` gives its line. -/
def shownIn (loc : Locale) (cast : Cast) (mark : CodeSite → Nat) (ls : List Text) :
    List (Text × Nat × Text) :=
  showAll loc cast [] {} (marked mark (codeSites {} 0 ls))

/-- For each text that extraction finds, the position of its line in the script. -/
def origins (loc : Locale) (cast : Cast) (script : Text) : List Nat :=
  (shownIn loc cast CodeSite.position (lines script)).map fun x => x.2.1

section

variable {loc : Locale} {cast : Cast} {s : CodeSite}

theorem items_foldl_step (e : Extraction) (p : Nat) (ls : List Text) :
    (ls.foldl (Extraction.step loc cast) e).items =
      addAll e.items (showAll loc cast e.stack e.scene (marked CodeSite.number (codeSites e.cursor p ls))) := by
  induction ls generalizing e p with
  | nil => rfl
  | cons l ls ih =>
    rw [foldl_cons, ih _ (p + 1), Extraction.step, codeSites]
    cases e.cursor.number? l with
    | none => rfl
    | some n =>
      simp [execute_eq, marked, showAll, addAll_append]

/-- **Extraction makes items of the texts that the listing shows.** -/
theorem extract_eq (script : Text) :
    extract loc cast script = addAll [] (shownIn loc cast CodeSite.number (lines script)) :=
  items_foldl_step {} 0 _

theorem mem_codeSites (before : List Text)
    (h : s ∈ codeSites (before.foldl Cursor.next {}) before.length ls) :
    (before ++ ls)[s.position]? = some s.line ∧ IsCodeLine (before ++ ls) s.position s.number := by
  induction ls generalizing before with
  | nil => cases h
  | cons l ls ih =>
    rcases mem_append.mp h with h | h
    · obtain ⟨n, hn, rfl⟩ := Option.map_eq_some_iff.mp (Option.mem_toList.mp h)
      exact ⟨by simp, isCodeLine_of_number? ls hn⟩
    · have hrest := ih (before ++ [l]) (by rwa [foldl_concat, length_append])
      rwa [append_assoc] at hrest

theorem position_of_mem_codeSites {c : Cursor} {p : Nat} (h : s ∈ codeSites c p ls) :
    p ≤ s.position := by
  induction ls generalizing c p with
  | nil => cases h
  | cons l ls ih =>
    rcases mem_append.mp h with h | h
    · obtain ⟨n, -, rfl⟩ := Option.map_eq_some_iff.mp (Option.mem_toList.mp h)
      exact Nat.le_refl p
    · exact Nat.le_of_succ_le (ih h)

theorem nodup_positions (c : Cursor) (p : Nat) (ls : List Text) :
    ((codeSites c p ls).map CodeSite.position).Nodup := by
  induction ls generalizing c p with
  | nil => exact nodup_nil
  | cons l ls ih =>
    rw [codeSites]
    cases c.number? l with
    | none => exact ih _ _
    | some n =>
      refine nodup_cons.mpr ⟨fun h => ?_, ih _ _⟩
      obtain ⟨s, hs, hp⟩ := mem_map.mp h
      have hle : p + 1 ≤ s.position := position_of_mem_codeSites hs
      have hpos : s.position = p := hp
      omega

theorem pushedTexts_marked (mark : CodeSite → Nat) (sites : List CodeSite) :
    pushedTexts (marked mark sites) =
      (sites.filter fun s => isText s.line).map fun s => (s.line, mark s) := by
  rw [pushedTexts, marked, filter_map, map_map]
  rfl

def CodeSite.code (s : CodeSite) : Nat := Nat.pair s.number s.position

/-- The line of code with a text and with the number and position that are given in one number. -/
def CodeSite.ofCode (y : Text × Nat) : CodeSite := ⟨y.1, y.2.unpair.1, y.2.unpair.2⟩

theorem CodeSite.ofCode_code (s : CodeSite) : CodeSite.ofCode (s.line, s.code) = s := by
  simp [CodeSite.ofCode, CodeSite.code]

theorem CodeSite.ofCode_injective : Function.Injective CodeSite.ofCode := by
  rintro ⟨t, m⟩ ⟨u, n⟩ h
  obtain ⟨rfl, hnumber, hposition⟩ := CodeSite.mk.inj h
  rw [← Nat.pair_unpair m, ← Nat.pair_unpair n, hnumber, hposition]

/-- **What a listing shows is a choice of its text lines**, none of them twice, each with a context.
The numbers of the lines have no part in the choice. -/
theorem exists_shownIn (loc : Locale) (cast : Cast) (ls : List Text) :
    ∃ ys : List (CodeSite × Text), (ys.map Prod.fst).Subperm ((codeSites {} 0 ls).filter fun s => isText s.line) ∧
      ∀ mark, shownIn loc cast mark ls = ys.map fun y => (y.1.line, mark y.1, y.2) := by
  -- the machine is run with lines that carry all there is to know about them
  refine ⟨(shownIn loc cast CodeSite.code ls).map fun x => (CodeSite.ofCode (x.1, x.2.1), x.2.2), ?_, fun mark => ?_⟩
  · have hsub := Subperm.map CodeSite.ofCode_injective
      (subperm_showAll loc cast [] {} (marked CodeSite.code (codeSites {} 0 ls)))
    have hsites : (pushedTexts (marked CodeSite.code (codeSites {} 0 ls))).map CodeSite.ofCode =
        (codeSites {} 0 ls).filter fun s => isText s.line := by
      rw [pushedTexts_marked, map_map]
      exact (map_congr_left fun s _ => s.ofCode_code).trans (map_id' _)
    rw [map_map] at hsub ⊢
    exact hsites ▸ hsub
  · have hmark : Forall₂ (Relabels fun y => (y.1, mark (CodeSite.ofCode y)))
        (marked CodeSite.code (codeSites {} 0 ls)) (marked mark (codeSites {} 0 ls)) := by
      rw [marked, marked, forall₂_map_left_iff, forall₂_map_right_iff]
      exact forall₂_same.mpr fun s _ => ⟨rfl, fun _ => congrArg (fun s' => (s.line, mark s')) s.ofCode_code.symm⟩
    rw [map_map]
    exact showAll_map hmark [] {}

/-- The item comes from the line at position `p` of a listing: it is the text of that line, and its
key names that line of code. -/
def Item.ComesFrom (ls : List Text) (it : Item) (p : Nat) : Prop :=
  ∃ n, lineOfKey? it.key = some n ∧ ls[p]? = some it.text ∧ IsCodeLine ls p n ∧ isText it.text = true

theorem comesFrom_origins (loc : Locale) (cast : Cast) (script : Text) :
    Forall₂ (Item.ComesFrom (lines script)) (extract loc cast script) (origins loc cast script) := by
  obtain ⟨ys, hsub, hshown⟩ := exists_shownIn loc cast (lines script)
  rw [extract_eq, origins, hshown, hshown, map_map]
  have hmade := forall₂_map_right_iff.mp (addAll_madeOf .nil (ys.map fun y => (y.1.line, y.1.number, y.2)))
  have hsites : ∀ y ∈ ys, y.1 ∈ codeSites {} 0 (lines script) ∧ isText y.1.line = true := fun y hy =>
    mem_filter.mp (hsub.subset (mem_map_of_mem hy))
  refine forall₂_map_right_iff.mpr (((forall₂_and_left _ _).mpr ⟨hsites, hmade.flip⟩).flip.imp ?_)
  rintro it y ⟨⟨hsite, hisText⟩, htext, hkey, -⟩
  obtain ⟨hline, hcode⟩ := mem_codeSites [] hsite
  exact ⟨y.1.number, hkey, htext ▸ hline, hcode, htext ▸ hisText⟩

theorem exists_comesFrom {script : Text} {it : Item} (h : it ∈ extract loc cast script) :
    ∃ p, it.ComesFrom (lines script) p := by
  obtain ⟨i, hi, rfl⟩ := mem_iff_getElem.mp h
  have horigins := comesFrom_origins loc cast script
  exact ⟨_, horigins.get hi (horigins.length_eq ▸ hi)⟩

theorem nodup_origins (loc : Locale) (cast : Cast) (script : Text) :
    (origins loc cast script).Nodup := by
  obtain ⟨ys, hsub, hshown⟩ := exists_shownIn loc cast (lines script)
  obtain ⟨sites, hperm, hsublist⟩ := hsub.trans filter_sublist.subperm
  have hnodup := (nodup_positions {} 0 (lines script)).sublist (hsublist.map CodeSite.position)
  have hpositions := (hperm.map CodeSite.position).nodup_iff.mp hnodup
  rw [origins, hshown, map_map]
  rwa [map_map] at hpositions

/-- **Keys identify lines.** The items of a script have different keys. Each of them comes from a
line of its own, which is the line of code that its key names, and a text. -/
theorem extract_identifies (loc : Locale) (cast : Cast) (script : Text) :
    ((extract loc cast script).map Item.key).Nodup ∧ (origins loc cast script).Nodup ∧
      List.Forall₂ (fun it p => ∃ n, lineOfKey? it.key = some n ∧ 1 ≤ n ∧ (lines script)[p]? = some it.text ∧
        IsCodeLine (lines script) p n ∧ isText it.text = true) (extract loc cast script) (origins loc cast script) := by
  refine ⟨?_, nodup_origins loc cast script, (comesFrom_origins loc cast script).imp ?_⟩
  · rw [extract_eq]
    exact nodup_keys_addAll [] List.nodup_nil _
  · rintro it p ⟨n, hkey, hline, hcode, htext⟩
    exact ⟨n, hkey, hcode.pos, hline, hcode, htext⟩

end

end Localizer.Dialogue
