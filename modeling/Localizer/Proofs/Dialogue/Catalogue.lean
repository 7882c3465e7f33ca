import Localizer.Dialogue.Catalogue
import Localizer.Proofs.Dialogue.Line
import Localizer.Proofs.Directory

/-!
# Titles, scripts and the files with their texts

A note goes from an opening parenthesis to the first closing one, and dropping notes looks for the
next one behind the last. `Drops t u` says what this leaves of a text, and that a text is left as it
is exactly if no opening parenthesis in it is followed by a closing one (`NoteFree`). White space is
treated apart from that: a text has the same characters other than white space when its white space
is collapsed.
-/

namespace Localizer.Dialogue

open List hiding splitOn
open Text

variable {t : Text}

variable {s a : Text} {ws : List Text} {c : Char} {u w : Text}

/-! ### Dropping notes -/

/-- A text in which no opening parenthesis is followed by a closing one. -/
def NoteFree (t : Text) : Prop := t.Pairwise fun c d => c = '(' → d ≠ ')'

/-- What is left of a text without its notes, found from the left. -/
inductive Drops : Text → Text → Prop where
  | keep {t : Text} : NoteFree t → Drops t t
  /-- There is a note, and the search goes on behind it. -/
  | note {s a t u : Text} : '(' ∉ s → ')' ∉ a → Drops t u → Drops (s ++ '(' :: (a ++ ')' :: t)) (s ++ u)

theorem noteFree_of_not_mem (h : '(' ∉ t) : NoteFree t :=
  pairwise_of_forall_mem_list fun _ hc _ _ hopen => absurd (hopen ▸ hc) h

theorem noteFree_append_iff (h : '(' ∉ s) : NoteFree (s ++ t) ↔ NoteFree t := by
  unfold NoteFree
  rw [pairwise_append]
  refine ⟨fun hst => hst.2.1, fun ht => ⟨noteFree_of_not_mem h, ht, ?_⟩⟩
  intro c hc d _ hopen
  exact absurd (hopen ▸ hc) h

theorem noteFree_open_iff : NoteFree ('(' :: t) ↔ ')' ∉ t := by
  unfold NoteFree
  rw [pairwise_cons]
  constructor
  · intro h hm
    exact h.1 _ hm rfl rfl
  · intro h
    refine ⟨fun d hd _ hclose => h (hclose ▸ hd), pairwise_of_forall_mem_list ?_⟩
    intro c _ d hd _ hclose
    exact h (hclose ▸ hd)

theorem noteFree_of_drops (h : Drops t u) : NoteFree u := by
  induction h with
  | keep ht => exact ht
  | note hs _ _ ih => exact (noteFree_append_iff hs).mpr ih

theorem exists_drops (t : Text) : ∃ u, Drops t u := by
  by_cases hopen : '(' ∈ t
  · obtain ⟨s, v, rfl, hs⟩ := eq_append_cons_of_mem hopen
    by_cases hclose : ')' ∈ v
    · obtain ⟨a, w, rfl, ha⟩ := eq_append_cons_of_mem hclose
      obtain ⟨u, hu⟩ := exists_drops w
      exact ⟨s ++ u, .note hs ha hu⟩
    · exact ⟨_, .keep ((noteFree_append_iff hs).mpr (noteFree_open_iff.mpr hclose))⟩
  · exact ⟨t, .keep (noteFree_of_not_mem hopen)⟩
termination_by t.length
decreasing_by
  subst_vars
  simp only [length_append, length_cons]
  omega

theorem dropNotesFrom_length_append (s t : Text) :
    dropNotesFrom s.length (s ++ t) = dropNotesFrom 0 t := by
  induction s with
  | nil => rfl
  | cons c s ih => exact ih

theorem dropNotesFrom_append (h : '(' ∉ s) (t : Text) : dropNotesFrom 0 (s ++ t) = s ++ dropNotesFrom 0 t := by
  induction s with
  | nil => rfl
  | cons c s ih =>
    have hc : c ≠ '(' := fun hc => h (hc ▸ mem_cons_self)
    have hrest := ih fun hm => h (mem_cons_of_mem c hm)
    rw [cons_append, dropNotesFrom, hrest]
    simp [hc]

theorem dropNotesFrom_note (h : ')' ∉ a) (t : Text) :
    dropNotesFrom 0 ('(' :: (a ++ ')' :: t)) = dropNotesFrom 0 t := by
  have hclosed : (a ++ ')' :: t).contains ')' = true := by simp
  have hnote : (a ++ ')' :: t).takeWhile (· ≠ ')') = a :=
    takeWhile_append_eq_left (fun c hc => decide_eq_true fun he => h (he ▸ hc)) fun c hc => by
      obtain rfl : ')' = c := Option.some.inj hc
      rfl
  have hskip := dropNotesFrom_length_append (a ++ [')']) t
  rw [dropNotesFrom, hclosed, hnote]
  rwa [length_append, append_assoc] at hskip

theorem dropNotesFrom_of_noteFree (h : NoteFree t) : dropNotesFrom 0 t = t := by
  induction t with
  | nil => rfl
  | cons c t ih =>
    have hkept : (decide (c = '(') && t.contains ')') = false := by
      rw [Bool.and_eq_false_iff, decide_eq_false_iff_not, contains_eq_mem, decide_eq_false_iff_not]
      by_cases hc : c = '('
      · rw [hc] at h
        exact .inr (noteFree_open_iff.mp h)
      · exact .inl hc
    rw [dropNotesFrom, hkept, ih (pairwise_cons.mp h).2]
    rfl

/-- **Dropping the notes of a text leaves what `Drops` says.** -/
theorem dropNotesFrom_eq_iff : dropNotesFrom 0 t = u ↔ Drops t u := by
  have hdrops : ∀ {t u : Text}, Drops t u → dropNotesFrom 0 t = u := fun h => by
    induction h with
    | keep ht => exact dropNotesFrom_of_noteFree ht
    | note hs ha _ ih => rw [dropNotesFrom_append hs, dropNotesFrom_note ha, ih]
  refine ⟨fun h => ?_, hdrops⟩
  obtain ⟨u', hu'⟩ := exists_drops t
  rwa [← h, hdrops hu']

theorem dropNotesFrom_sublist (t : Text) : (dropNotesFrom 0 t).Sublist t := by
  have hdrops : Drops t (dropNotesFrom 0 t) := dropNotesFrom_eq_iff.mp rfl
  generalize dropNotesFrom 0 t = u at hdrops
  induction hdrops with
  | keep _ => exact Sublist.refl _
  | @note s a t u _ _ _ ih =>
    refine Sublist.append (Sublist.refl s) (.cons _ ?_)
    exact sublist_append_of_sublist_right (.cons _ ih)

theorem noteFree_dropNotes (t : Text) : NoteFree (dropNotesFrom 0 t) :=
  noteFree_of_drops (dropNotesFrom_eq_iff.mp rfl)

/-! ### Collapsing white space -/

/-- A text without white space at its ends, and without two blank characters side by side. -/
structure SingleSpaced (t : Text) : Prop where
  trimmed : trim t = t
  single : t.IsChain fun c d => isBlank c = true → isBlank d = false

theorem isWord_of_mem_words (h : w ∈ words t) : IsWord w := by
  obtain ⟨ws, hws⟩ := exists_spells t
  rw [words_of_spells hws] at h
  induction hws with
  | nil _ => cases h
  | cons _ hw _ _ ih =>
    rcases mem_cons.mp h with rfl | h
    · exact hw
    · exact ih h

theorem spells_join (h : ∀ w ∈ ws, IsWord w) : Spells ws (join " ".toList ws) := by
  induction ws with
  | nil => exact .nil blanks_nil
  | cons w ws ih =>
    have hw := h w mem_cons_self
    have hws := ih fun v hv => h v (mem_cons_of_mem w hv)
    cases ws with
    | nil =>
      have hword : Spells [w] (w ++ []) := .cons blanks_nil hw nofun (.nil blanks_nil)
      rw [join_singleton]
      rwa [append_nil] at hword
    | cons v vs =>
      have hbreak : BreaksOff (" ".toList ++ join " ".toList (v :: vs)) := fun c hc => by
        obtain rfl : ' ' = c := Option.some.inj hc
        decide
      have hspace : Blanks " ".toList := fun c hc => by
        obtain rfl : c = ' ' := mem_singleton.mp hc
        decide
      exact .cons blanks_nil hw hbreak (words_eq_iff.mp ((words_append_of_blanks hspace _).trans (words_of_spells hws)))

theorem withoutBlanks_of_spells (h : Spells ws t) : withoutBlanks t = ws.flatten := by
  induction h with
  | nil ht => exact withoutBlanks_of_blanks ht
  | @cons lead w rest ws hlead hw _ _ ih =>
    have hkept : withoutBlanks w = w := filter_eq_self.mpr fun c hc => by rw [hw.not_blank c hc]; rfl
    rw [withoutBlanks_append, withoutBlanks_append, withoutBlanks_of_blanks hlead, hkept, ih, flatten_cons,
      nil_append]

theorem withoutBlanks_collapseBlanks (t : Text) :
    withoutBlanks (collapseBlanks t) = withoutBlanks t := by
  obtain ⟨ws, hws⟩ := exists_spells t
  have hwords := words_of_spells hws
  rw [withoutBlanks_of_spells hws, collapseBlanks, ← hwords]
  exact withoutBlanks_of_spells (spells_join fun w hw => isWord_of_mem_words hw)

theorem eq_space_of_mem_collapseBlanks (h : c ∈ collapseBlanks t) (hc : isBlank c = true) :
    c = ' ' := by
  rcases mem_join h with h | ⟨w, hw, hm⟩
  · exact mem_singleton.mp h
  · simp [(isWord_of_mem_words hw).not_blank c hm] at hc

theorem SingleSpaced.not_blank_of_head? (h : SingleSpaced t) (hc : t.head? = some c) :
    isBlank c = false := by
  rw [← h.trimmed, head?_trim] at hc
  simpa using find?_some hc

theorem SingleSpaced.not_blank_of_getLast? (h : SingleSpaced t) (hc : t.getLast? = some c) :
    isBlank c = false := by
  rw [← h.trimmed] at hc
  exact getLast?_trimEnd hc

theorem SingleSpaced.of_isWord (h : IsWord w) : SingleSpaced w := by
  refine ⟨trim_eq_self_of_forall h.not_blank, Pairwise.isChain (pairwise_of_forall_mem_list ?_)⟩
  intro c _ d hd _
  exact h.not_blank d hd

theorem SingleSpaced.space_cons (hw : IsWord w) (h : SingleSpaced t) (hne : t ≠ []) :
    SingleSpaced (w ++ ' ' :: t) := by
  refine ⟨trim_eq_self (fun c hc => ?_) (fun c hc => ?_), ?_⟩
  · rw [head?_append_of_ne_nil _ hw.ne_nil] at hc
    exact hw.not_blank c (mem_of_head? hc)
  · rw [getLast?_append_of_ne_nil w (cons_ne_nil _ _), getLast?_cons_of_ne_nil hne] at hc
    exact h.not_blank_of_getLast? hc
  · refine (SingleSpaced.of_isWord hw).single.append (isChain_cons.mpr ⟨?_, h.single⟩) ?_
    · exact fun d hd _ => h.not_blank_of_head? hd
    · intro c hc d hd hblank
      simp [hw.not_blank c (mem_of_getLast? hc)] at hblank

theorem singleSpaced_join (h : ∀ w ∈ ws, IsWord w) : SingleSpaced (join " ".toList ws) := by
  induction ws with
  | nil => exact ⟨rfl, .nil⟩
  | cons w ws ih =>
    obtain ⟨hw, hws⟩ := forall_mem_cons.mp h
    cases ws with
    | nil =>
      rw [join_singleton]
      exact .of_isWord hw
    | cons v vs =>
      have hne : join " ".toList (v :: vs) ≠ [] := fun hnil => by
        have hwords := words_of_spells (spells_join hws)
        rw [hnil] at hwords
        cases hwords
      exact .space_cons hw (ih hws) hne

theorem singleSpaced_collapseBlanks (t : Text) : SingleSpaced (collapseBlanks t) :=
  singleSpaced_join fun _ => isWord_of_mem_words

theorem SingleSpaced.cases (h : SingleSpaced t) (hws : Spells (w :: ws) t) : (ws = [] ∧ t = w) ∨
      ws ≠ [] ∧ ∃ c rest, isBlank c = true ∧ t = w ++ c :: rest ∧ SingleSpaced rest ∧ Spells ws rest := by
  cases hws with
  | @cons lead _ rest _ hlead hw hrest hws =>
    obtain rfl : lead = [] := by
      cases lead with
      | nil => rfl
      | cons c lead =>
        have hblank := hlead c mem_cons_self
        rw [h.not_blank_of_head? rfl] at hblank
        cases hblank
    cases rest with
    | nil => exact .inl ⟨(words_of_spells hws).symm, append_nil w⟩
    | cons c rest =>
      have hc : isBlank c = true := hrest c rfl
      have hsingle := h.single.suffix (suffix_append w (c :: rest))
      have hspells : Spells ws rest := words_eq_iff.mp
        ((words_append_of_blanks (fun d hd => mem_singleton.mp hd ▸ hc) rest).symm.trans (words_of_spells hws))
      cases rest with
      | nil =>
        rw [h.not_blank_of_getLast? (by simp)] at hc
        cases hc
      | cons d rest =>
        have hd : isBlank d = false := (isChain_cons_cons.mp hsingle).1 hc
        refine .inr ⟨?_, c, d :: rest, hc, rfl, ⟨trim_eq_self ?_ ?_, (isChain_cons_cons.mp hsingle).2⟩, hspells⟩
        · rintro rfl
          cases hspells with
          | nil hblanks =>
            rw [hblanks d mem_cons_self] at hd
            cases hd
        · intro e he
          exact Option.some.inj he ▸ hd
        · intro e he
          exact h.not_blank_of_getLast? (by simpa using he)

theorem collapseBlanks_eq_self (h : SingleSpaced t) (hspace : ∀ c ∈ t, isBlank c = true → c = ' ') :
    collapseBlanks t = t := by
  obtain ⟨ws, hws⟩ := exists_spells t
  rw [collapseBlanks, words_of_spells hws]
  induction ws generalizing t with
  | nil =>
    cases hws with
    | nil ht => rw [← h.trimmed, ht.trim_eq_nil]; rfl
  | cons w ws ih =>
    rcases h.cases hws with ⟨rfl, rfl⟩ | ⟨hne, c, rest, hc, rfl, hrest, hspells⟩
    · exact join_singleton _ _
    · obtain ⟨v, vs, rfl⟩ := exists_cons_of_ne_nil hne
      obtain rfl : c = ' ' := hspace c (by simp) hc
      have hjoin := ih hrest (fun d hd => hspace d (by simp [hd])) hspells
      rw [join_cons_cons, hjoin, append_assoc]
      rfl

/-- **Collapsing the white space of a single-spaced text with something added gives back the text**
exactly if only white space was added and the text has no white space but plain spaces. -/
theorem collapseBlanks_append_eq_iff {rest : Text} (h : SingleSpaced t) :
    collapseBlanks (t ++ rest) = t ↔ Blanks rest ∧ ∀ c ∈ t, isBlank c = true → c = ' ' := by
  constructor
  · intro heq
    refine ⟨?_, fun c hc hblank => eq_space_of_mem_collapseBlanks (heq.symm ▸ hc) hblank⟩
    -- the other characters are kept, and those of the text are all there are
    have hkept := withoutBlanks_collapseBlanks (t ++ rest)
    rw [heq, withoutBlanks_append, self_eq_append_right, withoutBlanks, filter_eq_nil_iff] at hkept
    intro c hc
    simpa using hkept c hc
  · rintro ⟨hrest, hspace⟩
    rw [collapseBlanks, words_append_blanks t hrest]
    exact collapseBlanks_eq_self h hspace

/-! ### Titles behind a name -/

theorem noteFree_withoutBlanks_iff : NoteFree (withoutBlanks t) ↔ NoteFree t := by
  unfold NoteFree withoutBlanks
  rw [pairwise_filter]
  refine ⟨Pairwise.imp fun h hopen hclose => ?_, Pairwise.imp fun h _ _ => h⟩
  subst hopen hclose
  exact h (by decide) (by decide) rfl rfl

theorem noteFree_plainTitle (t : Text) : NoteFree (plainTitle t) := by
  rw [← noteFree_withoutBlanks_iff, plainTitle, withoutBlanks_collapseBlanks, noteFree_withoutBlanks_iff]
  exact noteFree_dropNotes t

/-- **Titles are in normal form:** they have no notes, and one plain space between words and nowhere
else. -/
theorem plainTitle_normal (t : Text) :
    NoteFree (plainTitle t) ∧ SingleSpaced (plainTitle t) ∧ (∀ c ∈ plainTitle t, isBlank c = true → c = ' ') ∧
      plainTitle (plainTitle t) = plainTitle t := by
  have hfree := noteFree_plainTitle t
  have hspaced : SingleSpaced (plainTitle t) := singleSpaced_collapseBlanks _
  have hspace : ∀ c ∈ plainTitle t, isBlank c = true → c = ' ' := fun c => eq_space_of_mem_collapseBlanks
  refine ⟨hfree, hspaced, hspace, ?_⟩
  rw [plainTitle.eq_1 (plainTitle t), dropNotesFrom_of_noteFree hfree, collapseBlanks_eq_self hspaced hspace]

theorem mem_of_mem_plainTitle (h : c ∈ plainTitle t) (hc : isBlank c = false) : c ∈ t := by
  have hkept : c ∈ withoutBlanks (plainTitle t) := mem_filter.mpr ⟨h, by rw [hc]; rfl⟩
  rw [plainTitle, withoutBlanks_collapseBlanks] at hkept
  exact (dropNotesFrom_sublist t).subset (mem_filter.mp hkept).1

/-- A title whose parentheses do not show when it stands in parentheses itself: it has no closing
one, or nothing but white space comes between its first closing one and an opening one. -/
def Encloses (title : Text) : Prop :=
  ')' ∉ title ∨ ∃ a s b, ')' ∉ a ∧ Blanks s ∧ title = a ++ ')' :: (s ++ '(' :: b)

theorem blanks_dropNotes_title_iff {title : Text} (h : NoteFree title) :
    Blanks (dropNotesFrom 0 ('(' :: (title ++ [')']))) ↔ Encloses title := by
  have hopen_blank : ∀ {s : Text}, Blanks s → '(' ∉ s := fun hs hm => absurd (hs _ hm) (by decide)
  by_cases hclose : ')' ∈ title
  · obtain ⟨a, v, rfl, ha⟩ := eq_append_cons_of_mem hclose
    have hcut : ∀ a' v', ')' ∉ a' → a ++ ')' :: v = a' ++ ')' :: v' → v = v' := fun a' v' ha' heq =>
      (append_sep_inj ha ha' heq).2
    rw [append_assoc, cons_append, dropNotesFrom_note ha]
    by_cases hopen : '(' ∈ v
    · -- the closing parenthesis at the end closes the second note
      obtain ⟨s, b, rfl, hs⟩ := eq_append_cons_of_mem hopen
      have hb : ')' ∉ b := by
        have hrest : NoteFree (s ++ '(' :: b) := (pairwise_append.mp h).2.1.of_cons
        exact noteFree_open_iff.mp ((noteFree_append_iff hs).mp hrest)
      rw [append_assoc, cons_append, dropNotesFrom_append hs, dropNotesFrom_note hb, dropNotesFrom, append_nil]
      constructor
      · intro hblanks
        exact .inr ⟨a, s, b, ha, hblanks, rfl⟩
      · rintro (hnone | ⟨a', s', b', ha', hs', heq⟩)
        · exact absurd hclose hnone
        · obtain ⟨rfl, -⟩ := append_sep_inj hs (hopen_blank hs') (hcut a' _ ha' heq)
          exact hs'
    · have hkept : '(' ∉ v ++ [')'] := by simpa using hopen
      rw [dropNotesFrom_of_noteFree (noteFree_of_not_mem hkept)]
      constructor
      · intro hblanks
        exact absurd (hblanks ')' (by simp)) (by decide)
      · rintro (hnone | ⟨a', s', b', ha', -, heq⟩)
        · exact absurd hclose hnone
        · rw [hcut a' _ ha' heq] at hopen
          exact absurd (by simp) hopen
  · rw [dropNotesFrom_note hclose]
    exact ⟨fun _ => .inl hclose, fun _ => blanks_nil⟩

/-! ## Scripts and the files with their texts

The texts of a script are kept in a file whose name is the name of the script with its title behind
it, below the same directories. Going back, only the name of the file counts: notes are dropped and
white space is collapsed, and the directories are left out. So a script is found again if it lies in
no directory, has no white space but plain spaces in its name, and the parentheses of its title do
not show (`Encloses`). -/

open Localizer.Path Job Workspace

variable {title : Text} {ns : List Text} {ws : Workspace}
variable {out stem : Text} {dir : List Text}

/-! ### The file of a script -/

def scriptPath (dir : List Text) (stem : Text) : Text := join "/" (dir ++ [stem ++ ".txt"])

/-- The title of a script as it stands behind its name: in parentheses, unless it is left out. -/
def titleNote (stem title : Text) : Text :=
  if title = [] ∨ trim (Path.stem title) = trim (Path.stem stem) then [] else '(' :: (title ++ [')'])

theorem isName_append {s e : Text} (hs : '/' ∉ s) (he : '/' ∉ e) (hlength : 2 < e.length) :
    IsName (s ++ e) := by
  have hlong : 2 < (s ++ e).length := by
    rw [length_append]
    omega
  have hne : ∀ t : Text, t.length ≤ 2 → s ++ e ≠ t := fun t ht heq => by
    rw [heq] at hlong
    omega
  refine ⟨⟨hne [] (by decide), hne "." (by decide), ?_⟩, hne ".." (by decide)⟩
  rw [mem_append, not_or]
  exact ⟨hs, he⟩

section

theorem isName_script (hstem : '/' ∉ stem) : IsName (stem ++ ".txt".toList) :=
  isName_append hstem (by decide) (by decide)

theorem parts_scriptPath (hdir : Names dir) (hstem : '/' ∉ stem) :
    parts (scriptPath dir stem) = dir ++ [stem ++ ".txt".toList] :=
  parts_join (hdir.concat (isName_script hstem)).isPart

theorem stem_scriptPath (hdir : Names dir) (hstem : '/' ∉ stem) :
    Path.stem (scriptPath dir stem) = if stem = [] then ".txt".toList else stem := by
  have hname : Path.name (scriptPath dir stem) = stem ++ '.' :: "txt".toList := by
    rw [Path.name, parts_scriptPath hdir hstem, getLast?_concat]
    rfl
  rw [Path.stem, hname]
  split_ifs with hnil
  · rw [hnil]
    decide
  · rw [Path.cutSuffix_append hnil (by decide) (by decide)]

theorem parent_scriptPath (hdir : Names dir) (hstem : '/' ∉ stem) :
    parent (scriptPath dir stem) = ofParts [] dir := by
  have hroot : root (scriptPath dir stem) = [] := by
    have habsolute : isAbsolute (scriptPath dir stem) = false :=
      isAbsolute_join (hdir.concat (isName_script hstem)).isPart
    rw [root_eq, takeWhile_slash habsolute]
    rfl
  rw [parent, hroot, parts_scriptPath hdir hstem, dropLast_concat]

theorem itemsPath_eq (out : Text) (hdir : Names dir) (hstem : '/' ∉ stem)
    (htitle : '/' ∉ title) :
    ∃ s, s = (if stem = [] then ".txt".toList else stem) ∧ '/' ∉ s ++ titleNote s title ∧
      IsName (s ++ titleNote s title ++ ".json".toList) ∧
      itemsPath out (scriptPath dir stem) title = along out (dir ++ [s ++ titleNote s title ++ ".json".toList]) := by
  obtain ⟨s, hs⟩ : ∃ s, Path.stem (scriptPath dir stem) = s := ⟨_, rfl⟩
  have hstems := hs.symm.trans (stem_scriptPath hdir hstem)
  have hslash : '/' ∉ s := by
    rw [hstems]
    split_ifs
    · decide
    · exact hstem
  have hnote : '/' ∉ titleNote s title := by
    unfold titleNote
    split_ifs
    · exact not_mem_nil
    · simpa using htitle
  have hfull : '/' ∉ s ++ titleNote s title := not_mem_append hslash hnote
  have hname : IsName (s ++ titleNote s title ++ ".json".toList) := isName_append hfull (by decide) (by decide)
  have hchild : Path.child out (Path.ofParts [] dir) = along out dir := by
    rw [Path.child_eq (Path.isAbsolute_ofParts (.inl rfl) hdir.isPart), Path.parts_ofParts (.inl rfl) hdir.isPart,
      along]
  refine ⟨s, hstems, hfull, hname, ?_⟩
  rw [← child_along hdir.isPart hname.toIsPart, ← hchild, itemsPath, parent_scriptPath hdir hstem, hs]
  by_cases hleft : title = [] ∨ trim (Path.stem title) = trim (Path.stem s)
  · have hnone : (!title.isEmpty && decide (trim (Path.stem title) ≠ trim (Path.stem s))) = false := by
      rcases hleft with hnil | hsame
      · rw [hnil]
        rfl
      · rw [hsame, decide_eq_false (not_not.mpr rfl), Bool.and_false]
    rw [titleNote, if_pos hleft, append_nil]
    simp only [hnone]
    rfl
  · obtain ⟨hne, hother⟩ := not_or.mp hleft
    have hshown : (!title.isEmpty && decide (trim (Path.stem title) ≠ trim (Path.stem s))) = true := by
      rw [isEmpty_eq_false_iff.mpr hne, decide_eq_true hother]
      rfl
    have htext : s ++ "(".toList ++ title ++ ").json".toList = s ++ '(' :: (title ++ [')']) ++ ".json".toList := by simp
    rw [titleNote, if_neg hleft]
    simp only [hshown, if_true]
    rw [htext]

end

/-! ### The script of a file -/

theorem scriptOf_along (hns : ∀ n ∈ ns, IsPart n) (hslash : '/' ∉ t) (hne : t ≠ []) :
    scriptOf (along out (ns ++ [t ++ ".json".toList])) = plainTitle t ++ ".txt".toList := by
  have hlast : IsName (t ++ ".json".toList) := isName_append hslash (by decide) (by decide)
  have hname : name (along out (ns ++ [t ++ ".json".toList])) = t ++ ".json".toList :=
    name_along hns hlast.toIsPart
  have hcut : cutSuffix (t ++ ".json".toList) = (t, ".json".toList) :=
    cutSuffix_append hne (by decide) (by decide)
  rw [scriptOf, stem, hname, hcut]

theorem yields_scriptsBelow {n : Text} (hws : ws.WellNamed)
    (hns : Names ns) (hn : IsName n) (hext : endsWith n ".json" = true)
    (hfile : ws.isFile (along out (ns ++ [n])) = true)
    (honly : ∀ ms, Names ms → ws.isFile (along out ms) = true →
      along out ms = along out (ns ++ [n])) :
    Yields (scriptsBelow out) ws [(scriptOf (along out (ns ++ [n])), along out (ns ++ [n]))] ws := by
  have hfound : ((ws.find out ".json").filter ws.isFile).mergeSort Path.le = [along out (ns ++ [n])] := by
    rw [← perm_singleton]
    refine (mergeSort_perm _ _).trans ?_
    rw [perm_ext_iff_of_nodup ((nodup_find hws out _).filter _) (nodup_singleton _)]
    intro p
    rw [mem_filter, mem_singleton]
    constructor
    · rintro ⟨hp, hisFile⟩
      obtain ⟨ms, m, hms, hm, -, rfl⟩ := (mem_find_iff hws hisFile).mp hp
      exact honly _ (hms.concat hm) hisFile
    · rintro rfl
      exact ⟨(mem_find_iff hws hfile).mpr ⟨ns, n, hns, hn, hext, rfl⟩, hfile⟩
  have hfiles : Yields (filesBelow out ".json") ws [along out (ns ++ [n])] ws := by
    exact .bind .get (.pure hfound)
  exact .bind hfiles (.ofExcept rfl)

/-! ### Scripts found again -/

theorem noteFree_of_mem_readList {name : Text} (h : (name, title) ∈ readList t) :
    NoteFree title := by
  obtain ⟨line, -, hentry⟩ := mem_map.mp (Assoc.mem_of_mem_ofList h)
  rw [← (Prod.mk.inj hentry).2]
  exact noteFree_plainTitle _

/-- A name and a title from which the name is found again: all white space in the name is plain
spaces, and nothing of the title is left. -/
structure KeepsName (stem title : Text) : Prop where
  ne_nil : stem ≠ []
  spaces : ∀ c ∈ stem, isBlank c = true → c = ' '
  title : title = [] ∨ trim (Path.stem title) = trim (Path.stem stem) ∨ Encloses title

theorem blanks_dropNotes_titleNote_iff (h : NoteFree title) :
    Blanks (dropNotesFrom 0 (titleNote stem title)) ↔
      title = [] ∨ trim (Path.stem title) = trim (Path.stem stem) ∨ Encloses title := by
  unfold titleNote
  split_ifs with hleft
  · exact ⟨fun _ => hleft.imp_right .inl, fun _ => blanks_nil⟩
  · obtain ⟨hne, hother⟩ := not_or.mp hleft
    rw [blanks_dropNotes_title_iff h]
    constructor
    · exact fun hencloses => .inr (.inr hencloses)
    · exact fun hcases => (hcases.resolve_left hne).resolve_left hother

/-- **The name is what is left of the name with the title behind it** exactly if it keeps. -/
theorem plainTitle_append_titleNote_iff (hne : stem ≠ []) (hopen : '(' ∉ stem)
    (hstem : SingleSpaced stem) (htitle : NoteFree title) :
    plainTitle (stem ++ titleNote stem title) = stem ↔ KeepsName stem title := by
  rw [plainTitle, dropNotesFrom_append hopen, collapseBlanks_append_eq_iff hstem, blanks_dropNotes_titleNote_iff htitle]
  exact ⟨fun h => ⟨hne, h.2, h.1⟩, fun h => ⟨h.title, h.spaces⟩⟩

theorem slash_mem_scriptPath_iff (hstem : '/' ∉ stem) : '/' ∈ scriptPath dir stem ↔ dir ≠ [] := by
  unfold scriptPath
  cases dir with
  | nil =>
    simpa using hstem
  | cons d ds =>
    obtain ⟨u, us, hus⟩ : ∃ u us, ds ++ [stem ++ ".txt".toList] = u :: us := exists_cons_of_ne_nil (by simp)
    rw [cons_append, hus, join_cons_cons]
    simp

theorem scriptOf_itemsPath_iff (out : Text) (hdir : Names dir)
    (hslash : '/' ∉ stem) (hopen : '(' ∉ stem) (hstem : SingleSpaced stem) (htitle : NoteFree title)
    (htitleSlash : '/' ∉ title) :
    '/' ∉ scriptOf (itemsPath out (scriptPath dir stem) title) ∧
      (scriptOf (itemsPath out (scriptPath dir stem) title) = stem ++ ".txt".toList ↔ KeepsName stem title) := by
  obtain ⟨s, hs, hfull, -, hpath⟩ := itemsPath_eq out hdir hslash htitleSlash
  have hne : s ≠ [] := by
    rw [hs]
    split_ifs with hnil
    · decide
    · exact hnil
  rw [hpath, scriptOf_along hdir.isPart hfull (append_ne_nil_of_left_ne_nil hne _), append_cancel_right_eq]
  refine ⟨not_mem_append (fun hm => hfull (mem_of_mem_plainTitle hm (by decide))) (by decide), ?_⟩
  by_cases hnil : stem = []
  · -- a script that is all suffix has the suffix for a name
    rw [hs, if_pos hnil, hnil]
    refine ⟨fun hempty => ?_, fun hkeeps => absurd rfl hkeeps.ne_nil⟩
    have hdot := withoutBlanks_collapseBlanks (dropNotesFrom 0 (".txt".toList ++ titleNote ".txt".toList title))
    rw [← plainTitle, hempty, dropNotesFrom_append (by decide), withoutBlanks_append] at hdot
    exact absurd (append_eq_nil_iff.mp hdot.symm).1 (by decide)
  · rw [hs, if_neg hnil]
    exact plainTitle_append_titleNote_iff hnil hopen hstem htitle

/-- **Which script the file of a script is found for.** If the file with the texts of a script is
the only one below a directory, just one script is found, and it has the file. It is the script with
the same name, found in no directory, exactly if its name keeps: so it is the script itself exactly
if that lies in no directory either. -/
theorem scriptsBelow_itemsPath {dir : List Text} {out stem name list : Text}
    (hws : ws.WellNamed) (hdir : Path.Names dir) (hslash : '/' ∉ stem) (hopen : '(' ∉ stem)
    (hstem : SingleSpaced stem) (htitle : (name, title) ∈ readList list) (htitleSlash : '/' ∉ title)
    (hfile : ws.isFile (itemsPath out (scriptPath dir stem) title) = true)
    (honly : ∀ ns, Path.Names ns → ws.isFile (Path.along out ns) = true →
      Path.along out ns = itemsPath out (scriptPath dir stem) title) :
    ∃ script, Job.Yields (scriptsBelow out) ws [(script, itemsPath out (scriptPath dir stem) title)] ws ∧
      (script = scriptPath [] stem ↔ KeepsName stem title) ∧
      (script = scriptPath dir stem ↔ dir = [] ∧ KeepsName stem title) := by
  obtain ⟨hnone, hkeeps⟩ := scriptOf_itemsPath_iff out hdir hslash hopen hstem (noteFree_of_mem_readList htitle) htitleSlash
  have halone : scriptPath [] stem = stem ++ ".txt".toList := join_singleton _ _
  refine ⟨scriptOf (itemsPath out (scriptPath dir stem) title), ?_, ?_, ?_⟩
  · obtain ⟨s, -, -, hname, hpath⟩ := itemsPath_eq out hdir hslash htitleSlash
    rw [hpath] at hfile honly ⊢
    exact yields_scriptsBelow hws hdir hname (isSuffixOf_iff_suffix.mpr (suffix_append _ _)) hfile honly
  · rw [halone]
    exact hkeeps
  · by_cases htop : dir = []
    · subst htop
      exact ⟨fun heq => ⟨rfl, hkeeps.mp (heq.trans halone)⟩, fun h => (hkeeps.mpr h.2).trans halone.symm⟩
    · refine ⟨fun heq => ?_, fun h => absurd h.1 htop⟩
      rw [heq] at hnone
      exact absurd ((slash_mem_scriptPath_iff hslash).mpr htop) hnone

/-- A workspace with one file below the directory `j`. -/
def oneBelow (ns : List Text) : Workspace :=
  { cwd := "/", files := [("j".toList :: ns, { data := [] })], dirs := ancestors ("j".toList :: ns.dropLast) }

theorem eq_of_isFile_oneBelow {ms : List Text} (hms : Names ms)
    (h : (oneBelow ns).isFile (along "j" ms) = true) : ms = ns := by
  have hname : IsName "j".toList := ⟨⟨by decide, by decide, by decide⟩, by decide⟩
  have haddr : Addressable "j".toList :=
    ⟨by decide, by decide, forall_mem_singleton.mpr (by decide), by decide⟩
  have hplace : (oneBelow ns).locate (tidy "j") (splitOn '/' (tidy "j")) = .ok ["j".toList] := by
    refine locate_eq_ok_iff.mpr ⟨haddr, (follow_name hname).mpr ⟨?_, by decide, rfl⟩⟩
    exact hasDir_startOf (oneBelow ns) "j"
  have hmem := mem_files_of_isFile_along hms hplace h
  simpa [oneBelow] using hmem

theorem wellNamed_oneBelow (h : Names ns) : (oneBelow ns).WellNamed := by
  have hall : Names ("j".toList :: ns) := names_cons_iff.mpr ⟨⟨⟨by decide, by decide, by decide⟩, by decide⟩, h⟩
  intro q hq n hn
  rcases mem_append.mp hq with hq | hq
  · rw [mem_singleton.mp hq] at hn
    exact hall n hn
  · obtain ⟨i, -, rfl⟩ := mem_map.mp hq
    rcases mem_cons.mp (mem_of_mem_take hn) with rfl | hn
    · exact hall _ mem_cons_self
    · exact h n (mem_of_mem_dropLast hn)

/-- A name with a space, and a title that ends the first note and begins a second one. -/
theorem scriptsBelow_itemsPath_note :
    Job.Yields (scriptsBelow "j") (oneBelow ["a b(x)(y).json".toList])
      [("a b.txt".toList, "j/a b(x)(y).json".toList)] (oneBelow ["a b(x)(y).json".toList]) := by
  have hname : Path.IsName "a b(x)(y).json".toList := ⟨⟨by decide, by decide, by decide⟩, by decide⟩
  have hpath : itemsPath "j" (scriptPath [] "a b") "x)(y" = "j/a b(x)(y).json" := by decide
  have hstem : SingleSpaced "a b".toList := ⟨by decide, by decide⟩
  have htitle : ("a".toList, "x)(y".toList) ∈ readList "a x)(y" := by decide
  have hfile : (oneBelow ["a b(x)(y).json".toList]).isFile (itemsPath "j" (scriptPath [] "a b") "x)(y") = true := by
    decide
  have hws : (oneBelow ["a b(x)(y).json".toList]).WellNamed := wellNamed_oneBelow (Path.names_nil.concat hname)
  obtain ⟨script, hyields, hscript, -⟩ :=
    scriptsBelow_itemsPath hws Path.names_nil (by decide) (by decide) hstem htitle (by decide) hfile
      fun ns hns h => by rw [eq_of_isFile_oneBelow hns h, hpath]; decide
  have hspaces : ∀ c ∈ "a b".toList, isBlank c = true → c = ' ' := by
    intro c hc hblank
    rcases mem_cons.mp hc with rfl | hc
    · exact absurd hblank (by decide)
    · rcases mem_cons.mp hc with rfl | hc
      · rfl
      · rw [mem_singleton.mp hc] at hblank
        exact absurd hblank (by decide)
  have hencloses : Encloses "x)(y" := .inr ⟨"x".toList, [], "y".toList, by decide, blanks_nil, by decide⟩
  rwa [hscript.mpr ⟨by decide, hspaces, .inr (.inr hencloses)⟩, hpath] at hyields

/-- A script in a directory is taken for one that is in none. -/
theorem scriptsBelow_itemsPath_sub :
    itemsPath "j" (scriptPath ["sub".toList] "a") [] = "j/sub/a.json" ∧
      (oneBelow ["sub".toList, "a.json".toList]).isFile "j/sub/a.json" = true ∧
      (∀ ns, Path.Names ns → (oneBelow ["sub".toList, "a.json".toList]).isFile (Path.along "j" ns) = true →
        Path.along "j" ns = "j/sub/a.json") ∧
      Job.Yields (scriptsBelow "j") (oneBelow ["sub".toList, "a.json".toList])
        [("a.txt".toList, "j/sub/a.json".toList)] (oneBelow ["sub".toList, "a.json".toList]) ∧
      "a.txt".toList ≠ scriptPath ["sub".toList] "a" := by
  have hsub : Path.IsName "sub".toList := ⟨⟨by decide, by decide, by decide⟩, by decide⟩
  have hname : Path.IsName "a.json".toList := ⟨⟨by decide, by decide, by decide⟩, by decide⟩
  have hws : (oneBelow ["sub".toList, "a.json".toList]).WellNamed :=
    wellNamed_oneBelow (forall_mem_cons.mpr ⟨hsub, forall_mem_singleton.mpr hname⟩)
  have hpath : Path.along "j" (["sub".toList] ++ ["a.json".toList]) = "j/sub/a.json" := by decide
  have hfile : (oneBelow ["sub".toList, "a.json".toList]).isFile "j/sub/a.json" = true := by decide
  have honly : ∀ ns, Path.Names ns →
      (oneBelow ["sub".toList, "a.json".toList]).isFile (Path.along "j" ns) = true →
      Path.along "j" ns = "j/sub/a.json" := fun ns hns h => (congrArg _ (eq_of_isFile_oneBelow hns h)).trans hpath
  have hscript : scriptOf "j/sub/a.json" = "a.txt" := by decide
  have hyields := yields_scriptsBelow hws (forall_mem_singleton.mpr hsub) hname (by decide)
    (hpath.symm ▸ hfile) (hpath.symm ▸ honly)
  exact ⟨by decide, hfile, honly, hyields, by decide⟩

end Localizer.Dialogue
