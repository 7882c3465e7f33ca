import Localizer.Proofs.Assoc
import Localizer.Proofs.Text.Cut
import Localizer.Table.Basic

/-!
# The settings of a table

A line of a table that is no section line may set a key of the section that it stands in
(`setting?`). The value of a key in a table that was read is that of the last line that sets it
(`value?_read`).
-/

namespace Localizer.Table

open List Text Assoc Option

variable {s l : Text}
variable {t a : Text} {x : Text × Text} (r : Reader) (k v : Text)

/-! ## Comments -/

def content (l : Text) : Text := (splitComment l).1

structure CommentFree (t : Text) : Prop where
  semicolon : ';' ∉ t
  slashes : ¬ ['/', '/'] <:+: t

def BeginsComment (t : Text) : Prop := t.head? = some ';' ∨ ['/', '/'] <+: t

theorem content_of_begins (h : BeginsComment t) : content t = [] := by
  rcases h with h | ⟨u, rfl⟩
  · obtain ⟨u, rfl⟩ := head?_eq_some_iff.mp h
    rfl
  · rfl

theorem content_cons {c : Char} (h : ¬ BeginsComment (c :: t)) :
    content (c :: t) = c :: content t := by
  unfold content
  rw [splitComment]
  · rintro rfl
    exact h (.inl rfl)
  · rintro u rfl rfl
    exact h (.inr ⟨u, rfl⟩)

/-- The two ways in which comments are cut off are the same. -/
theorem content_eq (t : Text) : content t = upTo ';' (beforeSlashes t) := by
  induction t with
  | nil => rfl
  | cons c t ih =>
    by_cases h : BeginsComment (c :: t)
    · rcases h with h | ⟨u, hu⟩
      · obtain rfl : c = ';' := some.inj h
        rfl
      · rw [← hu]
        rfl
    · have hslash : beforeSlashes (c :: t) = c :: beforeSlashes t := by
        rw [beforeSlashes]
        rintro u rfl rfl
        exact h (.inr ⟨u, rfl⟩)
      have hsemi : c ≠ ';' := by
        rintro rfl
        exact h (.inl rfl)
      rw [content_cons h, hslash, ih, upTo, upTo, takeWhile_cons_of_pos (by simpa using hsemi)]

theorem content_isPrefix (t : Text) : content t <+: t := by
  induction t with
  | nil => exact prefix_rfl
  | cons c t ih =>
    by_cases h : BeginsComment (c :: t)
    · rw [content_of_begins h]
      exact nil_prefix
    · rw [content_cons h]
      exact cons_prefix_cons.mpr ⟨rfl, ih⟩

theorem commentFree_content (t : Text) : CommentFree (content t) := by
  induction t with
  | nil => exact ⟨not_mem_nil, by simp [content, splitComment]⟩
  | cons c t ih =>
    by_cases h : BeginsComment (c :: t)
    · rw [content_of_begins h]
      exact ⟨not_mem_nil, by simp⟩
    · rw [content_cons h]
      refine ⟨?_, fun hinside => ?_⟩
      · rw [mem_cons, not_or]
        exact ⟨fun hc => h (.inl (congrArg some hc.symm)), ih.semicolon⟩
      · rcases infix_cons_iff.mp hinside with hfirst | hinside
        · exact h (.inr (hfirst.trans (cons_prefix_cons.mpr ⟨rfl, content_isPrefix t⟩)))
        · exact ih.slashes hinside

theorem CommentFree.of_isInfix (h : CommentFree t) (hs : s <:+: t) : CommentFree s :=
  ⟨fun hmem => h.semicolon (hs.sublist.mem hmem), fun hslash => h.slashes (hslash.trans hs)⟩

theorem CommentFree.content_append {x : Text} (h : CommentFree a) (hx : x.head? ≠ some '/') :
    content (a ++ x) = a ++ content x := by
  induction a with
  | nil => rfl
  | cons c a ih =>
    have hbegins : ¬ BeginsComment (c :: (a ++ x)) := by
      rintro (hsemi | hslash)
      · exact h.semicolon (some.inj hsemi ▸ mem_cons_self)
      · obtain ⟨rfl, hrest⟩ := cons_prefix_cons.mp hslash
        cases a with
        | nil =>
          obtain ⟨u, rfl⟩ := hrest
          exact hx rfl
        | cons d a =>
          obtain ⟨rfl, -⟩ := cons_prefix_cons.mp hrest
          exact h.slashes ⟨[], a, rfl⟩
    rw [cons_append, content_cons hbegins, ih (h.of_isInfix (suffix_cons c a).isInfix), cons_append]

theorem content_blanks_append (h : ∀ c ∈ s, isBlank c = true) (t : Text) :
    content (s ++ t) = s ++ content t := by
  induction s with
  | nil => rfl
  | cons c s ih =>
    have hc := h c mem_cons_self
    have hbegins : ¬ BeginsComment (c :: (s ++ t)) := by
      rintro (hsemi | hslash)
      · exact absurd (some.inj hsemi ▸ hc : isBlank ';' = true) (by decide)
      · exact absurd ((cons_prefix_cons.mp hslash).1 ▸ hc : isBlank '/' = true) (by decide)
    rw [cons_append, content_cons hbegins, ih fun d hd => h d (mem_cons_of_mem c hd), cons_append]

theorem content_append_blanks (t : Text) (h : ∀ c ∈ s, isBlank c = true) :
    ∃ u, content (t ++ s) = content t ++ u ∧ ∀ c ∈ u, isBlank c = true := by
  induction t with
  | nil => exact ⟨content s, rfl, fun c hc => h c ((content_isPrefix s).sublist.mem hc)⟩
  | cons c t ih =>
    by_cases hbegins : BeginsComment (c :: t)
    · have hlonger : BeginsComment (c :: (t ++ s)) := by
        rcases hbegins with hsemi | hslash
        · exact .inl hsemi
        · exact .inr (hslash.trans (prefix_append (c :: t) s))
      rw [cons_append, content_of_begins hlonger, content_of_begins hbegins]
      exact ⟨[], rfl, nofun⟩
    · have hlonger : ¬ BeginsComment (c :: (t ++ s)) := by
        rintro (hsemi | hslash)
        · exact hbegins (.inl hsemi)
        · obtain ⟨rfl, hrest⟩ := cons_prefix_cons.mp hslash
          cases t with
          | nil => exact absurd (h '/' (hrest.sublist.mem mem_cons_self)) (by decide)
          | cons d t =>
            obtain ⟨rfl, -⟩ := cons_prefix_cons.mp hrest
            exact hbegins (.inr ⟨t, rfl⟩)
      obtain ⟨u, hu, hblank⟩ := ih
      rw [cons_append, content_cons hlonger, content_cons hbegins, hu]
      exact ⟨u, rfl, hblank⟩

/-! ## Lines -/

/-- What a line says: its content without white space at either end. -/
def body (l : Text) : Text := trim (content l)

theorem body_append_blanks (t : Text) (h : ∀ c ∈ s, isBlank c = true) : body (t ++ s) = body t := by
  obtain ⟨u, hu, hblank⟩ := content_append_blanks t h
  rw [body, hu, trim_append_of_forall hblank, body]

theorem body_blanks_append (h : ∀ c ∈ s, isBlank c = true) (t : Text) : body (s ++ t) = body t := by
  rw [body, content_blanks_append h, trim, trimStart, dropWhile_append_of_pos h, ← trimStart, ← trim, body]

theorem body_trim (l : Text) : body (trim l) = body l := by
  obtain ⟨s, hs, hblank⟩ := trimEnd_append_dropped (trimStart l)
  have hend : body (trimStart l) = body (trim l) := by
    rw [hs, body_append_blanks _ hblank]
    rfl
  have hstart : body l = body (trimStart l) := by
    have hblanks : ∀ c ∈ l.takeWhile isBlank, isBlank c = true := fun c hc => mem_takeWhile_imp hc
    rw [← body_blanks_append hblanks (trimStart l), trimStart, takeWhile_append_dropWhile]
  rw [hstart, hend]

theorem stripComment_trim (l : Text) : stripComment (trim l) = body l := by
  rw [stripComment, ← content_eq, ← body, body_trim]

theorem sectionName?_congr {l' : Text} (h : body l = body l') : sectionName? l = sectionName? l' := by
  unfold body content at h
  rw [sectionName?, h, sectionName?]

theorem sectionName?_of_head? (h : (body l).head? ≠ some '[') : sectionName? l = none := by
  have hbody : trim (splitComment l).1 = body l := rfl
  unfold sectionName?
  rw [hbody]
  split
  · next t ht =>
    rw [ht] at h
    exact absurd rfl h
  · rfl

theorem isSectionLine_body (l : Text) : isSectionLine (body l) = (sectionName? l).isSome := by
  by_cases h : (body l).head? = some '['
  · obtain ⟨t, ht⟩ := head?_eq_some_iff.mp h
    have hname : sectionName? l = (splitOnce? ']' t).map fun x => trim x.1 := by
      have hbody : trim (splitComment l).1 = body l := rfl
      rw [sectionName?, hbody, ht]
      rfl
    rw [hname, ht, isSectionLine]
    rcases splitOnce?_cases ']' t with ⟨hnot, hcut⟩ | ⟨a, b, -, rfl, hcut⟩
    · simp [hcut, hnot]
    · simp [hcut, startsWith]
  · rw [sectionName?_of_head? h, isSectionLine]
    cases hbody : body l with
    | nil => rfl
    | cons c t =>
      have hc : c ≠ '[' := by
        rintro rfl
        exact h (by rw [hbody, head?_cons])
      simp [startsWith, Ne.symm hc]

/-- The key that a line sets, and its value. -/
def setting? (l : Text) : Option (Text × Text) :=
  (splitOnce? '=' (body l)).map fun x => (trim x.1, unquote x.2)

theorem setting?_of_content {y : Text} (h : content l = a ++ '=' :: y) (ha : '=' ∉ a) :
    setting? l = some (trim a, unquote (trimEnd y)) := by
  have hstart : '=' ∉ trimStart a := fun hmem => ha ((dropWhile_sublist _).mem hmem)
  rw [setting?, body, h, trim_append_cons (by decide), splitOnce?_append_sep hstart, map_some, trim_trimStart]

theorem content_of_setting? (h : setting? l = some x) :
    ∃ a y, '=' ∉ a ∧ content l = a ++ '=' :: y ∧ x = (trim a, unquote (trimEnd y)) := by
  rcases splitOnce?_cases '=' (content l) with ⟨hnot, -⟩ | ⟨a, y, ha, hcontent, -⟩
  · have hbody : '=' ∉ body l := fun hmem => hnot ((trim_isInfix _).sublist.mem hmem)
    rw [setting?, splitOnce?_of_not_mem hbody] at h
    cases h
  · rw [setting?_of_content hcontent ha] at h
    exact ⟨a, y, ha, hcontent, (some.inj h).symm⟩

theorem commentFree_of_setting? (h : setting? l = some x) : CommentFree x.1 := by
  obtain ⟨a, y, -, hcontent, rfl⟩ := content_of_setting? h
  have ha : CommentFree a := (commentFree_content l).of_isInfix (hcontent ▸ (prefix_append a _).isInfix)
  exact ha.of_isInfix (trim_isInfix a)

/-! ### Settings -/

/-- A value in a table: its section and its key, and the line that sets it. -/
structure Setting where
  sec : Text
  key : Text
  value : Text
  line : Text

/-- What a line sets in a section. Outside of a section, and in one without a name, it sets nothing.
-/
def settingIn? (current? : Option Text) (l : Text) : Option Setting :=
  match current? with
  | none | some [] => none
  | some sec => (setting? l).map fun x => ⟨sec, x.1, x.2, l⟩

/-- The settings in lines, the first of which stand in a section. -/
def settings : Option Text → List Text → List Setting
  | _, [] => []
  | current?, l :: ls =>
    match sectionName? l with
    | some name => settings (some name) ls
    | none => (settingIn? current? l).toList ++ settings current? ls

def last? (sec key : Text) (ss : List Setting) : Option Setting :=
  ss.reverse.find? fun s => s.sec = sec && s.key = key

def value? (table : Table) (sec key : Text) : Option Text := get? key ((get? sec table).getD [])

theorem of_mem_settings {current? : Option Text} {ls : List Text} {s : Setting}
    (h : s ∈ settings current? ls) : s.line ∈ ls ∧ setting? s.line = some (s.key, s.value) := by
  fun_induction settings current? ls with
  | case1 => cases h
  | case2 current? l ls name _ ih =>
    exact ⟨mem_cons_of_mem l (ih h).1, (ih h).2⟩
  | case3 current? l ls _ ih =>
    rcases mem_append.mp h with h | h
    · unfold settingIn? at h
      split at h
      · cases h
      · cases h
      · obtain ⟨x, hx, rfl⟩ := map_eq_some_iff.mp (mem_toList.mp h)
        exact ⟨mem_cons_self, hx⟩
    · exact ⟨mem_cons_of_mem l (ih h).1, (ih h).2⟩

section

variable {sec key : Text}

theorem last?_append (ss ss' : List Setting) :
    last? sec key (ss ++ ss') = (last? sec key ss').or (last? sec key ss) := by
  rw [last?, reverse_append, find?_append, last?, last?]

theorem last?_singleton (s : Setting) :
    last? sec key [s] = if s.sec = sec ∧ s.key = key then some s else none := by
  rw [last?, reverse_singleton, find?_singleton]
  simp

theorem Reader.value?_enter (name : Text) :
    value? (r.enter name).table sec key = value? r.table sec key := by
  rw [value?, value?, Reader.enter, getD_get?_insertNew]

theorem Reader.line_of_section {name : Text} (h : sectionName? l = some name) :
    r.line l = r.enter name := by
  have hsection : isSectionLine (body l) = true := by rw [isSectionLine_body, h]; rfl
  rw [Reader.line, stripComment_trim]
  exact (if_pos hsection).trans (by rw [h]; rfl)

theorem Reader.line_of_setting (h : sectionName? l = none) :
    r.line l = (setting? l).elim r fun x => r.put x.1 x.2 := by
  have hsection : ¬ isSectionLine (body l) = true := by rw [isSectionLine_body, h]; decide
  rw [Reader.line, stripComment_trim]
  refine (if_neg hsection).trans ?_
  rw [setting?]
  cases splitOnce? '=' (body l) <;> rfl

theorem Reader.current?_put : (r.put k v).current? = r.current? := by
  unfold Reader.put
  split <;> rfl

theorem Reader.value?_put (hs : s ≠ []) (hcurrent : r.current? = some s) :
    value? (r.put k v).table sec key = if s = sec ∧
      k = key then some v else value? r.table sec key := by
  have hput : (r.put k v).table = modify s [] (insert k v) r.table := by
    unfold Reader.put
    split
    · next h => simp [h] at hcurrent
    · next h => exact absurd (some.inj (hcurrent.symm.trans h)) hs
    · next s' _ h => rw [some.inj (hcurrent.symm.trans h)]
  rw [value?, hput, getD_get?_modify, value?]
  by_cases hsec : s = sec
  · rw [if_pos hsec, get?_insert]
    simp [hsec]
  · simp [hsec]

theorem Reader.put_of_no_section (h : r.current? = none ∨ r.current? = some []) : r.put k v = r := by
  unfold Reader.put
  rcases h with h | h
  · rw [h]
  · rw [h]

theorem Reader.value?_line (h : sectionName? l = none) : value? (r.line l).table sec key =
      ((last? sec key (settingIn? r.current? l).toList).map Setting.value).or (value? r.table sec key) := by
  rw [r.line_of_setting h]
  cases hset : setting? l with
  | none =>
    have hnone : settingIn? r.current? l = none := by
      unfold settingIn?
      split
      · rfl
      · rfl
      · rw [hset]
        rfl
    rw [hnone]
    rfl
  | some x =>
    rw [elim_some]
    cases hcurrent : r.current? with
    | none =>
      rw [r.put_of_no_section x.1 x.2 (.inl hcurrent)]
      rfl
    | some s =>
      cases s with
      | nil =>
        rw [r.put_of_no_section x.1 x.2 (.inr hcurrent)]
        rfl
      | cons c s =>
        have hsome : settingIn? (some (c :: s)) l = some ⟨c :: s, x.1, x.2, l⟩ := by simp [settingIn?, hset]
        rw [r.value?_put x.1 x.2 (by simp) hcurrent, hsome, toList_some, last?_singleton]
        split
        · rfl
        · rfl

theorem Reader.current?_line (l : Text) : (r.line l).current? = nextSection r.current? l := by
  rw [nextSection]
  cases hname : sectionName? l with
  | some name => rw [r.line_of_section hname]; rfl
  | none =>
    rw [r.line_of_setting hname]
    cases setting? l with
    | none => rfl
    | some x => exact r.current?_put x.1 x.2

/-- What is read from lines: the value of the last setting for a key, or the one that it had before.
-/
theorem Reader.value?_lines (ls : List Text) : value? (ls.foldl Reader.line r).table sec key =
      ((last? sec key (settings r.current? ls)).map Setting.value).or (value? r.table sec key) := by
  induction ls generalizing r with
  | nil => rfl
  | cons l ls ih =>
    rw [foldl_cons, ih, settings]
    cases hname : sectionName? l with
    | some name =>
      rw [r.line_of_section hname, Reader.value?_enter]
      rfl
    | none =>
      rw [r.value?_line hname, r.current?_line, nextSection, hname, Option.none_or, last?_append, Option.map_or, Option.or_assoc]

end

/-- **The value of a key is that of the last line that sets it.** -/
theorem value?_read (t sec key : Text) :
    value? (read t) sec key = (last? sec key (settings none (lines t))).map Setting.value := by
  rw [read, Reader.value?_lines]
  exact or_none

/-! ### Sections -/

variable {ps : List (Text × Text)}

/-- Behind lines, an update goes on in the section that they lead to. -/
theorem updateLines_append (updates : Table) (current? : Option Text) (ps qs : List (Text × Text)) :
    updateLines updates current? (ps ++ qs) = updateLines updates current? ps ++
      updateLines updates ((ps.map fun p => p.1 ++ p.2).foldl nextSection current?) qs := by
  induction ps generalizing current? with
  | nil => rfl
  | cons p ps ih =>
    rw [cons_append, updateLines, updateLines, map_cons, foldl_cons, nextSection]
    cases sectionName? (p.1 ++ p.2) with
    | some name => exact (congrArg _ (ih (some name))).trans (append_assoc _ _ _).symm
    | none => exact (congrArg _ (ih current?)).trans (append_assoc _ _ _).symm

theorem Reader.current?_lines (hps : ∀ p ∈ ps, ∀ c ∈ p.2, isBlank c = true) :
    ((ps.map Prod.fst).foldl Reader.line r).current? =
      (ps.map fun p => p.1 ++ p.2).foldl nextSection r.current? := by
  induction ps generalizing r with
  | nil => rfl
  | cons p ps ih =>
    rw [forall_mem_cons] at hps
    rw [map_cons, foldl_cons, ih _ hps.2, r.current?_line, map_cons, foldl_cons, nextSection, nextSection,
      sectionName?_congr (body_append_blanks p.1 hps.1)]

/-- **A table is read and updated in the same sections.** At each line the reader is in the section
that the lines before it lead to with their breaks, and there the update goes on in it. Comments are
cut off in the same way by both. -/
theorem current?_read_eq_update (t : Text) (updates : Table) :
    (∀ s, stripComment s = trim (splitComment s).1) ∧
    ∀ i, (((lines t).take i).foldl Reader.line {}).current? = ((fullLines t).take i).foldl nextSection none ∧
      update t updates = updateLines updates none ((linesWithBreaks t).take i) ++
        updateLines updates (((lines t).take i).foldl Reader.line {}).current? ((linesWithBreaks t).drop i) := by
  have hblanks : ∀ i, ∀ p ∈ (linesWithBreaks t).take i, ∀ c ∈ p.2, isBlank c = true := fun i p hp =>
    blank_of_mem_linesWithBreaks (mem_of_mem_take hp)
  have hsame : ∀ i, (((lines t).take i).foldl Reader.line {}).current? = ((fullLines t).take i).foldl nextSection none :=
    fun i => by
      rw [lines, ← map_take, Reader.current?_lines _ (hblanks i), fullLines, ← map_take]
  refine ⟨fun s => by rw [stripComment, ← content_eq, content], fun i => ⟨hsame i, ?_⟩⟩
  rw [hsame, fullLines, ← map_take]
  nth_rewrite 1 [update, ← take_append_drop i (linesWithBreaks t)]
  exact updateLines_append _ _ _ _

end Localizer.Table
