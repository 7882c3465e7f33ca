import Localizer.Proofs.Table.Setting

/-!
# Values that are changed

An update changes the values of keys in their lines, which are found in another way than when the
table is read: the key must stand before the first tab of its line, and what stands from that tab on
is kept behind the new value. When a value that was changed is read back is said by
`value?_read_update`.
-/

namespace Localizer.Table

open List Text Assoc Option Setting

variable {v : Text} {ps : List (Text × Text)}
variable {b a l : Text} {updates : Table}

/-! ### The new line -/

/-- A value that can be written: not empty, on one line, without white space at either end, tabs,
quotes and comments. -/
structure Writable (v : Text) : Prop where
  ne_nil : v ≠ []
  oneLine : OneLine v
  trimmed : trim v = v
  tab : '\t' ∉ v
  quote : '"' ∉ v
  commentFree : CommentFree v

def fromTab (l : Text) : Text := l.dropWhile (· ≠ '\t')

/-- The key of a line stands before its first tab. -/
def Reached (l : Text) : Prop := '\t' ∉ upTo '=' l

instance (l : Text) : Decidable (Reached l) := inferInstanceAs (Decidable ('\t' ∉ upTo '=' l))

/-- A line without its break, with its value changed. -/
def newLine (changes : List (Text × Text)) (l : Text) : Text :=
  match splitOnce? '=' (l.takeWhile (· ≠ '\t')) with
  | none => l
  | some (left, _) =>
    match get? (trim left) changes with
    | none => l
    | some v => left ++ "=" ++ written v ++ fromTab l

/-- The breaks of lines that are changed without their breaks: line feeds, or none at the end of a
text. -/
def IsFeed (b : Text) : Prop := b = [] ∨ b = "\n" ∨ b = "\r\n"

theorem updateLine_eq (changes : List (Text × Text)) (l : Text) (hb : IsFeed b) :
    updateLine changes l b = newLine changes l ++ b := by
  have hcut : cutFeed l b = (l, b) := by
    rcases hb with rfl | rfl | rfl
    · simp [cutFeed]
    · rfl
    · rfl
  simp only [updateLine, hcut, span_eq_takeWhile_dropWhile, newLine, fromTab]
  cases splitOnce? '=' (l.takeWhile fun x => decide (x ≠ '\t')) with
  | none => rfl
  | some x =>
    obtain ⟨left, right⟩ := x
    dsimp only
    cases get? (trim left) changes with
    | none
    | some v => rfl

theorem cut_at_tab (ha : '\t' ∉ a) (rest : Text) :
    (a ++ '=' :: rest).takeWhile (fun c => decide (c ≠ '\t')) = a ++ '=' :: rest.takeWhile (fun c => decide (c ≠ '\t')) ∧
      fromTab (a ++ '=' :: rest) = fromTab rest := by
  have hwhole : ∀ c ∈ a ++ ['='], decide (c ≠ '\t') = true := by
    intro c hc
    rw [decide_eq_true_eq]
    rintro rfl
    simp [ha] at hc
  have hsplit : a ++ '=' :: rest = (a ++ ['=']) ++ rest := by simp
  refine ⟨?_, ?_⟩
  · rw [hsplit, takeWhile_append_of_pos hwhole, append_assoc, singleton_append]
  · rw [fromTab, hsplit, dropWhile_append_of_pos hwhole, fromTab]

theorem takeWhile_before_tab (ha : '\t' ∉ a) (rest : Text) :
    (a ++ '\t' :: rest).takeWhile (fun c => decide (c ≠ '\t')) = a :=
  takeWhile_append_eq_left (fun c hc => decide_eq_true fun h => ha (h ▸ hc)) fun c hc => by simpa using hc.symm

section

variable {k rest : Text} (ha : '=' ∉ a)

include ha

theorem reached_iff : Reached (a ++ '=' :: rest) ↔ '\t' ∉ a := by
  have hup : upTo '=' (a ++ '=' :: rest) = a :=
    takeWhile_append_eq_left (fun c hc => decide_eq_true fun h => ha (h ▸ hc)) fun c hc => by simpa using hc.symm
  rw [Reached, hup]

theorem newLine_of_reached (htab : '\t' ∉ a) (rest : Text) :
    newLine [(k, v)] (a ++ '=' :: rest) =
      if k = trim a then a ++ '=' :: (written v ++ fromTab rest) else a ++ '=' :: rest := by
  obtain ⟨htake, hdrop⟩ := cut_at_tab htab rest
  rw [newLine, htake, splitOnce?_append_sep ha, hdrop]
  simp only [get?]
  by_cases hk : k = trim a
  · simp [hk]
  · simp [hk]

theorem not_mem_before_tab (htab : '\t' ∈ a) (rest : Text) :
    '=' ∉ (a ++ '=' :: rest).takeWhile fun c => decide (c ≠ '\t') := by
  obtain ⟨b, c, rfl, hb⟩ := eq_append_cons_of_mem htab
  rw [append_assoc, cons_append, takeWhile_before_tab hb]
  exact fun hmem => ha (mem_append_left _ hmem)

theorem newLine_of_not_reached (htab : '\t' ∈ a) (rest : Text) (changes : List (Text × Text)) :
    newLine changes (a ++ '=' :: rest) = a ++ '=' :: rest := by
  rw [newLine, splitOnce?_of_not_mem (not_mem_before_tab ha htab rest)]

end

theorem newLine_of_not_mem (h : '=' ∉ l) (changes : List (Text × Text)) : newLine changes l = l := by
  have hnot : '=' ∉ l.takeWhile fun c => decide (c ≠ '\t') := fun hmem => h ((takeWhile_sublist _).mem hmem)
  rw [newLine, splitOnce?_of_not_mem hnot]

theorem newLine_cases (k v l : Text) :
    (newLine [(k, v)] l = l ∧ ∀ x, setting? l = some x → x.1 = k → ¬ Reached l) ∨
      ∃ a rest, l = a ++ '=' :: rest ∧ '=' ∉ a ∧ '\t' ∉ a ∧ trim a = k ∧
        newLine [(k, v)] l = a ++ '=' :: (written v ++ fromTab rest) := by
  rcases splitOnce?_cases '=' l with ⟨hnot, -⟩ | ⟨a, rest, ha, rfl, hcut⟩
  · refine .inl ⟨newLine_of_not_mem hnot _, fun x hx => ?_⟩
    obtain ⟨a, y, -, hcontent, -⟩ := content_of_setting? hx
    exact absurd ((content_isPrefix l).sublist.mem (by simp [hcontent])) hnot
  · by_cases htab : '\t' ∈ a
    · exact .inl ⟨newLine_of_not_reached ha htab rest _, fun _ _ _ hreached => (reached_iff ha).mp hreached htab⟩
    · rw [newLine_of_reached ha htab]
      by_cases hkey : k = trim a
      · exact .inr ⟨a, rest, rfl, ha, htab, hkey.symm, if_pos hkey⟩
      · refine .inl ⟨if_neg hkey, fun x hx hxk => absurd ?_ hkey⟩
        obtain ⟨a', y, ha', hcontent, rfl⟩ := content_of_setting? hx
        obtain ⟨z, hz⟩ := content_isPrefix (a ++ '=' :: rest)
        rw [hcontent, append_assoc, cons_append] at hz
        rw [← hz, splitOnce?_append_sep ha'] at hcut
        rw [← hxk, (Prod.mk.inj (some.inj hcut)).1]

/-! ### Values that are read back -/

theorem written_of_space (h : v.contains ' ' = true) : written v = '"' :: (v ++ ['"']) := if_pos h

theorem written_of_no_space (h : v.contains ' ' = false) : written v = v :=
  if_neg (Bool.not_eq_true _ ▸ h)

section

variable (hv : Writable v)

include hv

theorem Writable.commentFree_written : CommentFree (written v) := by
  cases hspace : v.contains ' ' with
  | false => rw [written_of_no_space hspace]; exact hv.commentFree
  | true =>
    rw [written_of_space hspace]
    refine ⟨?_, fun hinside => ?_⟩
    · simp [hv.commentFree.semicolon]
    · rcases infix_cons_iff.mp hinside with hfirst | hinside
      · exact absurd (cons_prefix_cons.mp hfirst).1 (by decide)
      · rcases infix_concat_iff.mp hinside with hlast | hinside
        · obtain ⟨u, hu⟩ := hlast
          have hend := congrArg getLast? hu
          simp at hend
        · exact hv.commentFree.slashes hinside

theorem Writable.unquote_written : unquote (written v) = v := by
  cases hspace : v.contains ' ' with
  | false =>
    have hhead : ¬ (v.head? = some '"') := fun h => hv.quote (mem_of_head? h)
    rw [written_of_no_space hspace, unquote, if_neg (by simp [hhead])]
  | true =>
    have hlast : ('"' :: (v ++ ['"'])).getLast? = some '"' := by rw [← cons_append, getLast?_concat]
    simp [written_of_space hspace, unquote, hlast]

theorem Writable.trimEnd_written : trimEnd (written v) = written v := by
  refine trimEnd_eq_self fun c hc => ?_
  cases hspace : v.contains ' ' with
  | false =>
    rw [written_of_no_space hspace, ← hv.trimmed] at hc
    exact getLast?_trimEnd hc
  | true =>
    rw [written_of_space hspace, ← cons_append, getLast?_concat] at hc
    exact some.inj hc ▸ by decide

theorem Writable.written_ne_nil : written v ≠ [] := by
  cases hspace : v.contains ' ' with
  | false => rw [written_of_no_space hspace]; exact hv.ne_nil
  | true => simp [written_of_space hspace]

end

theorem mem_unquote {c : Char} (ha : a ≠ []) (hb : b ≠ []) : c ∈ unquote (a ++ c :: b) := by
  unfold unquote
  split
  · obtain ⟨d, a, rfl⟩ := exists_cons_of_ne_nil ha
    have hdrop : ((d :: a ++ c :: b).drop 1).dropLast = a ++ c :: b.dropLast := by
      rw [cons_append, drop_succ_cons, drop_zero, dropLast_append_cons, dropLast_cons_of_ne_nil hb]
    rw [hdrop]
    simp
  · simp

theorem fromTab_cases (l : Text) : fromTab l = [] ∨ ∃ x, fromTab l = '\t' :: x := by
  cases htail : fromTab l with
  | nil => exact .inl rfl
  | cons c x =>
    have hhead : (l.dropWhile fun c => decide (c ≠ '\t')).head? = some c := by
      rw [← fromTab, htail]
      rfl
    have hc := of_head?_dropWhile hhead
    exact .inr ⟨x, by simpa using hc⟩

/-- The value that is read from a line that was changed. -/
def newValue (v tail : Text) : Text := unquote (trimEnd (written v ++ content tail))

/-- What follows the tab of a line is part of its value, unless it is white space or a comment. -/
theorem Writable.tab_mem_newValue (hv : Writable v) (h : body (fromTab l) ≠ []) :
    '\t' ∈ newValue v (fromTab l) := by
  rcases fromTab_cases l with hnil | ⟨x, hx⟩
  · rw [hnil] at h
    exact absurd rfl h
  · have hcontent : content ('\t' :: x) = '\t' :: content x := content_cons (by simp [BeginsComment])
    obtain ⟨d, hd, hblank⟩ : ∃ d ∈ content x, isBlank d = false := by
      by_contra hall
      refine h (trim_eq_nil_iff.mpr fun c hc => ?_)
      rw [hx, hcontent] at hc
      rcases mem_cons.mp hc with rfl | hc
      · decide
      · by_contra hnot
        exact hall ⟨c, hc, by simpa using hnot⟩
    obtain ⟨p, q, hpq⟩ := append_of_mem hd
    have hsplit : written v ++ '\t' :: (p ++ d :: q) = (written v ++ '\t' :: p) ++ d :: q := by simp
    rw [newValue, hx, hcontent, hpq, hsplit, trimEnd_append_cons hblank, append_assoc, cons_append]
    exact mem_unquote hv.written_ne_nil (by simp)

/-- **A value that was changed is read back exactly if only white space and comments follow the tab
of its line.** -/
theorem Writable.newValue_eq_iff (hv : Writable v) (l : Text) :
    newValue v (fromTab l) = v ↔ body (fromTab l) = [] := by
  constructor
  · intro hvalue
    by_contra hbody
    exact hv.tab (hvalue ▸ hv.tab_mem_newValue hbody)
  · intro hbody
    rw [newValue, trimEnd, dropEndWhile_append_of_forall (trim_eq_nil_iff.mp hbody), ← trimEnd, hv.trimEnd_written,
      hv.unquote_written]

/-! ### A line that is changed -/

section

variable {k : Text} (hk : CommentFree k)

include hk

theorem content_of_key (h : trim a = k) (rest : Text) :
    content (a ++ '=' :: rest) = a ++ '=' :: content rest := by
  obtain ⟨s, u, ha, hs, hu⟩ := exists_of_trim a
  rw [h] at ha
  have hsign : content ('=' :: rest) = '=' :: content rest := content_cons (by simp [BeginsComment])
  have hfirst : (u ++ '=' :: rest).head? ≠ some '/' := by
    cases u with
    | nil => simp
    | cons c u =>
      intro hc
      exact absurd (some.inj hc ▸ hu c mem_cons_self : isBlank '/' = true) (by decide)
  rw [ha, append_assoc, append_assoc, content_blanks_append hs, hk.content_append hfirst,
    content_blanks_append hu, hsign, append_assoc, append_assoc]

theorem setting?_of_key (ha : '=' ∉ a) (h : trim a = k) (rest : Text) :
    setting? (a ++ '=' :: rest) = some (k, unquote (trimEnd (content rest))) := by
  rw [setting?_of_content (content_of_key hk h rest) ha, h]

/-- No section begins with a line that has a key before its first equals sign, unless the key begins
with a bracket. -/
theorem sectionName?_of_key (hbracket : k.head? ≠ some '[') (h : trim a = k) (rest : Text) :
    sectionName? (a ++ '=' :: rest) = none := by
  refine sectionName?_of_head? ?_
  rw [body, content_of_key hk h, head?_trim, find?_append, ← head?_trim, h]
  cases hhead : k.head? with
  | none =>
    rw [none_or, find?_cons_of_pos (by decide)]
    decide
  | some c => rwa [some_or, ← hhead]

end

theorem Writable.oneLine_written (hv : Writable v) : OneLine (written v) := by
  have hquote : OneLine ['"'] := fun c hc => mem_singleton.mp hc ▸ by decide
  cases hspace : v.contains ' ' with
  | false =>
    rw [written_of_no_space hspace]
    exact hv.oneLine
  | true =>
    rw [written_of_space hspace]
    exact oneLine_append hquote (oneLine_append hv.oneLine hquote)

theorem Writable.content_written (hv : Writable v) (l : Text) :
    content (written v ++ fromTab l) = written v ++ content (fromTab l) := by
  refine hv.commentFree_written.content_append ?_
  rcases fromTab_cases l with hnil | ⟨x, hx⟩
  · simp [hnil]
  · simp [hx]

/-! ### All lines -/

/-- The lines of a table with values changed, and their breaks. -/
def updatedPairs (updates : Table) : Option Text → List (Text × Text) → List (Text × Text)
  | _, [] => []
  | current?, (l, b) :: ls =>
    match sectionName? l with
    | some name => (l, b) :: updatedPairs updates (some name) ls
    | none => (newLine (changesIn updates current?) l, b) :: updatedPairs updates current? ls

theorem IsFeed.blanks (h : IsFeed b) : ∀ c ∈ b, isBlank c = true := by
  rcases h with rfl | rfl | rfl
  · simp
  · simp [isBlank]
  · simp [isBlank]

theorem updateLines_eq (updates : Table) (current? : Option Text) (h : ∀ p ∈ ps, IsFeed p.2) :
    updateLines updates current? ps = glue (updatedPairs updates current? ps) := by
  induction ps generalizing current? with
  | nil => rfl
  | cons p ps ih =>
    obtain ⟨l, b⟩ := p
    have hb : IsFeed b := h (l, b) mem_cons_self
    have hrest : ∀ current?, updateLines updates current? ps = glue (updatedPairs updates current? ps) := fun current? =>
      ih current? fun p hp => h p (mem_cons_of_mem _ hp)
    rw [updateLines, updatedPairs, sectionName?_congr (body_append_blanks l hb.blanks)]
    cases sectionName? l with
    | some name =>
      dsimp only
      rw [hrest, glue_cons, append_assoc]
    | none =>
      rw [hrest, glue_cons, updateLine_eq _ _ hb, append_assoc]

theorem standsFor_updatedPairs (current? : Option Text) (hps : ∀ p ∈ ps, OneLine p.1)
    (hnew : ∀ current? l, OneLine l → newLine (changesIn updates current?) l = l ∨
      OneLine (newLine (changesIn updates current?) l) ∧ newLine (changesIn updates current?) l ≠ []) :
    Forall₂ StandsFor ps (updatedPairs updates current? ps) := by
  induction ps generalizing current? with
  | nil => exact .nil
  | cons p ps ih =>
    obtain ⟨l, b⟩ := p
    have hrest := fun current? => ih current? fun p hp => hps p (mem_cons_of_mem _ hp)
    rw [updatedPairs]
    cases sectionName? l with
    | some name => exact .cons ⟨rfl, .inl rfl⟩ (hrest _)
    | none => exact .cons ⟨rfl, hnew current? l (hps (l, b) mem_cons_self)⟩ (hrest _)

theorem lines_update {t : Text} (hfeeds : ∀ p ∈ linesWithBreaks t, IsFeed p.2)
    (hnew : ∀ current? l, OneLine l → newLine (changesIn updates current?) l = l ∨
      OneLine (newLine (changesIn updates current?) l) ∧ newLine (changesIn updates current?) l ≠ []) :
    lines (update t updates) = (updatedPairs updates none (linesWithBreaks t)).map Prod.fst := by
  obtain ⟨hcut, -⟩ := wellCut_linesWithBreaks t
  have hstands := standsFor_updatedPairs none (fun p hp => (hcut.of_mem hp).1) hnew
  rw [lines, update, updateLines_eq updates none hfeeds, linesWithBreaks_glue (hcut.standsFor hstands).1]

/-! ### All settings -/

theorem newLine_nil (l : Text) : newLine [] l = l := by
  unfold newLine
  split
  · rfl
  · rfl

theorem changesIn_cases (sec k v : Text) (current? : Option Text) :
    (current? = some sec ∧ sec ≠ [] ∧ changesIn [(sec, [(k, v)])] current? = [(k, v)]) ∨
      (current? ≠ some sec ∨ sec = []) ∧ changesIn [(sec, [(k, v)])] current? = [] := by
  cases current? with
  | none => exact .inr ⟨.inl (by simp), rfl⟩
  | some s =>
    cases s with
    | nil =>
      by_cases hsec : sec = []
      · exact .inr ⟨.inr hsec, rfl⟩
      · exact .inr ⟨.inl (by simpa using Ne.symm hsec), rfl⟩
    | cons c s =>
      have hget : changesIn [(sec, [(k, v)])] (some (c :: s)) = if sec = c :: s then [(k, v)] else [] := by
        by_cases hsec : sec = c :: s
        · simp [changesIn, get?, hsec]
        · simp [changesIn, get?, hsec]
      rw [hget]
      by_cases hsec : sec = c :: s
      · exact .inl ⟨by rw [hsec], by simp [hsec], if_pos hsec⟩
      · exact .inr ⟨.inl fun h => hsec (some.inj h).symm, if_neg hsec⟩

section

variable {sec k v : Text}

/-- A setting in a table in which the value of a key was changed. -/
def Setting.changed (sec k v : Text) (s : Setting) : Setting :=
  if s.sec = sec ∧ s.key = k ∧ Reached s.line then
    { s with value := newValue v (fromTab s.line), line := newLine [(k, v)] s.line }
  else s

@[simp] theorem sec_changed (s : Setting) : (s.changed sec k v).sec = s.sec := by
  unfold changed
  split
  · rfl
  · rfl

@[simp] theorem key_changed (s : Setting) : (s.changed sec k v).key = s.key := by
  unfold changed
  split
  · rfl
  · rfl

theorem last?_changed (sec' k' : Text) (ss : List Setting) :
    last? sec' k' (ss.map (changed sec k v)) = (last? sec' k' ss).map (changed sec k v) := by
  rw [last?, ← map_reverse, find?_map, last?]
  congr 2
  funext s
  simp

variable (hk : CommentFree k) (hv : Writable v)

include hk hv

theorem newLine_changed (l : Text) :
    (newLine [(k, v)] l = l ∧ ∀ x, setting? l = some x → x.1 = k → ¬ Reached l) ∨
      (Reached l ∧ (∃ old, setting? l = some (k, old)) ∧
        setting? (newLine [(k, v)] l) = some (k, newValue v (fromTab l)) ∧
        (OneLine l → OneLine (newLine [(k, v)] l)) ∧ newLine [(k, v)] l ≠ []) := by
  rcases newLine_cases k v l with hsame | ⟨a, rest, rfl, ha, htab, hkey, hnew⟩
  · exact .inl hsame
  · obtain ⟨-, hdrop⟩ := cut_at_tab htab rest
    rw [hnew, hdrop]
    refine .inr ⟨(reached_iff ha).mpr htab, ⟨_, setting?_of_key hk ha hkey rest⟩, ?_, fun hone => ?_, by simp⟩
    · rw [setting?_of_key hk ha hkey, hv.content_written, newValue]
    · have hrest : OneLine (fromTab rest) := fun c hc =>
        hone c (mem_append_right _ (mem_cons_of_mem _ ((dropWhile_sublist _).mem hc)))
      have hsign : OneLine ['='] := fun c hc => mem_singleton.mp hc ▸ by decide
      have hleft : OneLine a := fun c hc => hone c (mem_append_left _ hc)
      exact oneLine_append hleft (oneLine_append hsign (oneLine_append hv.oneLine_written hrest))

theorem settingIn?_newLine (current? : Option Text) (l : Text) :
    settingIn? current? (newLine (changesIn [(sec, [(k, v)])] current?) l) =
      (settingIn? current? l).map (changed sec k v) := by
  rcases changesIn_cases sec k v current? with ⟨rfl, hsec, hchanges⟩ | ⟨hother, hchanges⟩
  · have hin : ∀ l, settingIn? (some sec) l = (setting? l).map fun x => ⟨sec, x.1, x.2, l⟩ := fun l => by
      cases sec with
      | nil => exact absurd rfl hsec
      | cons c s => rfl
    rw [hchanges, hin, hin, Option.map_map]
    rcases newLine_changed hk hv l with ⟨hsame, hnot⟩ | ⟨hreached, ⟨old, hold⟩, hnew, -⟩
    · rw [hsame]
      cases hset : setting? l with
      | none => rfl
      | some x =>
        have hcond : ¬ (sec = sec ∧ x.1 = k ∧ Reached l) := fun h => hnot x hset h.2.1 h.2.2
        rw [map_some, map_some, Function.comp, changed, if_neg hcond]
    · rw [hnew, hold, map_some, map_some, Function.comp, changed, if_pos ⟨rfl, rfl, hreached⟩]
  · rw [hchanges, newLine_nil]
    unfold settingIn?
    split
    · rfl
    · rfl
    · next s hne =>
      have hsec : s ≠ sec := by
        rintro rfl
        exact hother.elim (fun h => h rfl) (hne)
      cases setting? l with
      | none => rfl
      | some x => simp [changed, hsec]

theorem standsFor_newLine (current? : Option Text) (hl : OneLine l) :
    newLine (changesIn [(sec, [(k, v)])] current?) l = l ∨
      OneLine (newLine (changesIn [(sec, [(k, v)])] current?) l) ∧
        newLine (changesIn [(sec, [(k, v)])] current?) l ≠ [] := by
  rcases changesIn_cases sec k v current? with ⟨-, -, hchanges⟩ | ⟨-, hchanges⟩
  · rw [hchanges]
    rcases newLine_changed hk hv l with ⟨hsame, -⟩ | ⟨-, -, -, hone, hne⟩
    · exact .inl hsame
    · exact .inr ⟨hone hl, hne⟩
  · rw [hchanges]
    exact .inl (newLine_nil l)

omit hv in
/-- A line that is changed begins no section, unless its key begins with a bracket. -/
theorem sectionName?_newLine (h : sectionName? l = none)
    (hbracket : k.head? = some '[' → sectionName? (newLine [(k, v)] l) = none) (current? : Option Text) :
    sectionName? (newLine (changesIn [(sec, [(k, v)])] current?) l) = none := by
  rcases changesIn_cases sec k v current? with ⟨-, -, hchanges⟩ | ⟨-, hchanges⟩
  · rw [hchanges]
    by_cases hhead : k.head? = some '['
    · exact hbracket hhead
    · rcases newLine_cases k v l with ⟨hsame, -⟩ | ⟨a, rest, -, -, -, hkey, hnew⟩
      · rw [hsame, h]
      · rw [hnew, sectionName?_of_key hk hhead hkey]
  · rw [hchanges, newLine_nil, h]

theorem settings_updatedPairs (current? : Option Text)
    (hbracket : k.head? = some '[' → ∀ p ∈ ps, sectionName? p.1 = none → sectionName? (newLine [(k, v)] p.1) = none) :
    settings current? ((updatedPairs [(sec, [(k, v)])] current? ps).map Prod.fst) =
      (settings current? (ps.map Prod.fst)).map (changed sec k v) := by
  induction ps generalizing current? with
  | nil => rfl
  | cons p ps ih =>
    obtain ⟨l, b⟩ := p
    have hrest := fun current? => ih current? fun hhead p hp => hbracket hhead p (mem_cons_of_mem _ hp)
    rw [updatedPairs, map_cons, settings]
    cases hname : sectionName? l with
    | some name =>
      rw [map_cons, settings, hname]
      exact hrest (some name)
    | none =>
      have hfirst := fun hhead => hbracket hhead (l, b) mem_cons_self hname
      rw [map_cons, settings, sectionName?_newLine hk hname hfirst current?]
      rw [settingIn?_newLine hk hv, hrest, map_append, toList_map]

end

/-- **When a changed value is read back.** Take any table whose lines end in line feeds, any key
that it gives a value to and any value that can be written; if the key begins with a bracket, let no
line with it begin a section when it is changed. After an update of that key every other key has the
value that it had. The key itself has the new value exactly if the last line that sets it has the
key before its first tab and nothing but white space and comments from that tab on, or if the line
is not reached and had that value anyway. -/
theorem value?_read_update {t sec k v old : Text} (hfeeds : ∀ p ∈ linesWithBreaks t, IsFeed p.2)
    (hold : value? (read t) sec k = some old) (hv : Writable v)
    (hbracket : k.head? = some '[' → ∀ l ∈ lines t, sectionName? l = none → sectionName? (newLine [(k, v)] l) = none) :
    (∀ sec' k', (sec', k') ≠ (sec, k) → value? (read (update t [(sec, [(k, v)])])) sec' k' = value? (read t) sec' k') ∧
      ∃ s, last? sec k (settings none (lines t)) = some s ∧
        (value? (read (update t [(sec, [(k, v)])])) sec k = some v ↔
          Reached s.line ∧ body (fromTab s.line) = [] ∨ ¬ Reached s.line ∧ old = v) := by
  rw [value?_read] at hold
  obtain ⟨s, hlast, rfl⟩ := map_eq_some_iff.mp hold
  obtain ⟨hsec, hkey⟩ : s.sec = sec ∧ s.key = k := by simpa using find?_some hlast
  have hsetting := (of_mem_settings (mem_reverse.mp (mem_of_find?_eq_some hlast))).2
  have hk : CommentFree k := hkey ▸ commentFree_of_setting? hsetting
  have hsections : k.head? = some '[' → ∀ p ∈ linesWithBreaks t, sectionName? p.1 = none →
      sectionName? (newLine [(k, v)] p.1) = none := fun hhead p hp => hbracket hhead p.1 (mem_map_of_mem hp)
  -- the last setting of a key in the updated table is the last one in the table, changed
  have hread : ∀ sec' k', value? (read (update t [(sec, [(k, v)])])) sec' k' =
      (last? sec' k' (settings none (lines t))).map fun s => (s.changed sec k v).value := by
    intro sec' k'
    rw [value?_read, lines_update hfeeds fun current? l hl => standsFor_newLine hk hv current? hl,
      settings_updatedPairs hk hv none hsections, last?_changed, Option.map_map]
    rfl
  refine ⟨fun sec' k' hne => ?_, s, hlast, ?_⟩
  · rw [hread, value?_read]
    refine map_congr fun s' hs' => ?_
    obtain ⟨hsec', hkey'⟩ : s'.sec = sec' ∧ s'.key = k' := by simpa using find?_some hs'
    have hcond : ¬ (s'.sec = sec ∧ s'.key = k ∧ Reached s'.line) := fun h =>
      hne (Prod.ext (hsec'.symm.trans h.1) (hkey'.symm.trans h.2.1))
    rw [changed, if_neg hcond]
  · rw [hread, hlast, map_some, some.injEq, changed]
    by_cases hreached : Reached s.line
    · rw [if_pos ⟨hsec, hkey, hreached⟩]
      simpa [hreached] using hv.newValue_eq_iff s.line
    · simp [hreached]

-- With a bracket in its value, the line of a key that begins with one begins a section.
example : value? (read (update "[S]\n[k=v\n" [("S", [("[k", "]")])])) "S" "[k" = none := by decide

def noted : Text := "[S]\nk=v\t; note\nj=1\n"

theorem writable_words : Writable "w w" where
  ne_nil := by simp
  oneLine := by simp [OneLine, isLineBreak]
  trimmed := by decide
  tab := by simp
  quote := by simp
  commentFree := ⟨by simp, by decide⟩

/-- A comment behind a tab stays where it is, and the value before it is changed. -/
theorem value?_read_update_noted :
    value? (read (update noted [("S", [("k", "w w")])])) "S" "k" = some "w w" ∧
      value? (read (update noted [("S", [("k", "w w")])])) "S" "j" = some "1" := by
  have hfeeds : ∀ p ∈ linesWithBreaks noted, IsFeed p.2 := by
    have hlines : linesWithBreaks noted =
        [(("[S]" : Text), ("\n" : Text)), (("k=v\t; note" : Text), ("\n" : Text)), (("j=1" : Text), ("\n" : Text))] := by
      decide
    rw [hlines]
    simp [IsFeed]
  have hold : value? (read noted) "S" "k" = some "v" := by decide
  obtain ⟨hother, s, hlast, hiff⟩ := value?_read_update hfeeds hold writable_words fun h => absurd h (by decide)
  have hs : last? "S" "k" (settings none (lines noted)) = some ⟨"S", "k", "v", "k=v\t; note"⟩ := rfl
  obtain rfl := some.inj (hlast.symm.trans hs)
  decide

/-- **A value behind a tab is read but not changed.** The key of an indented line has a value when
the table is read, but an update leaves the line as it is. -/
theorem update_misses_indented :
    value? (read "[S]\n\tk=v\n") "S" "k" = some "v" ∧ Writable "w w" ∧
      update "[S]\n\tk=v\n" [("S", [("k", "w w")])] = "[S]\n\tk=v\n" ∧
      value? (read (update "[S]\n\tk=v\n" [("S", [("k", "w w")])])) "S" "k" = some "v" := by
  have hsame : update "[S]\n\tk=v\n" [("S", [("k", "w w")])] = "[S]\n\tk=v\n" := by decide
  have hread : value? (read "[S]\n\tk=v\n") "S" "k" = some "v" := by decide
  exact ⟨hread, writable_words, hsame, by rw [hsame, hread]⟩

end Localizer.Table
