import Localizer.Proofs.Encoding.Utf8
import Localizer.Proofs.Job
import Localizer.Proofs.Text.Cut

/-!
# Files that were written

A file that was written is found at its path with the content that was given. Writing a file changes
no directory, so a path that could be followed before leads to the same place.
-/

namespace Localizer

open Text Encoding Workspace

variable {q : Place} {names : List Text} {f : File}
variable {r : Place} {ws' : Workspace} {p : Text} {bs : Bytes}

namespace Workspace

variable {ws : Workspace}

theorem lookup_map_of_isSome (f : File) {files : List (Place × File)}
    (h : (files.lookup q).isSome = true) :
    (files.map fun x => if x.1 = q then (x.1, f) else (x.1, x.2)).lookup q = some f := by
  induction files with
  | nil => cases h
  | cons x files ih =>
    rw [List.map_cons]
    by_cases hx : x.1 = q
    · rw [if_pos hx, List.lookup_cons, beq_iff_eq.mpr hx.symm]
    · have hq : (q == x.1) = false := beq_false_of_ne (Ne.symm hx)
      rw [if_neg hx, List.lookup_cons, hq]
      rw [List.lookup_cons, hq] at h
      exact ih h

theorem lookup_setFile (ws : Workspace) (q : Place) (f : File) :
    (ws.setFile q f).files.lookup q = some f := by
  unfold setFile
  split
  · next h => exact lookup_map_of_isSome f h
  · next h =>
    rw [List.lookup_append, Option.not_isSome_iff_eq_none.mp h, Option.none_or, List.lookup_cons, beq_self_eq_true]

theorem node?_of_hasDir (h : ws.hasDir q = true) : ws.node? q = some .directory := if_pos h

theorem hasDir_of_node? (h : ws.node? q = some .directory) : ws.hasDir q = true := by
  unfold node? at h
  split at h
  · next hdir => exact hdir
  · obtain ⟨f, -, hf⟩ := Option.map_eq_some_iff.mp h
    cases hf

/-- Where a name leads from a directory, unless it is too long. -/
def enter? (q : Place) (n : Text) : Option Place :=
  if n.isEmpty || n = "." then some q
  else if n = ".." then some q.dropLast
  else if maxNameSize < (Utf8.encode n).length then none
  else some (q ++ [n])

theorem follow_cons {n : Text} :
    ws.follow q (n :: names) = .ok r ↔
      ws.hasDir q = true ∧ ∃ s, enter? q n = some s ∧ ws.follow s names = .ok r := by
  rw [follow, enter?]
  by_cases hq : ws.hasDir q = true
  · rw [node?_of_hasDir hq]
    split_ifs <;> simp [hq]
  · refine iff_of_false (fun h => ?_) fun h => hq h.1
    split at h
    · cases h
    · cases h
    · next hnode => exact hq (hasDir_of_node? hnode)

theorem follow_of_hasDir (hdirs : ∀ q, ws.hasDir q = true → ws'.hasDir q = true)
    (h : ws.follow q names = .ok r) : ws'.follow q names = .ok r := by
  induction names generalizing q with
  | nil => exact h
  | cons n names ih =>
    obtain ⟨hq, s, hs, hrest⟩ := follow_cons.mp h
    exact follow_cons.mpr ⟨hdirs q hq, s, hs, ih hrest⟩

theorem locate_of_hasDir (h : ws.locate p names = .ok r) (hcwd : ws'.cwd = ws.cwd)
    (hdirs : ∀ q, ws.hasDir q = true → ws'.hasDir q = true) : ws'.locate p names = .ok r := by
  unfold locate at h ⊢
  rw [hcwd]
  split_ifs at h ⊢
  · exact follow_of_hasDir hdirs h
  · exact follow_of_hasDir hdirs h

@[simp] theorem hasDir_setFile (ws : Workspace) (q r : Place) (f : File) :
    (ws.setFile q f).hasDir r = ws.hasDir r :=
  rfl

theorem read_of_locate (hq : ws.locate p (splitOn '/' p) = .ok q)
    (hnode : ws.node? q = some (.file f)) : ws.read p = .ok f := by
  simp only [read, look, hq, bind, Except.bind, hnode]
  rfl

theorem read_setFile (f : File) (hq : ws.locate p (splitOn '/' p) = .ok q)
    (hdir : ws.hasDir q = false) : (ws.setFile q f).read p = .ok f := by
  refine read_of_locate (locate_of_hasDir hq rfl fun _ h => h) ?_
  rw [node?, hasDir_setFile, hdir, lookup_setFile]
  rfl

theorem site_eq_locate (h : p.getLast? ≠ some '/') : ws.site p = ws.locate p (splitOn '/' p) := by
  rw [site, dropEndWhile_eq_self]
  intro c hc
  exact decide_eq_false fun hslash => h (hslash ▸ hc)

theorem locate_of_read (h : ws.read p = .ok f) :
    ∃ q, ws.locate p (splitOn '/' p) = .ok q ∧ ws.node? q = some (.file f) := by
  simp only [read, look, bind, Except.bind] at h
  cases hq : ws.locate p (splitOn '/' p) with
  | error g => simp [hq] at h
  | ok q =>
    simp only [hq] at h
    cases hnode : ws.node? q with
    | none => simp [hnode] at h
    | some n =>
      cases n with
      | directory => simp [hnode, pure, Except.pure] at h
      | file g => simpa [hnode, pure, Except.pure] using h

theorem ne_nil_of_read (h : ws.read p = .ok f) : p ≠ [] := by
  rintro rfl
  cases h

theorem hasDir_of_follow (h : ws.follow q (names ++ [[]]) = .ok r) : ws.hasDir r = true := by
  induction names generalizing q with
  | nil =>
    obtain ⟨hq, _, hs, hr⟩ := follow_cons.mp h
    cases hs
    cases hr
    exact hq
  | cons n names ih =>
    obtain ⟨-, s, -, hrest⟩ := follow_cons.mp h
    exact ih hrest

theorem getLast?_of_read (h : ws.read p = .ok f) : p.getLast? ≠ some '/' := by
  intro hslash
  obtain ⟨q, hq, hnode⟩ := locate_of_read h
  obtain ⟨t, rfl⟩ := List.getLast?_eq_some_iff.mp hslash
  rw [splitOn_concat_sep] at hq
  have hdir : ws.hasDir q = true := by
    unfold locate at hq
    split_ifs at hq
    · exact hasDir_of_follow hq
    · exact hasDir_of_follow hq
  simp [node?_of_hasDir hdir] at hnode

/-! ### The current directory -/

theorem node?_cwd (ws : Workspace) : ws.node? (Path.parts ws.cwd) = some .directory := by
  have hprefix : (Path.parts ws.cwd).isPrefixOf (Path.parts ws.cwd) = true := by simp
  exact node?_of_hasDir (by rw [hasDir, hprefix, Bool.or_true])

theorem locate_here (ws : Workspace) :
    ws.locate "." (splitOn '/' ".") = .ok (Path.parts ws.cwd) := by
  have hnames : splitOn '/' ("." : Text) = [("." : Text)] := by decide
  unfold locate
  rw [hnames, if_neg (by decide), if_neg (by decide), if_neg (by decide), if_neg (by decide), if_neg (by decide)]
  simp only [follow, node?_cwd]
  rfl

theorem isDir_here (ws : Workspace) : ws.isDir "." = true := by
  simp only [isDir, look, locate_here, bind, Except.bind, node?_cwd, pure, Except.pure]

end Workspace

namespace Job

variable {ws ws' : Workspace}

theorem yields_writeFile : Yields (writeFile p f) ws () ws' ↔
      ∃ q, ws.site p = .ok q ∧ ws.hasDir q = false ∧ p.getLast? ≠ some '/' ∧ ws' = ws.setFile q f := by
  unfold writeFile
  simp only [yields_bind, yields_get, yields_ofExcept]
  refine ⟨?_, ?_⟩
  · rintro ⟨_, _, ⟨rfl, rfl⟩, q, _, ⟨hsite, rfl⟩, h⟩
    split at h
    · obtain ⟨_, _, hthrow, -⟩ := yields_bind.mp h
      exact absurd hthrow not_yields_throw
    · next hplace =>
      rw [Bool.or_eq_true, not_or, Bool.not_eq_true, decide_eq_true_iff] at hplace
      exact ⟨q, hsite, hplace.1, hplace.2, yields_set.mp h⟩
  · rintro ⟨q, hsite, hdir, hlast, rfl⟩
    refine ⟨ws, ws, ⟨rfl, rfl⟩, q, ws, ⟨hsite, rfl⟩, ?_⟩
    rw [hdir, decide_eq_false hlast]
    exact yields_set.mpr rfl

/-- **A file that was written can be read.** -/
theorem read_of_writeFile (h : Yields (writeFile p f) ws () ws') : ws'.read p = .ok f := by
  obtain ⟨q, hsite, hdir, hlast, rfl⟩ := yields_writeFile.mp h
  exact read_setFile f ((site_eq_locate hlast).symm.trans hsite) hdir

theorem yields_writeFile_of_read (h : ws.read p = .ok f) (g : File) :
    ∃ ws', Yields (writeFile p g) ws () ws' := by
  obtain ⟨q, hq, hnode⟩ := locate_of_read h
  have hlast := getLast?_of_read h
  refine ⟨ws.setFile q g, yields_writeFile.mpr ⟨q, ?_, ?_, hlast, rfl⟩⟩
  · exact (site_eq_locate hlast).trans hq
  · rw [← Bool.not_eq_true]
    intro hdir
    simp [node?_of_hasDir hdir] at hnode

theorem yields_readBytes :
    Yields (readBytes p) ws bs ws' ↔ ∃ f, ws.read p = .ok f ∧ f.bytes = bs ∧ ws' = ws := by
  unfold readBytes
  simp only [yields_bind, yields_get, yields_ofExcept, yields_pure]
  refine ⟨?_, ?_⟩
  · rintro ⟨_, _, ⟨rfl, rfl⟩, f, _, ⟨hread, rfl⟩, rfl, rfl⟩
    exact ⟨f, hread, rfl, rfl⟩
  · rintro ⟨f, hread, rfl, rfl⟩
    exact ⟨_, _, ⟨rfl, rfl⟩, f, _, ⟨hread, rfl⟩, rfl, rfl⟩

/-- Whether there is something at a path can be told unless a name on it is too long. -/
theorem yields_isThere (h : ws.look p ≠ .error .nameTooLong) :
    Yields (isThere p) ws (ws.exists_ p) ws := by
  refine .bind .get ?_
  rw [exists_]
  split
  · next n hlook => exact .pure (by rw [hlook]; rfl)
  · next hlook => exact absurd hlook h
  · next f hlook => exact .pure (by rw [hlook]; rfl)

theorem yields_writeUtf8 {t : Text} :
    Yields (writeUtf8 p t) ws () ws' ↔
      ∃ bs, Utf8.encode? t = some bs ∧ Yields (writeBytes p bs) ws () ws' := by
  unfold writeUtf8 Utf8.encode?
  rw [yields_bind]
  cases t.any isHalf with
  | true =>
    refine ⟨fun ⟨_, _, _, hthrow⟩ => absurd hthrow not_yields_throw, fun ⟨_, hnone, _⟩ => by cases hnone⟩
  | false =>
    refine ⟨fun ⟨_, ws₁, hwrite, hend⟩ => ?_, fun ⟨bs, hbs, hwrite⟩ => ?_⟩
    · obtain ⟨-, rfl⟩ := yields_pure.mp hend
      exact ⟨_, rfl, hwrite⟩
    · cases hbs
      exact ⟨(), ws', hwrite, .pure rfl⟩

theorem readBytes_of_writeBytes (h : Yields (writeBytes p bs) ws () ws') :
    Yields (readBytes p) ws' bs ws' :=
  yields_readBytes.mpr ⟨_, read_of_writeFile h, rfl, rfl⟩

end Job

end Localizer
