import Localizer.Proofs.Assoc
import Localizer.Proofs.Fault
import Localizer.Proofs.Path
import Localizer.Proofs.Workspace

/-!
# Directories

A path along names leads to a place below that of its directory, and all places on the way are
directories (`locate_along`). The search of a directory finds just the files below it whose names
end as wanted, each of them once (`mem_find_iff`, `nodup_find`).
-/

namespace Localizer.Workspace

open List hiding splitOn
open Text Encoding Localizer.Path Utf8

variable {q : Place} {n : Text} {ns : List Text}

variable {p : Text} {d : Place} {k : Nat}
variable {r : Place} {ms : List Text} {dir x : Text}

def WellNamed (ws : Workspace) : Prop := ∀ q ∈ ws.files.map Prod.fst ++ ws.dirs, Names q

variable {ws : Workspace}

/-! ### Following names -/

theorem exists_of_follow_append (h : ws.follow q (ms ++ ns) = .ok r) :
    ∃ d, ws.follow q ms = .ok d ∧ ws.follow d ns = .ok r := by
  induction ms generalizing q with
  | nil => exact ⟨q, rfl, h⟩
  | cons n ms ih =>
    obtain ⟨hq, s, hs, hrest⟩ := follow_cons.mp h
    obtain ⟨d, hd, hr⟩ := ih hrest
    exact ⟨d, follow_cons.mpr ⟨hq, s, hs, hd⟩, hr⟩

theorem follow_skip (hq : ws.hasDir q = true) (hn : n = [] ∨ n = ("." : Text)) (ns : List Text) :
    ws.follow q (n :: ns) = ws.follow q ns := by
  have hskip : (n.isEmpty || decide (n = ("." : Text))) = true := by
    rcases hn with rfl | rfl
    · rfl
    · rfl
  rw [follow, node?_of_hasDir hq]
  simp only [hskip, if_true]

theorem follow_name (hn : IsName n) : ws.follow q (n :: ns) = .ok r ↔
      ws.hasDir q = true ∧ (encode n).length ≤ maxNameSize ∧ ws.follow (q ++ [n]) ns = .ok r := by
  have henter : enter? q n = if maxNameSize < (encode n).length then none else some (q ++ [n]) := by
    have hstay : (n.isEmpty || decide (n = ("." : Text))) = false := by
      rw [Bool.or_eq_false_iff, isEmpty_eq_false_iff, decide_eq_false_iff_not]
      exact ⟨hn.ne_nil, hn.ne_here⟩
    rw [enter?, hstay, if_neg (by decide), if_neg hn.ne_above]
  rw [follow_cons, henter]
  split_ifs with hsize
  · simp [Nat.not_le_of_lt hsize]
  · simp [Nat.le_of_not_lt hsize]

theorem eq_of_follow (hns : Names ns) (h : ws.follow q ns = .ok r) :
    r = q ++ ns ∧ (ns ≠ [] → ws.hasDir q = true) := by
  induction ns generalizing q with
  | nil =>
    cases h
    exact ⟨(append_nil _).symm, fun hne => absurd rfl hne⟩
  | cons n ns ih =>
    obtain ⟨hq, -, hrest⟩ := (follow_name (hns n mem_cons_self)).mp h
    obtain ⟨hr, -⟩ := ih (fun m hm => hns m (mem_cons_of_mem n hm)) hrest
    rw [hr, append_assoc]
    exact ⟨rfl, fun _ => hq⟩

/-! ### Locating paths -/

structure Addressable (p : Text) : Prop where
  no_nul : '\x00' ∉ p
  ne_nil : p ≠ []
  no_half : ∀ c ∈ p, isHalf c = false
  short : (encode p).length < pathSizeLimit

def startOf (ws : Workspace) (p : Text) : Place := if isAbsolute p then [] else parts ws.cwd

theorem hasDir_startOf (ws : Workspace) (p : Text) : ws.hasDir (ws.startOf p) = true := by
  unfold startOf
  split_ifs
  · rw [hasDir, isPrefixOf_iff_prefix.mpr nil_prefix, Bool.or_true]
  · exact hasDir_of_node? (node?_cwd ws)

theorem locate_eq_ok_iff {names : List Text} :
    ws.locate p names = .ok q ↔ Addressable p ∧ ws.follow (ws.startOf p) names = .ok q := by
  unfold locate startOf
  constructor
  · intro h
    split_ifs at h with hnul hempty hhalf hlong
    all_goals
      refine ⟨⟨by simpa using hnul, by simpa using hempty, by simpa using hhalf, Nat.lt_of_not_le hlong⟩, ?_⟩
      simp only [*, if_true, if_false, Bool.false_eq_true]
  · rintro ⟨⟨hnul, hne, hhalf, hshort⟩, h⟩
    have hnone : p.any isHalf = false := by simpa using hhalf
    rw [if_neg (by simpa using hnul), if_neg (by simpa using hne), hnone, if_neg (by decide),
      if_neg (Nat.not_le_of_lt hshort)]
    exact h

theorem Addressable.of_isPrefix {p' : Text} (h : Addressable p) (hp : p' <+: p) (hne : p' ≠ []) :
    Addressable p' := by
  refine ⟨fun hm => h.no_nul (hp.subset hm), hne, fun c hc => h.no_half c (hp.subset hc), ?_⟩
  obtain ⟨s, rfl⟩ := hp
  have hshort := h.short
  rw [encode, flatMap_append, length_append] at hshort
  exact Nat.lt_of_le_of_lt (Nat.le_add_right _ _) hshort

theorem addressable_here : Addressable "." := by
  have hsize : (encode ".".toList).length = 1 := by decide
  refine ⟨by decide, by decide, forall_mem_singleton.mpr (by decide), ?_⟩
  rw [hsize, pathSizeLimit]
  omega

theorem follow_ofParts {r : Text} (hq : ws.hasDir q = true) (hr : IsStart r)
    (hns : ∀ n ∈ ns, IsPart n) : ws.follow q (splitOn '/' (ofParts r ns)) = ws.follow q ns := by
  have hjoin : ws.follow q (splitOn '/' (join "/".toList ns)) = ws.follow q ns := by
    by_cases hne : ns = []
    · rw [hne]
      exact follow_skip hq (.inl rfl) []
    · rw [show splitOn '/' (join "/".toList ns) = ns from splitOn_join hne fun n hn => (hns n hn).no_slash]
  have hslash : ∀ t : Text, ws.follow q (splitOn '/' ('/' :: t)) = ws.follow q (splitOn '/' t) := fun t => by
    exact follow_skip hq (.inl rfl) _
  unfold ofParts
  split_ifs with hempty
  · obtain rfl : ns = [] := by simpa using (Bool.and_eq_true_iff.mp hempty).2
    exact follow_skip hq (.inr rfl) []
  · rcases hr with rfl | rfl | rfl
    · exact hjoin
    · exact (hslash _).trans hjoin
    · exact (hslash _).trans ((hslash _).trans hjoin)

theorem startOf_along (hns : ∀ n ∈ ns, IsPart n) : ws.startOf (along dir ns) = ws.startOf dir := by
  rw [startOf, isAbsolute_eq, root_along hns, ← isAbsolute_eq, startOf]

theorem locate_along_iff (hns : ∀ n ∈ ns, IsPart n) :
    ws.locate (along dir ns) (splitOn '/' (along dir ns)) = .ok q ↔
      Addressable (along dir ns) ∧ ws.follow (ws.startOf dir) (parts dir ++ ns) = .ok q := by
  rw [locate_eq_ok_iff, startOf_along hns, along,
    follow_ofParts (hasDir_startOf ws dir) (isStart_root dir) (isPart_of_mem_along hns)]

/-- **A path along names leads down from each place on its way.** -/
theorem locate_along (hms : Names ms) (hns : Names ns)
    (h : ws.locate (along dir (ms ++ ns)) (splitOn '/' (along dir (ms ++ ns))) = .ok q) :
    ∃ d, ws.locate (along dir ms) (splitOn '/' (along dir ms)) = .ok d ∧ q = d ++ ns ∧
      (ns ≠ [] → ws.hasDir d = true) := by
  have hnames : Names (ms ++ ns) := forall_mem_append.mpr ⟨hms, hns⟩
  obtain ⟨haddr, hfollow⟩ := (locate_along_iff hnames.isPart).mp h
  rw [← append_assoc] at hfollow
  obtain ⟨d, hd, hrest⟩ := exists_of_follow_append hfollow
  obtain ⟨hq, hdir⟩ := eq_of_follow hns hrest
  refine ⟨d, (locate_along_iff hms.isPart).mpr ⟨?_, hd⟩, hq, hdir⟩
  rcases along_isPrefix dir ms ns with hhere | hprefix
  · rw [hhere]
    exact addressable_here
  · exact haddr.of_isPrefix hprefix (along_ne_nil hms.isPart)

theorem isDir_of_locate (h : ws.locate p (splitOn '/' p) = .ok d) (hd : ws.hasDir d = true) :
    ws.isDir p = true := by
  simp only [isDir, look, h, bind, Except.bind, node?_of_hasDir hd, pure, Except.pure]

theorem isDir_append (hms : Names ms) (hn : IsName n)
    (h : ws.locate (along dir (ms ++ [n])) (splitOn '/' (along dir (ms ++ [n]))) = .ok d)
    (hd : ws.hasDir d = true) : ws.isDir (append (along dir ms) n) = true := by
  rcases @append_along n ms dir hms.isPart hn.toIsPart with heq | ⟨hhere, halone⟩
  · rw [heq]
    exact isDir_of_locate h hd
  · -- the name follows a dot and a slash, for which there is room
    have hdot : append ("." : Text) n = '.' :: '/' :: n := by
      rw [append, isAbsolute_of_isPart hn.toIsPart]
      rfl
    have hnames : splitOn '/' ('.' :: '/' :: n) = [".".toList, n] := by
      have hcut : splitOn '/' (['.'] ++ '/' :: n) = ['.'] :: splitOn '/' n := splitOn_append_sep (by decide)
      rwa [splitOn_of_not_mem hn.no_slash] at hcut
    rw [halone, splitOn_of_not_mem hn.no_slash] at h
    obtain ⟨haddr, hfollow⟩ := locate_eq_ok_iff.mp h
    obtain ⟨hstart, hsize, -⟩ := (follow_name hn).mp hfollow
    have haddr' : Addressable ('.' :: '/' :: n) := by
      have hlead : (encode (['.', '/'] ++ n)).length = 2 + (encode n).length := by
        rw [encode, flatMap_append, length_append]
        rfl
      refine ⟨by simpa using haddr.no_nul, cons_ne_nil _ _, ?_, ?_⟩
      · exact forall_mem_cons.mpr ⟨by decide, forall_mem_cons.mpr ⟨by decide, haddr.no_half⟩⟩
      · rw [maxNameSize] at hsize
        exact hlead.trans_lt (by rw [pathSizeLimit]; omega)
    have hstartOf : ws.startOf ('.' :: '/' :: n) = ws.startOf n := by
      rw [startOf, startOf, isAbsolute_of_isPart hn.toIsPart]
      rfl
    have hlocate : ws.locate ('.' :: '/' :: n) (splitOn '/' ('.' :: '/' :: n)) = .ok d := by
      rw [hnames]
      refine locate_eq_ok_iff.mpr ⟨haddr', ?_⟩
      rwa [hstartOf, follow_skip hstart (.inr rfl)]
    rw [hhere, hdot]
    exact isDir_of_locate hlocate hd

/-! ### Names in a directory -/

theorem childName?_eq_some_iff : childName? d q = some n ↔ ∃ ks, q = d ++ n :: ks := by
  unfold childName?
  constructor
  · intro h
    split_ifs at h with hprefix
    obtain ⟨ks, rfl⟩ := isPrefixOf_iff_prefix.mp hprefix
    rw [drop_left] at h
    obtain ⟨ks, rfl⟩ := head?_eq_some_iff.mp h
    exact ⟨ks, rfl⟩
  · rintro ⟨ks, rfl⟩
    have hbelow : d.isPrefixOf (d ++ n :: ks) = true := isPrefixOf_iff_prefix.mpr (prefix_append d _)
    rw [if_pos hbelow, drop_left]
    rfl

theorem mem_namesAt_iff :
    n ∈ ws.namesAt d ↔ ∃ ks, d ++ n :: ks ∈ ws.files.map Prod.fst ++ ws.dirs := by
  rw [namesAt, (mergeSort_perm _ _).mem_iff, mem_eraseDups, mem_filterMap]
  constructor
  · rintro ⟨q, hq, hn⟩
    obtain ⟨ks, rfl⟩ := childName?_eq_some_iff.mp hn
    exact ⟨ks, hq⟩
  · rintro ⟨ks, hq⟩
    exact ⟨_, hq, childName?_eq_some_iff.mpr ⟨ks, rfl⟩⟩

theorem nodup_eraseDups {α : Type} [BEq α] [LawfulBEq α] (l : List α) : l.eraseDups.Nodup := by
  cases l with
  | nil => exact nodup_nil
  | cons a l =>
    rw [eraseDups_cons, nodup_cons]
    refine ⟨fun ha => ?_, nodup_eraseDups _⟩
    simpa using mem_eraseDups.mp ha
termination_by l.length
decreasing_by exact Nat.lt_succ_of_le (length_filter_le _ l)

theorem nodup_namesAt (ws : Workspace) (d : Place) : (ws.namesAt d).Nodup :=
  (mergeSort_perm _ _).nodup_iff.mpr (nodup_eraseDups _)

theorem mem_names_iff :
    n ∈ ws.names p ↔ ∃ d ks, ws.locate p (splitOn '/' p) = .ok d ∧ ws.hasDir d = true ∧
      d ++ n :: ks ∈ ws.files.map Prod.fst ++ ws.dirs := by
  unfold names
  constructor
  · intro h
    split at h
    · next d hd =>
      split_ifs at h with hdir
      · obtain ⟨ks, hks⟩ := mem_namesAt_iff.mp h
        exact ⟨d, ks, hd, hdir, hks⟩
      · cases h
    · cases h
  · rintro ⟨d, ks, hd, hdir, hks⟩
    rw [hd]
    simp only [hdir, if_true]
    exact mem_namesAt_iff.mpr ⟨ks, hks⟩

theorem nodup_names (ws : Workspace) (p : Text) : (ws.names p).Nodup := by
  unfold names
  split
  · split_ifs
    · exact nodup_namesAt ws _
    · exact nodup_nil
  · exact nodup_nil

theorem WellNamed.isName (hws : ws.WellNamed) (h : n ∈ ws.names p) : IsName n := by
  obtain ⟨d, ks, -, -, hq⟩ := mem_names_iff.mp h
  exact hws _ hq n (by simp)

/-! ### Searching a directory -/

section

variable {dir ext : Text} {ms : List Text}

theorem mem_findBelow_succ_iff :
    x ∈ ws.findBelow ext (k + 1) p ↔ (∃ n ∈ ws.names p, endsWith n ext = true ∧ x = child p n) ∨
      ∃ n ∈ ws.names p, ws.isDir (append p n) = true ∧ x ∈ ws.findBelow ext k (child p n) := by
  simp only [findBelow, mem_append, mem_map, mem_flatMap, mem_filter, and_assoc, eq_comm (a := x)]

/-- What is found has a path along names, of which the last one ends as wanted. -/
theorem findBelow_sound (hws : ws.WellNamed) (hms : Names ms)
    (h : x ∈ ws.findBelow ext k (along dir ms)) :
    ∃ ks n, Names ks ∧ IsName n ∧ endsWith n ext = true ∧ x = along dir (ms ++ (ks ++ [n])) := by
  induction k generalizing ms with
  | zero => cases h
  | succ k ih =>
    rcases mem_findBelow_succ_iff.mp h with ⟨n, hmem, hext, rfl⟩ | ⟨m, hmem, -, hbelow⟩
    · have hn := hws.isName hmem
      exact ⟨[], n, names_nil, hn, hext, child_along hms.isPart hn.toIsPart⟩
    · have hm := hws.isName hmem
      rw [child_along hms.isPart hm.toIsPart] at hbelow
      obtain ⟨ks, n, hks, hn, hext, rfl⟩ := ih (hms.concat hm) hbelow
      exact ⟨m :: ks, n, names_cons_iff.mpr ⟨hm, hks⟩, hn, hext, by simp⟩

theorem parts_child_along (hms : Names ms) (hn : IsName n) :
    parts (child (along dir ms) n) = parts dir ++ (ms ++ [n]) := by
  rw [child_along hms.isPart hn.toIsPart, parts_along (hms.concat hn).isPart]

theorem parts_of_mem_findBelow (hws : ws.WellNamed) (hms : Names ms)
    (hn : IsName n) (h : x ∈ ws.findBelow ext k (child (along dir ms) n)) :
    ∃ ks, ks ≠ [] ∧ parts x = parts dir ++ (ms ++ n :: ks) := by
  rw [child_along hms.isPart hn.toIsPart] at h
  obtain ⟨ks, m, hks, hm, -, rfl⟩ := findBelow_sound hws (hms.concat hn) h
  have hall : Names (ms ++ [n] ++ (ks ++ [m])) := forall_mem_append.mpr ⟨hms.concat hn, hks.concat hm⟩
  rw [parts_along hall.isPart]
  simp

/-- **Nothing is found twice.** -/
theorem nodup_findBelow (hws : ws.WellNamed) (k : Nat) (hms : Names ms) :
    (ws.findBelow ext k (along dir ms)).Nodup := by
  induction k generalizing ms with
  | zero => exact nodup_nil
  | succ k ih =>
    have hnodup := ws.nodup_names (along dir ms)
    have hname : ∀ {q : Text → Bool} {n : Text}, n ∈ (ws.names (along dir ms)).filter q → IsName n :=
      fun hn => hws.isName (mem_filter.mp hn).1
    refine nodup_append'.mpr ⟨(hnodup.filter _).map_on ?_, nodup_flatMap.mpr ⟨?_, ?_⟩, ?_⟩
    · intro n hn n' hn' heq
      have hparts := congrArg parts heq
      rw [parts_child_along hms (hname hn), parts_child_along hms (hname hn')] at hparts
      simpa using hparts
    · intro n hn
      rw [child_along hms.isPart (hname hn).toIsPart]
      exact ih (hms.concat (hname hn))
    · refine (hnodup.filter _).pairwise_of_forall_ne ?_
      intro n hn n' hn' hne x hx hx'
      obtain ⟨ks, -, hparts⟩ := parts_of_mem_findBelow hws hms (hname hn) hx
      obtain ⟨ks', -, hparts'⟩ := parts_of_mem_findBelow hws hms (hname hn') hx'
      rw [hparts, append_cancel_left_eq, append_cancel_left_eq] at hparts'
      exact hne (cons.inj hparts').1
    · intro x hx hx'
      obtain ⟨n, hn, rfl⟩ := mem_map.mp hx
      obtain ⟨n', hn', hbelow⟩ := mem_flatMap.mp hx'
      obtain ⟨ks, hks, hparts⟩ := parts_of_mem_findBelow hws hms (hname hn') hbelow
      rw [parts_child_along hms (hname hn), append_cancel_left_eq, append_cancel_left_eq] at hparts
      exact hks (cons.inj hparts).2.symm

/-- What lies at a path along names is found, if the search goes deep enough. -/
theorem findBelow_complete {ks : List Text} (hms : Names ms) (hks : Names ks) (hn : IsName n)
    (hext : endsWith n ext = true) (hk : ks.length < k)
    (hlocate : ws.locate (along dir (ms ++ (ks ++ [n]))) (splitOn '/' (along dir (ms ++ (ks ++ [n])))) = .ok q)
    (hq : q ∈ ws.files.map Prod.fst ++ ws.dirs) :
    along dir (ms ++ (ks ++ [n])) ∈ ws.findBelow ext k (along dir ms) := by
  induction ks generalizing ms k with
  | nil =>
    obtain ⟨k, rfl⟩ := Nat.exists_eq_add_one.mpr hk
    obtain ⟨d, hd, rfl, hdir⟩ := locate_along hms (forall_mem_singleton.mpr hn) hlocate
    refine mem_findBelow_succ_iff.mpr (.inl ⟨n, mem_names_iff.mpr ⟨d, [], hd, hdir (by simp), hq⟩, hext, ?_⟩)
    exact (child_along hms.isPart hn.toIsPart).symm
  | cons m ks ih =>
    obtain ⟨k, rfl⟩ := Nat.exists_eq_add_one.mpr (Nat.zero_lt_of_lt hk)
    obtain ⟨hm, hks⟩ := names_cons_iff.mp hks
    have hrest : Names (ks ++ [n]) := hks.concat hn
    have hnext : Names (ms ++ [m]) := hms.concat hm
    have hassoc : ms ++ (m :: ks ++ [n]) = ms ++ [m] ++ (ks ++ [n]) := by simp
    obtain ⟨d, hd, rfl, hdir⟩ := locate_along hms (names_cons_iff.mpr ⟨hm, hrest⟩) hlocate
    rw [hassoc] at hlocate ⊢
    obtain ⟨d', hd', -, hdir'⟩ := locate_along hnext hrest hlocate
    refine mem_findBelow_succ_iff.mpr (.inr ⟨m, mem_names_iff.mpr ⟨d, ks ++ [n], hd, hdir (by simp), hq⟩, ?_, ?_⟩)
    · exact isDir_append hms hm hd' (hdir' (by simp))
    · rw [child_along hms.isPart hm.toIsPart]
      exact ih hnext hks (Nat.lt_of_succ_lt_succ hk) hlocate

theorem length_lt_depth (h : q ∈ ws.files.map Prod.fst ++ ws.dirs) : q.length < ws.depth := by
  have hmem : q.length ∈ (ws.files.map fun x => x.1.length) ++ ws.dirs.map length := by
    have hmap := mem_map_of_mem (f := length) h
    rwa [map_append, map_map] at hmap
  rw [depth, foldl_eq_foldr]
  exact Nat.lt_succ_of_le (le_max_of_le hmem le_rfl)

theorem locate_of_isFile (h : ws.isFile p = true) :
    ∃ q, ws.locate p (splitOn '/' p) = .ok q ∧ q ∈ ws.files.map Prod.fst := by
  obtain ⟨f, hf⟩ := Option.isSome_iff_exists.mp h
  have hread : ws.read p = .ok f := by
    unfold file? at hf
    cases hr : ws.read p with
    | error g => rw [hr] at hf; cases hf
    | ok g => rw [hr] at hf; exact congrArg Except.ok (Option.some.inj hf)
  obtain ⟨q, hq, hnode⟩ := locate_of_read hread
  unfold node? at hnode
  split_ifs at hnode
  · cases hnode
  · obtain ⟨g, hg, -⟩ := Option.map_eq_some_iff.mp hnode
    exact ⟨q, hq, mem_map.mpr ⟨(q, g), Assoc.mem_of_lookup hg, rfl⟩⟩

theorem mem_files_of_isFile_along (hns : Names ns)
    (hd : ws.locate (tidy dir) (splitOn '/' (tidy dir)) = .ok d)
    (h : ws.isFile (along dir ns) = true) : d ++ ns ∈ ws.files.map Prod.fst := by
  obtain ⟨q, hlocate, hq⟩ := locate_of_isFile h
  obtain ⟨d', hd', rfl, -⟩ := locate_along names_nil hns hlocate
  rw [along_nil, hd] at hd'
  rwa [Except.ok.inj hd']

/-- **The files that a search finds are those at paths along names, of which the last one ends as
wanted.** -/
theorem mem_find_iff (hws : ws.WellNamed) (hp : ws.isFile p = true) :
    p ∈ ws.find dir ext ↔ ∃ ns n, Names ns ∧ IsName n ∧ endsWith n ext = true ∧
      p = along dir (ns ++ [n]) := by
  unfold find
  rw [← along_nil]
  constructor
  · intro h
    split_ifs at h
    · obtain ⟨ns, n, hns, hn, hext, rfl⟩ := findBelow_sound hws names_nil h
      exact ⟨ns, n, hns, hn, hext, rfl⟩
    · cases h
  · rintro ⟨ns, n, hns, hn, hext, rfl⟩
    obtain ⟨q, hlocate, hq⟩ := locate_of_isFile hp
    have hmem : q ∈ ws.files.map Prod.fst ++ ws.dirs := mem_append_left _ hq
    obtain ⟨d, hd, rfl, hdir⟩ := locate_along names_nil (hns.concat hn) hlocate
    have hdepth := length_lt_depth hmem
    rw [if_pos (isDir_of_locate hd (hdir (by simp)))]
    refine findBelow_complete names_nil hns hn hext ?_ hlocate hmem
    simp only [length_append] at hdepth
    omega

theorem nodup_find (hws : ws.WellNamed) (dir ext : Text) : (ws.find dir ext).Nodup := by
  unfold find
  split_ifs
  · rw [← along_nil]
    exact nodup_findBelow hws _ names_nil
  · exact nodup_nil

end

end Localizer.Workspace
