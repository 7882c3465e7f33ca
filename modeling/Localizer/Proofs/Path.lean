import Localizer.Path
import Localizer.Proofs.Text.Cut

/-!
# Paths and their parts

A tidy path is given by its start and its parts (`parts_ofParts`, `root_ofParts`), and what stands
below a directory has the parts of the directory before its own (`child_eq`). The last part of a
path is its name, which is cut before the last dot.
-/

namespace Localizer.Path

open List hiding splitOn
open Text

variable {n : Text} {ps : List Text}
variable {ns qs : List Text} {p r b : Text}

/-- A text that can be a part of a tidy path. -/
structure IsPart (n : Text) : Prop where
  ne_nil : n ≠ []
  ne_here : n ≠ ("." : Text)
  no_slash : '/' ∉ n

/-- A name in a directory: a part that does not lead out of the directory. -/
structure IsName (n : Text) : Prop extends IsPart n where
  ne_above : n ≠ (".." : Text)

/-- Names that lead down from a directory, one after another. -/
def Names (ns : List Text) : Prop := ∀ n ∈ ns, IsName n

def IsStart (r : Text) : Prop := r = [] ∨ r = ("/" : Text) ∨ r = ("//" : Text)

theorem names_nil : Names [] := nofun

theorem names_cons_iff : Names (n :: ns) ↔ IsName n ∧ Names ns := forall_mem_cons

theorem Names.isPart (h : Names ns) : ∀ n ∈ ns, IsPart n := fun n hn => (h n hn).toIsPart

theorem Names.concat (h : Names ns) (hn : IsName n) : Names (ns ++ [n]) :=
  forall_mem_append.mpr ⟨h, forall_mem_singleton.mpr hn⟩

/-! ### Parts -/

theorem mem_parts_iff : n ∈ parts p ↔ n ∈ splitOn '/' p ∧ n ≠ [] ∧ n ≠ ("." : Text) := by
  simp [parts]

theorem isPart_of_mem_parts (h : n ∈ parts p) : IsPart n := by
  obtain ⟨hn, hne, hhere⟩ := mem_parts_iff.mp h
  exact ⟨hne, hhere, not_mem_of_mem_splitOn hn⟩

theorem parts_append_slash (a b : Text) : parts (a ++ '/' :: b) = parts a ++ parts b := by
  rw [parts, splitOn_append_cons, filter_append]
  rfl

theorem parts_slash_cons (t : Text) : parts ('/' :: t) = parts t := parts_append_slash [] t

theorem parts_join (h : ∀ n ∈ ps, IsPart n) : parts (join "/".toList ps) = ps := by
  by_cases hne : ps = []
  · rw [hne]
    rfl
  · have hcut : splitOn '/' (join "/".toList ps) = ps := splitOn_join hne fun n hn => (h n hn).no_slash
    rw [parts, hcut, filter_eq_self]
    intro n hn
    have hhere : n ≠ ['.'] := (h n hn).ne_here
    simp [(h n hn).ne_nil, hhere]

theorem parts_of_isPart (h : IsPart n) : parts n = [n] := by
  have hjoin : parts (join "/".toList [n]) = [n] := parts_join (forall_mem_singleton.mpr h)
  rwa [join_singleton] at hjoin

theorem parts_ofParts (hr : IsStart r) (h : ∀ n ∈ ps, IsPart n) : parts (ofParts r ps) = ps := by
  have hjoin := parts_join h
  unfold ofParts
  split_ifs with hempty
  · obtain rfl : ps = [] := by simpa using (Bool.and_eq_true_iff.mp hempty).2
    decide
  · rcases hr with rfl | rfl | rfl
    · exact hjoin
    · exact (parts_slash_cons _).trans hjoin
    · exact (parts_slash_cons _).trans ((parts_slash_cons _).trans hjoin)

/-! ### Starts -/

theorem root_eq (p : Text) :
    root p = if (p.takeWhile (· = '/')).length = 2 then "//".toList
      else if p.takeWhile (· = '/') = [] then [] else "/".toList := by
  unfold root
  split
  · simp
  · next t hthree =>
    cases t with
    | nil => rfl
    | cons c t =>
      have hc : c ≠ '/' := fun hc => hthree t (hc ▸ rfl)
      simp [hc]
  · next t htwo hone =>
    cases t with
    | nil => rfl
    | cons c t =>
      have hc : c ≠ '/' := fun hc => hone t (hc ▸ rfl)
      simp [hc]
  · next hnone =>
    cases p with
    | nil => rfl
    | cons c t =>
      have hc : c ≠ '/' := fun hc => hnone t (hc ▸ rfl)
      simp [hc]

theorem isStart_root (p : Text) : IsStart (root p) := by
  rw [root_eq]
  split_ifs
  · exact .inr (.inr rfl)
  · exact .inl rfl
  · exact .inr (.inl rfl)

theorem root_eq_of_takeWhile {q : Text} (h : p.takeWhile (· = '/') = q.takeWhile (· = '/')) :
    root p = root q := by
  rw [root_eq, root_eq, h]

theorem isAbsolute_of_isPart (h : IsPart n) : isAbsolute n = false := by
  refine decide_eq_false fun hhead => h.no_slash ?_
  exact mem_of_head? hhead

theorem isAbsolute_join (h : ∀ n ∈ ps, IsPart n) : isAbsolute (join "/".toList ps) = false := by
  cases ps with
  | nil => rfl
  | cons n ps =>
    have hn := h n mem_cons_self
    have hhead : (join "/".toList (n :: ps)).head? = n.head? := by
      obtain ⟨c, n, rfl⟩ := exists_cons_of_ne_nil hn.ne_nil
      cases ps with
      | nil => rw [join_singleton]
      | cons m ps => rw [join_cons_cons]; rfl
    rw [isAbsolute, hhead]
    exact isAbsolute_of_isPart hn

theorem takeWhile_slash (h : isAbsolute p = false) : p.takeWhile (· = '/') = [] := by
  cases p with
  | nil => rfl
  | cons c p =>
    have hc : c ≠ '/' := by simpa [isAbsolute] using h
    simp [hc]

theorem root_ofParts (hr : IsStart r) (h : ∀ n ∈ ps, IsPart n) : root (ofParts r ps) = r := by
  have hjoin := takeWhile_slash (isAbsolute_join h)
  unfold ofParts
  split_ifs with hempty
  · obtain rfl : r = [] := by simpa using (Bool.and_eq_true_iff.mp hempty).1
    rfl
  · rw [root_eq]
    rcases hr with rfl | rfl | rfl
    · rw [nil_append, hjoin]
      rfl
    · rw [takeWhile_append_of_pos (by simp), hjoin]
      rfl
    · rw [takeWhile_append_of_pos (by simp), hjoin]
      rfl

theorem isAbsolute_ofParts (hr : IsStart r) (h : ∀ n ∈ ps, IsPart n) :
    isAbsolute (ofParts r ps) = !r.isEmpty := by
  unfold ofParts
  split_ifs with hempty
  · rw [(Bool.and_eq_true_iff.mp hempty).1]
    rfl
  · rcases hr with rfl | rfl | rfl
    · exact isAbsolute_join h
    · rfl
    · rfl

theorem isAbsolute_eq (p : Text) : isAbsolute p = !(root p).isEmpty := by
  unfold root
  split
  · rfl
  · rfl
  · rfl
  · next hnone =>
    cases p with
    | nil => rfl
    | cons c p => exact decide_eq_false fun hc => hnone p (Option.some.inj hc ▸ rfl)

/-! ### Paths below a directory -/

theorem parts_append (hb : isAbsolute b = false) (a : Text) :
    parts (append a b) = parts a ++ parts b := by
  rw [append, hb]
  simp only [Bool.false_eq_true, if_false]
  split_ifs with hend
  · rcases Bool.or_eq_true_iff.mp hend with hnil | hslash
    · obtain rfl : a = [] := by simpa using hnil
      rfl
    · obtain ⟨a, rfl⟩ := getLast?_eq_some_iff.mp (of_decide_eq_true hslash)
      rw [append_assoc, singleton_append, parts_append_slash, parts_append_slash]
      exact congrArg (· ++ parts b) (append_nil _).symm
  · exact parts_append_slash a b

theorem root_append (hb : isAbsolute b = false) (a : Text) : root (append a b) = root a := by
  refine root_eq_of_takeWhile ?_
  rw [append, hb]
  simp only [Bool.false_eq_true, if_false]
  split_ifs with hend
  · rw [takeWhile_append, takeWhile_slash hb]
    split_ifs with hall
    · rw [append_nil, (takeWhile_sublist _).eq_of_length hall]
    · rfl
  · -- the directory has a last character, which is no slash
    rw [Bool.or_eq_true_iff, not_or, decide_eq_true_iff, List.isEmpty_iff] at hend
    obtain ⟨c, hc⟩ := Option.ne_none_iff_exists'.mp (mt getLast?_eq_none_iff.mp hend.1)
    rw [takeWhile_append, if_neg]
    intro hall
    have hslashes := takeWhile_eq_self_iff.mp ((takeWhile_sublist _).eq_of_length hall)
    exact hend.2 (hc.trans (congrArg some (of_decide_eq_true (hslashes c (mem_of_getLast? hc)))))

theorem child_eq (hb : isAbsolute b = false) (a : Text) :
    child a b = ofParts (root a) (parts a ++ parts b) := by
  rw [child, tidy, parts_append hb, root_append hb]

theorem mem_child {a : Text} {c : Char} (h : c ∈ b) (hslash : c ≠ '/') (hdot : c ≠ '.') :
    c ∈ child a b := by
  obtain ⟨n, hn, hc⟩ := mem_flatten.mp ((mem_flatten_splitOn hslash).mpr h)
  have hpart : n ∈ parts b := by
    refine mem_parts_iff.mpr ⟨hn, ne_nil_of_mem hc, ?_⟩
    rintro rfl
    exact hdot (mem_singleton.mp hc)
  have hchild : n ∈ parts (child a b) := by
    rw [child, tidy, parts_ofParts (isStart_root _) fun m hm => isPart_of_mem_parts hm]
    cases habsolute : isAbsolute b with
    | true =>
      rwa [append, habsolute, if_pos rfl]
    | false =>
      rw [parts_append habsolute]
      exact mem_append_right _ hpart
  exact (mem_flatten_splitOn hslash).mp (mem_flatten.mpr ⟨n, (mem_parts_iff.mp hchild).1, hc⟩)

/-- The tidy path that leads from a directory along names. -/
def along (dir : Text) (ns : List Text) : Text := ofParts (root dir) (parts dir ++ ns)

section

variable {dir : Text}

theorem along_nil (dir : Text) : along dir [] = tidy dir := by rw [along, append_nil, tidy]

section

variable (h : ∀ n ∈ ns, IsPart n)
include h

theorem isPart_of_mem_along : ∀ n ∈ parts dir ++ ns, IsPart n := by
  intro n hn
  rcases mem_append.mp hn with hn | hn
  · exact isPart_of_mem_parts hn
  · exact h n hn

theorem parts_along : parts (along dir ns) = parts dir ++ ns :=
  parts_ofParts (isStart_root dir) (isPart_of_mem_along h)

theorem root_along : root (along dir ns) = root dir :=
  root_ofParts (isStart_root dir) (isPart_of_mem_along h)

theorem along_ne_nil : along dir ns ≠ [] := by
  intro hnil
  have hparts : parts (along dir ns) = parts dir ++ ns := parts_along h
  have hroot : root (along dir ns) = root dir := root_along h
  rw [hnil] at hparts hroot
  rw [along, ← hparts, ← hroot] at hnil
  cases hnil

end

theorem child_along (h : ∀ m ∈ ns, IsPart m) (hn : IsPart n) :
    child (along dir ns) n = along dir (ns ++ [n]) := by
  rw [child_eq (isAbsolute_of_isPart hn), root_along h, parts_along h, parts_of_isPart hn, append_assoc, along]

theorem name_along (h : ∀ m ∈ ns, IsPart m) (hn : IsPart n) : name (along dir (ns ++ [n])) = n := by
  have hall : ∀ m ∈ ns ++ [n], IsPart m := forall_mem_append.mpr ⟨h, forall_mem_singleton.mpr hn⟩
  rw [name, parts_along hall, ← append_assoc, getLast?_concat]
  rfl

theorem join_isPrefix (qs ks : List Text) : join "/".toList qs <+: join "/".toList (qs ++ ks) := by
  induction qs with
  | nil => exact nil_prefix
  | cons n qs ih =>
    cases qs with
    | nil =>
      cases ks with
      | nil => exact prefix_rfl
      | cons k ks =>
        rw [join_singleton, singleton_append, join_cons_cons, append_assoc]
        exact prefix_append _ _
    | cons m qs =>
      rw [cons_append, cons_append, join_cons_cons, join_cons_cons]
      exact (prefix_append_right_inj _).mpr ih

/-- A path goes on with the names behind it, unless it is that of the current directory, which is
left out then. -/
theorem along_isPrefix (dir : Text) (ns ks : List Text) :
    along dir ns = "." ∨ along dir ns <+: along dir (ns ++ ks) := by
  unfold along ofParts
  rw [← append_assoc]
  split_ifs with hns hks hks
  · exact .inl rfl
  · exact .inl rfl
  · rw [Bool.and_eq_true_iff, List.isEmpty_iff, List.isEmpty_iff] at hks hns
    exact absurd ⟨hks.1, (append_eq_nil_iff.mp hks.2).1⟩ hns
  · exact .inr ((prefix_append_right_inj _).mpr (join_isPrefix _ ks))

theorem join_concat (h : qs ≠ []) (n : Text) :
    join "/".toList (qs ++ [n]) = join "/".toList qs ++ '/' :: n := by
  induction qs with
  | nil => exact absurd rfl h
  | cons m qs ih =>
    cases qs with
    | nil => rw [singleton_append, join_cons_cons, join_singleton, join_singleton, append_assoc]; rfl
    | cons k qs =>
      rw [cons_append, cons_append, join_cons_cons, join_cons_cons, append_assoc, append_assoc]
      have hrest := ih (cons_ne_nil k qs)
      rw [cons_append] at hrest
      rw [hrest]
      simp

theorem exists_getLast?_join (hne : qs ≠ []) (h : ∀ n ∈ qs, IsPart n) :
    ∃ c, (join "/".toList qs).getLast? = some c ∧ c ≠ '/' := by
  obtain ⟨ps, n, rfl⟩ := (eq_nil_or_concat qs).resolve_left hne
  rw [concat_eq_append] at h ⊢
  have hn := h n (by simp)
  obtain ⟨c, hc⟩ := Option.ne_none_iff_exists'.mp (mt getLast?_eq_none_iff.mp hn.ne_nil)
  refine ⟨c, ?_, fun hslash => hn.no_slash (hslash ▸ mem_of_getLast? hc)⟩
  by_cases hps : ps = []
  · rw [hps, nil_append, join_singleton, hc]
  · rw [join_concat hps, getLast?_append, getLast?_cons, hc]
    rfl

/-- A name is added to a path as it is, unless the path is that of the current directory. -/
theorem append_along (h : ∀ m ∈ ns, IsPart m) (hn : IsPart n) :
    append (along dir ns) n = along dir (ns ++ [n]) ∨
      along dir ns = "." ∧ along dir (ns ++ [n]) = n := by
  have hparts : ∀ m ∈ parts dir ++ ns, IsPart m := isPart_of_mem_along h
  unfold along
  rw [← append_assoc]
  generalize parts dir ++ ns = qs at hparts
  by_cases hqs : qs = []
  · subst hqs
    rcases isStart_root dir with hr | hr | hr <;> rw [hr]
    · refine .inr ⟨rfl, ?_⟩
      exact join_singleton "/".toList n
    all_goals
      refine .inl ?_
      rw [append, isAbsolute_of_isPart hn, nil_append]
      exact congrArg (_ ++ ·) (join_singleton "/".toList n).symm
  · obtain ⟨c, hc, hslash⟩ := exists_getLast?_join hqs hparts
    have hlast : (root dir ++ join "/".toList qs).getLast? = some c := by
      rw [getLast?_append, hc]
      rfl
    have hne : root dir ++ join "/".toList qs ≠ [] := by
      intro hnil
      rw [hnil] at hlast
      cases hlast
    have hfull : ∀ ps : List Text, ps ≠ [] → ofParts (root dir) ps = root dir ++ join "/".toList ps := fun ps hps => by
      rw [ofParts, isEmpty_eq_false_iff.mpr hps, Bool.and_false]
      rfl
    rw [hfull qs hqs, hfull (qs ++ [n]) (by simp), join_concat hqs, append, isAbsolute_of_isPart hn,
      isEmpty_eq_false_iff.mpr hne, hlast]
    simp [hslash]

end

/-! ### Names and their suffixes -/

theorem cutSuffix_append {s e : Text} (hs : s ≠ []) (he : e ≠ []) (hdot : '.' ∉ e) :
    cutSuffix (s ++ '.' :: e) = (s, '.' :: e) := by
  have hcut : splitLast? '.' (s ++ '.' :: e) = some (s, e) := splitLast?_eq_some_iff.mpr ⟨rfl, hdot⟩
  rw [cutSuffix, hcut]
  simp [hs, he]

end Localizer.Path
