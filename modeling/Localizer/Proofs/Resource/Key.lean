import Localizer.Proofs.Resource.Interpolation
import Localizer.Proofs.Workspace
import Localizer.Resource.Tool

/-!
# Keys and the texts they stand for

Three patterns look for literals in the same text, each with its own notion of where a literal ends.
What one pattern finds stands apart from left to right (`row_findAll`), and joining neighbours keeps
it so (`row_joinSpans`). A later pattern drops what meets a literal found before. So the literals of
a text, in the order of their starts, have no character in common (`apart_literals`).
-/

namespace Localizer.Resource

open List hiding replace
open Text Option Literal

variable {t b : Text} {body? : Option Text} {n : Nat} {ss : List Span} {p : Pattern} {make : Span → Literal}
  {ls ms : List Literal}

/-! ### What a pattern finds -/

theorem prefix_of_map_append (front : Text) (h : body?.map (front ++ ·) = some b)
    (hbody : ∀ c, body? = some c → c ++ ['"'] <+: t) : b ++ ['"'] <+: front ++ t := by
  obtain ⟨c, hc, rfl⟩ := map_eq_some_iff.mp h
  rw [append_assoc]
  exact (prefix_append_right_inj front).mpr (hbody c hc)

theorem prefix_of_normalBody? (h : normalBody? t = some b) : b ++ ['"'] <+: t := by
  fun_induction normalBody? t generalizing b with
  | case1 => simp at h
  | case2 t =>
    obtain rfl : [] = b := by simpa using h
    simp
  | case3 t => simp at h
  | case4 c t hc ih => exact prefix_of_map_append ['\\', c] h fun _ => ih
  | case5 t hc => simp at h
  | case6 c t _ _ hc ih => exact prefix_of_map_append [c] h fun _ => ih

theorem prefix_of_interpolatedBody? {inner : Bool} (h : interpolatedBody? inner t = some b) :
    b ++ ['"'] <+: t := by
  fun_induction interpolatedBody? inner t generalizing b with
  | case1 => simp at h
  | case2 c t ih => exact prefix_of_map_append [c] h fun _ => ih
  | case3 t =>
    obtain rfl : [] = b := by simpa using h
    simp
  | case4 t => simp at h
  | case5 c t hc ih => exact prefix_of_map_append ['\\', c] h fun _ => ih
  | case6 c t _ _ hc => simp at h
  | case7 c t _ _ hc ih => exact prefix_of_map_append [c] h fun _ => ih

theorem prefix_of_verbatimBody? (h : verbatimBody? t = some b) : b ++ ['"'] <+: t := by
  fun_induction verbatimBody? t generalizing b with
  | case1 => simp at h
  | case2 t ih =>
    -- without an end behind it, the first of the two quotes is the end
    cases hbody : verbatimBody? t with
    | none =>
      obtain rfl : [] = b := by simpa [hbody] using h
      simp
    | some c =>
      obtain rfl : '"' :: '"' :: c = b := by simpa [hbody] using h
      simpa using ih hbody
  | case3 t _ =>
    obtain rfl : [] = b := by simpa using h
    simp
  | case4 c t _ hc ih => exact prefix_of_map_append [c] h fun _ => ih

/-- What a pattern finds at the start of a text is there: a mark, and a content in quotes. -/
def Pattern.Reads (p : Pattern) : Prop :=
  ∀ before t mark content, p before t = some (mark, content) → mark ++ inQuotes content <+: t

theorem prefix_of_map_mark {mark content : Text} (front : Text)
    (h : body?.map (fun b => (front, b)) = some (mark, content))
    (hbody : ∀ c, body? = some c → c ++ ['"'] <+: t) :
    mark ++ inQuotes content <+: front ++ '"' :: t := by
  obtain ⟨c, hc, heq⟩ := map_eq_some_iff.mp h
  obtain ⟨rfl, rfl⟩ := Prod.mk.inj heq
  have hcontent : front ++ '"' :: (c ++ ['"']) <+: front ++ '"' :: t :=
    (prefix_append_right_inj front).mpr (cons_prefix_cons.mpr ⟨rfl, hbody c hc⟩)
  exact hcontent

theorem reads_interpolatedPattern : interpolatedPattern.Reads := by
  intro before t mark content h
  unfold interpolatedPattern at h
  split at h
  · split at h
    · simp at h
    · exact prefix_of_map_mark ['$'] h fun _ => prefix_of_interpolatedBody?
  · simp at h

theorem reads_normalPattern : normalPattern.Reads := by
  intro before t mark content h
  unfold normalPattern at h
  split at h
  · exact prefix_of_map_mark [] h fun _ => prefix_of_normalBody?
  · simp at h

theorem reads_verbatimPattern : verbatimPattern.Reads := by
  intro before t mark content h
  unfold verbatimPattern at h
  split at h
  · exact prefix_of_map_mark ['$', '@'] h fun _ => prefix_of_verbatimBody?
  · exact prefix_of_map_mark ['@', '$'] h fun _ => prefix_of_verbatimBody?
  · exact prefix_of_map_mark ['@'] h fun _ => prefix_of_verbatimBody?
  · simp at h

/-! ### Spans in a row -/

/-- Spans of a text of `n` characters that stand apart from left to right, none of them empty. -/
structure Row (n : Nat) (ss : List Span) : Prop where
  apart : ss.Pairwise fun a b => a.stop ≤ b.start
  within : ∀ s ∈ ss, s.start < s.stop ∧ s.stop ≤ n

theorem row_cons_iff {s : Span} :
    Row n (s :: ss) ↔ s.start < s.stop ∧ s.stop ≤ n ∧ (∀ r ∈ ss, s.stop ≤ r.start) ∧ Row n ss := by
  constructor
  · rintro ⟨hapart, hwithin⟩
    obtain ⟨hs, hrow⟩ := pairwise_cons.mp hapart
    obtain ⟨hlt, hle⟩ := hwithin s mem_cons_self
    exact ⟨hlt, hle, hs, hrow, fun r hr => hwithin r (mem_cons_of_mem s hr)⟩
  · rintro ⟨hlt, hle, hs, hrow⟩
    exact ⟨pairwise_cons.mpr ⟨hs, hrow.apart⟩, forall_mem_cons.mpr ⟨⟨hlt, hle⟩, hrow.within⟩⟩

theorem row_findFrom (hp : p.Reads) (t : Text) (skip : Nat) (before : Option Char) (pos : Nat) :
    Row (pos + t.length) (findFrom p skip before pos t) ∧
      ∀ s ∈ findFrom p skip before pos t, pos + skip ≤ s.start := by
  induction t generalizing skip before pos with
  | nil =>
    simp only [findFrom]
    exact ⟨⟨.nil, by simp⟩, by simp⟩
  | cons c t ih =>
    have hlen : pos + (c :: t).length = pos + 1 + t.length := by
      simp only [length_cons]
      omega
    rw [hlen]
    cases skip with
    | succ skip =>
      obtain ⟨hrow, hstart⟩ := ih skip (some c) (pos + 1)
      refine ⟨hrow, fun s hs => ?_⟩
      have := hstart s hs
      omega
    | zero =>
      rw [findFrom]
      split
      · next mark content h =>
        obtain ⟨hrow, hstart⟩ := ih (mark.length + content.length + 2 - 1) (some c) (pos + 1)
        have hsize := (hp before (c :: t) mark content h).length_le
        simp only [inQuotes, length_append, length_cons, length_nil] at hsize
        refine ⟨row_cons_iff.mpr ⟨?_, ?_, fun r hr => ?_, hrow⟩, forall_mem_cons.mpr ⟨?_, fun r hr => ?_⟩⟩
        · dsimp only
          omega
        · dsimp only
          omega
        · have := hstart r hr
          dsimp only
          omega
        · dsimp only
          omega
        · have := hstart r hr
          omega
      · obtain ⟨hrow, hstart⟩ := ih 0 (some c) (pos + 1)
        refine ⟨hrow, fun s hs => ?_⟩
        have := hstart s hs
        omega

theorem row_findAll (hp : p.Reads) (t : Text) : Row t.length (findAll p t) := by
  have hrow := (row_findFrom hp t 0 none 0).1
  rwa [Nat.zero_add] at hrow

theorem row_joinSpans (t : Text) (h : Row n ss) :
    Row n (joinSpans t ss) ∧ ∀ pos, (∀ s ∈ ss, pos ≤ s.start) →
      ∀ r ∈ joinSpans t ss, pos ≤ r.start := by
  induction ss with
  | nil => exact ⟨h, fun _ hpos => hpos⟩
  | cons s ss ih =>
    obtain ⟨hlt, hle, hs, hss⟩ := row_cons_iff.mp h
    obtain ⟨hrow, hstart⟩ := ih hss
    have hafter := hstart s.stop hs
    rw [joinSpans]
    split
    · exact ⟨row_cons_iff.mpr ⟨hlt, hle, by simp, ⟨.nil, by simp⟩⟩, fun pos hpos => by simpa using hpos s mem_cons_self⟩
    · next r rs heq =>
      rw [heq] at hrow hafter
      obtain ⟨hrlt, hrle, hr, hrs⟩ := row_cons_iff.mp hrow
      have hsr := hafter r mem_cons_self
      split
      · refine ⟨row_cons_iff.mpr ⟨?_, hrle, hr, hrs⟩, fun pos hpos => forall_mem_cons.mpr ⟨?_, fun q hq => ?_⟩⟩
        · dsimp only
          omega
        · exact hpos s mem_cons_self
        · have := hpos s mem_cons_self
          have := hr q hq
          omega
      · refine ⟨row_cons_iff.mpr ⟨hlt, hle, hafter, hrow⟩, fun pos hpos => forall_mem_cons.mpr ⟨?_, fun q hq => ?_⟩⟩
        · exact hpos s mem_cons_self
        · have := hpos s mem_cons_self
          have := hafter q hq
          omega

/-! ### Literals -/

def Literal.Apart (a b : Literal) : Prop := a.stop ≤ b.start ∨ b.stop ≤ a.start

theorem Literal.Apart.symm {a b : Literal} (h : a.Apart b) : b.Apart a := Or.symm h

/-- A literal stands in a text: it is the stretch that it says, and is not empty. -/
structure Literal.StandsIn (t : Text) (l : Literal) : Prop where
  nonempty : l.start < l.stop
  within : l.stop ≤ t.length
  source : l.source = slice t l.start l.stop

/-- Literals of a text that have no character in common. -/
structure Found (t : Text) (ls : List Literal) : Prop where
  apart : ls.Pairwise Literal.Apart
  stands : ∀ l ∈ ls, l.StandsIn t

def Covers (t : Text) (make : Span → Literal) : Prop :=
  ∀ s, (make s).start = s.start ∧ (make s).stop = s.stop ∧ (make s).source = slice t s.start s.stop

section

theorem covers_interpolated : Covers t (interpolated t) := fun _ => ⟨rfl, rfl, rfl⟩

theorem covers_normal : Covers t (normal t) := fun _ => ⟨rfl, rfl, rfl⟩

theorem covers_verbatim : Covers t (verbatim t) := fun _ => ⟨rfl, rfl, rfl⟩

theorem Row.found (h : Row t.length ss) (keep : Span → Bool)
    (hmake : Covers t make) : Found t ((ss.filter keep).map make) := by
  constructor
  · rw [pairwise_map]
    refine (h.apart.filter keep).imp fun {a b} hab => .inl ?_
    rwa [(hmake a).2.1, (hmake b).1]
  · intro l hl
    obtain ⟨s, hs, rfl⟩ := mem_map.mp hl
    obtain ⟨hlt, hle⟩ := h.within s (mem_of_mem_filter hs)
    obtain ⟨hstart, hstop, hsource⟩ := hmake s
    exact ⟨by rwa [hstart, hstop], by rwa [hstop], by rw [hsource, hstart, hstop]⟩

theorem Found.append (hl : Found t ls) (hm : Found t ms)
    (h : ∀ l ∈ ls, ∀ m ∈ ms, l.Apart m) : Found t (ls ++ ms) := by
  refine ⟨pairwise_append.mpr ⟨hl.apart, hm.apart, h⟩, fun l hmem => ?_⟩
  rcases mem_append.mp hmem with hmem | hmem
  · exact hl.stands l hmem
  · exact hm.stands l hmem

theorem Found.perm (hl : Found t ls) (h : ls.Perm ms) : Found t ms :=
  ⟨(h.pairwise_iff Literal.Apart.symm).mp hl.apart, fun l hmem => hl.stands l (h.mem_iff.mpr hmem)⟩

theorem Found.append_later (hl : Found t ls) (h : Row t.length ss) (hmake : Covers t make)
    (keep : Span → Bool) (hkeep : ∀ s, keep s = true → isApart ls s = true) :
    Found t (ls ++ (ss.filter keep).map make) := by
  refine hl.append (h.found keep hmake) fun l hmem m hm => ?_
  obtain ⟨s, hs, rfl⟩ := mem_map.mp hm
  have hapart := all_eq_true.mp (hkeep s (mem_filter.mp hs).2) l hmem
  obtain ⟨hstart, hstop, -⟩ := hmake s
  rw [Literal.Apart, hstart, hstop]
  simp only [Bool.or_eq_true, decide_eq_true_eq] at hapart
  exact hapart.symm

end

theorem found_literals (t : Text) : Found t (literals t) := by
  have hfirst := (row_joinSpans t (row_findAll reads_interpolatedPattern t)).1.found
    (fun s => isChinese s.content) covers_interpolated
  have hsecond := hfirst.append_later (row_findAll reads_normalPattern t) covers_normal
    (fun s => isApart _ s && isPlain t s && isChinese s.content) fun s hs => by
      simp only [Bool.and_eq_true] at hs
      exact hs.1.1
  have hthird := hsecond.append_later (row_findAll reads_verbatimPattern t) covers_verbatim
    (fun s => isApart _ s && isChinese s.content) fun s hs => by
      simp only [Bool.and_eq_true] at hs
      exact hs.1
  exact hthird.perm (mergeSort_perm _ _).symm

theorem sorted_literals (t : Text) : (literals t).Pairwise fun a b => a.start ≤ b.start := by
  refine (pairwise_mergeSort (fun a b c hab hbc => ?_) (fun a b => ?_) _).imp of_decide_eq_true
  · simp only [decide_eq_true_eq] at hab hbc ⊢
    exact hab.trans hbc
  · simp only [Bool.or_eq_true, decide_eq_true_eq]
    exact le_total a.start b.start

/-- **Each literal ends before the next one starts.** Of two literals that have no character in
common, the one that does not start later is the first. -/
theorem apart_literals (t : Text) : (literals t).Pairwise fun a b => a.stop ≤ b.start := by
  have hfound := found_literals t
  refine ((hfound.apart.and (sorted_literals t)).imp_of_mem fun {a b} ha hb hab => ?_)
  obtain ⟨hapart, hsorted⟩ := hab
  have hnonempty := (hfound.stands b hb).nonempty
  rcases hapart with h | h
  · exact h
  · omega

/-! ## Texts with their literals replaced

Literals are replaced from the last one to the first, so that the places of those still to come do
not move. What comes of it is the text from left to right with another expression in the place of
each literal (`weave`): everything between the literals stays, and so do the verbatim ones. A key
that a text has been given stays its key, so the expressions can be read off the store that is left
in the end. -/

open Assoc

variable {s s' : Store} {l : Literal}

/-! ### Keys -/

/-- The texts that have keys in a store keep them in another one. -/
def Store.Within (s s' : Store) : Prop :=
  ∀ template key, get? template s.keys = some key → get? template s'.keys = some key

theorem Store.Within.refl (s : Store) : s.Within s := fun _ _ h => h

theorem Store.Within.trans {s'' : Store} (h : s.Within s') (h' : s'.Within s'') : s.Within s'' :=
  fun template key hkey => h' template key (h template key hkey)

section

variable (s : Store) (base template path text : Text) (l : Literal)

theorem Store.get?_key :
    get? template (s.key base template).2.keys = some (s.key base template).1 := by
  unfold Store.key
  split
  · next key h => exact h
  · next h =>
    rw [get?_append, h, none_or, get?, if_pos rfl]

theorem Store.within_key : s.Within (s.key base template).2 := by
  intro other key h
  unfold Store.key
  split
  · exact h
  · rw [get?_append, h, some_or]

theorem Store.within_remark : s.Within (s.remark path text l) := by
  intro other key h
  unfold Store.remark
  split
  · exact h
  · exact h

end

/-! ### One literal -/

theorem isSome_replacement? (h : l.kind ≠ .verbatim) (key : Text) :
    ∃ new, l.replacement? key = some new := by
  unfold replacement?
  split
  · next hkind => exact absurd hkind h
  · exact ⟨_, rfl⟩
  · exact ⟨_, rfl⟩

theorem replacement?_of_eq_nil (h : l.kind ≠ .verbatim) (hnone : l.placeholders = []) (key : Text) :
    l.replacement? key = some ("SR.Get(\"" ++ key ++ "\")") := by
  unfold replacement?
  split
  · next hkind => exact absurd hkind h
  · simp [inQuotes]
  · next hsome => exact absurd hnone hsome

theorem replacement?_of_ne_nil (h : l.kind ≠ .verbatim) (hsome : l.placeholders ≠ []) (key : Text) :
    l.replacement? key =
      some ("SR.F(\"" ++ key ++ "\", " ++ join ", " (l.placeholders.map Placeholder.argument) ++ ")") := by
  unfold replacement?
  split
  · next hkind => exact absurd hkind h
  · next hnone _ => exact absurd hnone hsome
  · simp [inQuotes]

/-- What stands for a literal in the end, given the keys of a store: verbatim literals stay as they
are. -/
def Literal.rewritten (s : Store) (l : Literal) : Text :=
  ((get? l.template s.keys).bind l.replacement?).getD l.source

theorem rewritten_of_verbatim (s : Store) (h : l.kind = .verbatim) : l.rewritten s = l.source := by
  have hnone : l.replacement? = fun _ => none := by
    unfold replacement?
    rw [h]
  rw [rewritten, hnone, bind_fun_none, getD_none]

theorem rewritten_eq {key new : Text} (hs : s.Within s') (hkey : get? l.template s.keys = some key)
    (hnew : l.replacement? key = some new) : l.rewritten s' = new := by
  rw [rewritten, hs l.template key hkey, bind_some, hnew, getD_some]

section

variable (p : Progress) (path base source : Text)

theorem replace_of_verbatim (h : l.kind = .verbatim) :
    p.replace path base source l = { p with store := p.store.remark path source l } := by
  unfold Progress.replace
  rw [if_pos h]

theorem replace_of_ne_verbatim (h : l.kind ≠ .verbatim) :
    ∃ store key new, p.replace path base source l = ⟨store, splice p.text l new, p.count + 1⟩ ∧ p.store.Within store ∧
      get? l.template store.keys = some key ∧ l.replacement? key = some new := by
  set remarked := p.store.remark path source l with hremarked
  obtain ⟨new, hnew⟩ := isSome_replacement? h (remarked.key base l.template).1
  refine ⟨(remarked.key base l.template).2, _, new, ?_, ?_, remarked.get?_key base l.template, hnew⟩
  · unfold Progress.replace
    rw [if_neg h]
    simp only [← hremarked, hnew]
  · exact (p.store.within_remark path source l).trans (remarked.within_key base l.template)

theorem within_replace : p.store.Within (p.replace path base source l).store := by
  by_cases h : l.kind = .verbatim
  · rw [replace_of_verbatim p path base source h]
    exact p.store.within_remark path source l
  · obtain ⟨store, key, new, heq, hwithin, -⟩ := replace_of_ne_verbatim p path base source h
    rwa [heq]

end

/-! ### All literals -/

/-- A text from a position on, with something else in the place of each of some literals. -/
def weave (new : Literal → Text) (t : Text) : Nat → List Literal → Text
  | pos, [] => t.drop pos
  | pos, l :: ls => slice t pos l.start ++ new l ++ weave new t l.stop ls

theorem take_append_slice (t : Text) {i j : Nat} (h : i ≤ j) :
    t.take i ++ slice t i j = t.take j := by
  rw [slice, ← Nat.min_eq_left h, ← take_take, Nat.min_eq_left h, take_append_drop]

section

variable (store : Store) (path base t : Text)

def replaced (ls : List Literal) : Progress :=
  ls.foldr (fun l p => p.replace path base t l) ⟨store, t, 0⟩

theorem replaceLiterals_eq :
    replaceLiterals store path t = replaced store path (keyBase path) t (literals t) := by
  rw [replaceLiterals, replaced, foldl_reverse]

/-- The text in front of the literals is untouched. The keys are read off any later store, since
they stay. -/
theorem text_replaced (hapart : ls.Pairwise fun a b => a.stop ≤ b.start)
    (hstands : ∀ l ∈ ls, l.StandsIn t) {pos : Nat} (hpos : ∀ l ∈ ls, pos ≤ l.start)
    (hs : (replaced store path base t ls).store.Within s) :
    (replaced store path base t ls).text = t.take pos ++ weave (·.rewritten s) t pos ls := by
  induction ls generalizing pos with
  | nil => exact (take_append_drop pos t).symm
  | cons l ls ih =>
    obtain ⟨hl, hls⟩ := pairwise_cons.mp hapart
    have hin := hstands l mem_cons_self
    have hstart := hpos l mem_cons_self
    have hsource := take_append_slice t hin.nonempty.le
    have hrest := ih hls (fun m hm => hstands m (mem_cons_of_mem l hm)) hl
      ((within_replace (replaced store path base t ls) path base t (l := l)).trans hs)
    have hlen : (t.take l.stop).length = l.stop := length_take_of_le hin.within
    change ((replaced store path base t ls).replace path base t l).text = _
    rw [weave, ← append_assoc, ← append_assoc, take_append_slice t hstart]
    by_cases hkind : l.kind = .verbatim
    · rw [replace_of_verbatim _ path base t hkind, rewritten_of_verbatim s hkind, hin.source, hsource, hrest]
    · obtain ⟨store', key, new, heq, -, hkey, hnew⟩ :=
        replace_of_ne_verbatim (replaced store path base t ls) path base t hkind
      have hs' : store'.Within s := by
        have hstep : (replaced store path base t (l :: ls)).store = store' := congrArg Progress.store heq
        rwa [hstep] at hs
      have hfront : (t.take l.stop ++ weave (·.rewritten s) t l.stop ls).take l.start = t.take l.start := by
        have hle := hin.nonempty.le
        rw [take_append_of_le_length (hlen.symm ▸ hle), take_take, Nat.min_eq_left hle]
      rw [heq, rewritten_eq hs' hkey hnew]
      simp only [splice]
      rw [hrest, drop_left' hlen, hfront]

end

theorem get?_of_mem_replaced (store : Store) (path base t : Text) (hl : l ∈ ls)
    (hkind : l.kind ≠ .verbatim) :
    ∃ key, get? l.template (replaced store path base t ls).store.keys = some key := by
  induction ls with
  | nil => simp at hl
  | cons m ls ih =>
    change ∃ key, get? l.template ((replaced store path base t ls).replace path base t m).store.keys = some key
    rcases mem_cons.mp hl with rfl | hl
    · obtain ⟨store', key, new, heq, -, hkey, -⟩ :=
        replace_of_ne_verbatim (replaced store path base t ls) path base t hkind
      exact ⟨key, heq ▸ hkey⟩
    · obtain ⟨key, hkey⟩ := ih hl
      exact ⟨key, within_replace _ path base t l.template key hkey⟩

/-- **Only the literals are rewritten.** The literals of a text stand apart in the order of their
starts, and each is the stretch of the text that it says. When they have been replaced, the text is
the old one with an expression for the key of its text in the place of each literal that is not
verbatim; every other character is where it was. -/
theorem replaceLiterals_weaves (store : Store) (path t : Text) :
    let p := replaceLiterals store path t
    ((literals t).Pairwise fun a b => a.start ≤ b.start ∧ a.stop ≤ b.start) ∧ (∀ l ∈ literals t, l.StandsIn t) ∧
      p.text = weave (·.rewritten p.store) t 0 (literals t) ∧
      ∀ l ∈ literals t, (l.kind = .verbatim → l.rewritten p.store = l.source) ∧
        (l.kind ≠ .verbatim → ∃ key, Assoc.get? l.template p.store.keys = some key ∧
          l.replacement? key = some (l.rewritten p.store)) := by
  intro p
  have hstands := (found_literals t).stands
  have hp : p = replaced store path (keyBase path) t (literals t) := replaceLiterals_eq store path t
  refine ⟨(sorted_literals t).and (apart_literals t), hstands, ?_, fun l hl => ⟨fun hkind => ?_, fun hkind => ?_⟩⟩
  · have htext := text_replaced store path (keyBase path) t (apart_literals t) hstands (fun l _ => Nat.zero_le l.start)
      (hp ▸ Store.Within.refl p.store)
    rwa [← hp, List.take_zero, List.nil_append] at htext
  · exact rewritten_of_verbatim p.store hkind
  · obtain ⟨key, hkey⟩ := get?_of_mem_replaced store path (keyBase path) t hl hkind
    obtain ⟨new, hnew⟩ := isSome_replacement? hkind key
    rw [← hp] at hkey
    exact ⟨key, hkey, by rw [rewritten_eq (Store.Within.refl p.store) hkey hnew, hnew]⟩

/-! ## Keys and the texts they stand for

A key is made from the name of a file and a number. The number is counted for each name, also over
files that share it, and has no underscore in it, so a key says from which name and number it was
made (`numberedKey_inj`), even if the name ends in a number itself. Hence a new key is not in use,
and the dictionaries of a store stay inverse to each other (`Store.Inverse`).

The work is followed step by step (`Store.Step`): a literal is replaced, or a file that was changed
is counted. What the tool does to a file, to a directory and to all directories is some of these
steps (`leads_visitAll`). -/

open Encoding Job Assoc

variable {path : Text}

/-! ### Keys and their numbers -/

def numberedKey (base : Text) (n : Nat) : Text := base ++ "_" ++ decimal n

theorem underscore_not_mem_decimal (n : Nat) : '_' ∉ decimal n := by
  have hdigit : ∀ d < 10, Nat.digitChar d ≠ '_' := by decide
  intro h
  obtain ⟨d, hd, hc⟩ := mem_toDigits (by decide) h
  exact hdigit d hd hc.symm

theorem splitLast?_numberedKey (base : Text) (n : Nat) :
    splitLast? '_' (numberedKey base n) = some (base, decimal n) := by
  have hreverse : (numberedKey base n).reverse = (decimal n).reverse ++ '_' :: base.reverse := by
    simp [numberedKey]
  rw [splitLast?, hreverse, splitOnce?_append_sep fun h => underscore_not_mem_decimal n (mem_reverse.mp h)]
  simp

theorem numberedKey_inj {base base' : Text} {n n' : Nat}
    (h : numberedKey base n = numberedKey base' n') : base = base' ∧ n = n' := by
  have hparts := (splitLast?_numberedKey base n).symm.trans (h ▸ splitLast?_numberedKey base' n')
  obtain ⟨hbase, hnumber⟩ := Prod.mk.inj (Option.some.inj hparts)
  exact ⟨hbase, Option.some.inj ((digits?_decimal n).symm.trans (hnumber ▸ digits?_decimal n'))⟩

/-! ### Stores -/

/-- A store whose two dictionaries are inverse to each other. No key has been set twice, and neither
has a text. -/
structure Store.Inverse (s : Store) : Prop where
  nodup_values : (s.values.map Prod.fst).Nodup
  nodup_keys : (s.keys.map Prod.fst).Nodup
  get?_iff : ∀ template key, get? template s.keys = some key ↔ get? key s.values = some template

/-- What is kept of a store: each key is set together with its text, and its number has been
counted. -/
structure Store.Numbered (s : Store) : Prop where
  swap : s.keys = s.values.map Prod.swap
  nodup_values : (s.values.map Prod.fst).Nodup
  nodup_templates : (s.values.map Prod.snd).Nodup
  counted : ∀ key ∈ s.values.map Prod.fst, ∃ base n, key = numberedKey base n ∧ n ≤ (get? base s.counts).getD 0

theorem Store.numbered_empty : ({} : Store).Numbered where
  swap := rfl
  nodup_values := nodup_nil
  nodup_templates := nodup_nil
  counted := nofun

theorem Store.Numbered.map_keys (h : s.Numbered) : s.keys.map Prod.fst = s.values.map Prod.snd := by
  rw [h.swap, List.map_map]
  rfl

theorem Store.Numbered.inverse (h : s.Numbered) : s.Inverse := by
  have hkeys : (s.keys.map Prod.fst).Nodup := h.map_keys ▸ h.nodup_templates
  refine ⟨h.nodup_values, hkeys, fun template key => ?_⟩
  rw [get?_eq_some_iff h.nodup_values, get?_eq_some_iff hkeys, h.swap]
  exact mem_map_of_injective Prod.swap_injective (a := (key, template))

theorem Store.Numbered.fresh (h : s.Numbered) (base : Text) :
    numberedKey base ((get? base s.counts).getD 0 + 1) ∉ s.values.map Prod.fst := by
  intro hmem
  obtain ⟨base', n, hkey, hn⟩ := h.counted _ hmem
  obtain ⟨rfl, rfl⟩ := numberedKey_inj hkey
  omega

theorem nodup_map_concat {α β : Type} {f : α → β} {l : List α} {a : α} (hl : (l.map f).Nodup)
    (ha : f a ∉ l.map f) : ((l ++ [a]).map f).Nodup := by
  rw [map_append, nodup_append]
  simp_all

theorem Store.Numbered.key (h : s.Numbered) (base template : Text) :
    (s.key base template).2.Numbered := by
  unfold Store.key
  split
  · exact h
  · next hnone =>
    rw [get?_eq_none_iff, h.map_keys] at hnone
    refine ⟨?_, nodup_map_concat h.nodup_values (h.fresh base), nodup_map_concat h.nodup_templates hnone, ?_⟩
    · simp [h.swap]
    · intro key hkey
      rw [map_append, mem_append] at hkey
      rcases hkey with hkey | hkey
      · obtain ⟨base', n, rfl, hn⟩ := h.counted key hkey
        refine ⟨base', n, rfl, hn.trans ?_⟩
        simp only [get?_insert]
        split
        · next hbase => simp [hbase]
        · exact le_rfl
      · refine ⟨base, _, mem_singleton.mp hkey, ?_⟩
        simp [get?_insert]

theorem Store.Numbered.remark (h : s.Numbered) (path text : Text) (l : Literal) :
    (s.remark path text l).Numbered := by
  unfold Store.remark
  split
  · exact h
  · exact ⟨h.swap, h.nodup_values, h.nodup_templates, h.counted⟩

theorem Store.Numbered.replace {p : Progress} (h : p.store.Numbered) (path base source : Text)
    (l : Literal) : (p.replace path base source l).store.Numbered := by
  have hremark := h.remark path source l
  unfold Progress.replace
  split
  · exact hremark
  · dsimp only
    split
    · exact hremark.key base l.template
    · exact hremark.key base l.template

/-! ### Steps -/

/-- One step of the work on sources: a literal is replaced, or a file that was changed is counted.
-/
inductive Store.Step : Store → Store → Prop
  | replace (p : Progress) (path source : Text) (l : Literal) :
      Step p.store (p.replace path (keyBase path) source l).store
  | count (s : Store) (n : Nat) : Step s { s with files := s.files + 1, replaced := s.replaced + n }

/-- Some steps lead from one store to another. -/
def Store.Leads : Store → Store → Prop := Relation.ReflTransGen Store.Step

theorem Store.Leads.refl (s : Store) : s.Leads s := Relation.ReflTransGen.refl

theorem Store.Leads.trans {s'' : Store} (h : s.Leads s') (h' : s'.Leads s'') : s.Leads s'' :=
  Relation.ReflTransGen.trans h h'

theorem Store.Numbered.step (h : s.Numbered) (hstep : s.Step s') : s'.Numbered := by
  cases hstep with
  | replace p path source l => exact h.replace path (keyBase path) source l
  | count s n => exact ⟨h.swap, h.nodup_values, h.nodup_templates, h.counted⟩

theorem Store.Numbered.leads (h : s.Numbered) (hsteps : s.Leads s') : s'.Numbered := by
  induction hsteps with
  | refl => exact h
  | tail _ hstep ih => exact ih.step hstep

theorem Store.Leads.within (h : s.Leads s') : s.Within s' := by
  induction h with
  | refl => exact Store.Within.refl s
  | tail _ hstep ih =>
    refine ih.trans ?_
    cases hstep with
    | replace p path source l => exact within_replace p path (keyBase path) source
    | count s n => exact fun _ _ h => h

/-! ### Runs -/

theorem leads_replaced (s : Store) (path source : Text) (ls : List Literal) :
    s.Leads (replaced s path (keyBase path) source ls).store := by
  induction ls with
  | nil => exact Store.Leads.refl s
  | cons l ls ih => exact ih.tail (.replace _ path source l)

section

variable {input output : Text} {ws ws' : Workspace}

theorem leads_moveFile (h : Yields (moveFile input output path s) ws s' ws') : s.Leads s' := by
  obtain ⟨source, ws₁, -, h⟩ := yields_bind.mp h
  have hreplaced : s.Leads (replaceLiterals s path source).store := by
    rw [replaceLiterals_eq]
    exact leads_replaced s path source (literals source)
  dsimp only at h
  split at h
  · obtain ⟨rfl, -⟩ := yields_pure.mp h
    exact hreplaced
  · obtain ⟨_, _, -, h⟩ := yields_bind.mp h
    obtain ⟨_, _, -, h⟩ := yields_bind.mp h
    obtain ⟨_, _, -, h⟩ := yields_bind.mp h
    obtain ⟨rfl, -⟩ := yields_pure.mp h
    exact hreplaced.tail (.count _ _)

theorem leads_moveFiles {dir : Text} {names : List Text}
    (h : Yields (moveFiles input output dir names s) ws s' ws') : s.Leads s' := by
  induction names generalizing s ws with
  | nil =>
    obtain ⟨rfl, -⟩ := yields_pure.mp h
    exact Store.Leads.refl s
  | cons n names ih =>
    rw [moveFiles] at h
    split at h
    · obtain ⟨s₁, ws₁, hfile, h⟩ := yields_bind.mp h
      exact (leads_moveFile hfile).trans (ih h)
    · exact ih h

/-- **All that is done to the sources below some directories is replacing literals and counting
files.** -/
theorem leads_visitAll {fuel : Nat} {dirs : List Text}
    (h : Yields (visitAll (moveFiles input output) fuel dirs s) ws s' ws') : s.Leads s' := by
  induction fuel generalizing dirs s ws with
  | zero =>
    obtain ⟨rfl, -⟩ := yields_pure.mp h
    exact Store.Leads.refl s
  | succ fuel ih =>
    cases dirs with
    | nil =>
      obtain ⟨rfl, -⟩ := yields_pure.mp h
      exact Store.Leads.refl s
    | cons dir dirs =>
      obtain ⟨_, _, -, h⟩ := yields_bind.mp h
      obtain ⟨s₁, _, hfiles, h⟩ := yields_bind.mp h
      exact (leads_moveFiles hfiles).trans (ih h)

end

/-- **Keys and texts stay inverse to each other.** Take any point of a run: some directories have
been visited, then some files of another one have been moved, and of the next file the literals
`done`, from the last one of the file to some literal, have been replaced. At this point and at
every later one each key has one text and each text one key. A key that has a text keeps it. The
literals that were replaced have become calls that look their texts up: of `SR.Get` with the key of
the text in quotes, or of `SR.F` with the key and the values of the placeholders, if there are any.
-/
theorem keys_stay_inverse (input output : Text) {fuel : Nat} {dirs names : List Text} {dir : Text}
    {ws ws₁ ws₂ : Workspace} {s₁ s₂ : Store}
    (hdirs : Job.Yields (Job.visitAll (moveFiles input output) fuel dirs {}) ws s₁ ws₁)
    (hfiles : Job.Yields (moveFiles input output dir names s₁) ws₁ s₂ ws₂) (path : Text)
    {source : Text} {done : List Literal} (hdone : done <:+ literals source) {s : Store}
    (hlater : (replaced s₂ path (keyBase path) source done).store.Leads s) :
    let p := replaced s₂ path (keyBase path) source done
    s.Inverse ∧
      (∀ key template, Assoc.get? key p.store.values = some template → Assoc.get? key s.values = some template) ∧
      p.text = weave (·.rewritten s) source 0 done ∧
      ∀ l ∈ done, l.kind ≠ .verbatim → ∃ key, Assoc.get? key s.values = some l.template ∧
        (l.placeholders = [] → l.rewritten s = "SR.Get(\"" ++ key ++ "\")") ∧
        (l.placeholders ≠ [] → l.rewritten s =
          "SR.F(\"" ++ key ++ "\", " ++ join ", " (l.placeholders.map Placeholder.argument) ++ ")") := by
  intro p
  have hstart : Store.Leads {} p.store :=
    (leads_visitAll hdirs).trans ((leads_moveFiles hfiles).trans (leads_replaced s₂ path source done))
  have hp : p.store.Inverse := (Store.numbered_empty.leads hstart).inverse
  have hs : s.Inverse := (Store.numbered_empty.leads (hstart.trans hlater)).inverse
  have hwithin : p.store.Within s := hlater.within
  refine ⟨hs, ?_, ?_, ?_⟩
  · intro key template h
    exact (hs.get?_iff template key).mp (hwithin template key ((hp.get?_iff template key).mpr h))
  · have hstands := (found_literals source).stands
    have htext := text_replaced s₂ path (keyBase path) source ((apart_literals source).sublist hdone.sublist)
      (fun l hl => hstands l (hdone.subset hl)) (fun l _ => Nat.zero_le l.start) hwithin
    rwa [List.take_zero, List.nil_append] at htext
  · intro l hl hkind
    obtain ⟨key, hkey⟩ := get?_of_mem_replaced s₂ path (keyBase path) source hl hkind
    refine ⟨key, (hs.get?_iff l.template key).mp (hwithin l.template key hkey), fun hnone => ?_, fun hsome => ?_⟩
    · exact rewritten_eq hwithin hkey (replacement?_of_eq_nil hkind hnone key)
    · exact rewritten_eq hwithin hkey (replacement?_of_ne_nil hkind hsome key)

/-! ### Two files of one name -/

theorem isSource_append (s : Text) : endsWith (lower (s ++ ".cs")) ".cs" = true :=
  have hbasic : ∀ c ∈ ['.', 'c', 's'], c.toNat < 0x41 ∨ 0x5A < c.toNat ∧ c.toNat < 0x80 := by simp
  isSuffixOf_iff_suffix.mpr (suffix_lower_append fun c hc => staysLow_of_basic (hbasic c hc))

theorem keyBase_form (h : (Path.splitExtension (Path.base path)).1 = ['F']) : keyBase path = "F" := by
  unfold keyBase identifierOf
  have hword : ∀ c ∈ ['F'], isWordChar c = true := forall_mem_singleton.mpr (isWordChar_of_basic (.inl (by decide)))
  rw [h, wordRuns_eq_singleton (cons_ne_nil _ _) hword]
  rfl

def quotedSource (c : Char) : Text := ['"', c, '"']

def quotedLiteral (c : Char) : Literal := ⟨0, 3, quotedSource c, [c], .normal, [], []⟩

theorem literals_quotedSource {c : Char} (hfirst : findAll interpolatedPattern (quotedSource c) = [])
    (hsecond : findAll normalPattern (quotedSource c) = [⟨0, 3, [], [c]⟩])
    (hthird : findAll verbatimPattern (quotedSource c) = []) (hc : isChineseChar c = true) :
    literals (quotedSource c) = [quotedLiteral c] := by
  unfold literals
  rw [hfirst, hsecond, hthird]
  have hchinese : isChinese [c] = true := by simp [isChinese, hc]
  have hnormal : Literal.normal (quotedSource c) ⟨0, 3, [], [c]⟩ = quotedLiteral c := rfl
  simp [joinSpans, isApart, isPlain, hchinese, hnormal]

/-- Two directories with a source of the same name in each. -/
def twoForms : Workspace where
  cwd := "/w"
  files := [(["w", "a", "F.cs"], { data := Utf8.encode (quotedSource '中') }),
    (["w", "b", "F.cs"], { data := Utf8.encode (quotedSource '国') })]
  dirs := [["w", "a"], ["w", "b"], ["w", "out"]]

def firstForm : Store where
  values := [("F_1", "中")]
  keys := [("中", "F_1")]
  counts := [("F", 1)]
  files := 1
  replaced := 1

theorem names_twoForms : twoForms.names "/w/a" = ["F.cs"] := mergeSort_singleton _

theorem moveFile_twoForms :
    ∃ ws, Yields (moveFile "/w" "/w/out" "/w/a/F.cs" {}) twoForms firstForm ws := by
  have hread : Yields (readUtf8Lossy "/w/a/F.cs") twoForms (quotedSource '中') twoForms := by
    have hbytes : Yields (readBytes "/w/a/F.cs") twoForms (Utf8.encode (quotedSource '中')) twoForms :=
      yields_readBytes.mpr ⟨_, rfl, rfl, rfl⟩
    exact hbytes.bind (.pure (by decide))
  have hbase : keyBase "/w/a/F.cs" = "F" := keyBase_form (by decide)
  have hliterals : literals (quotedSource '中') = [quotedLiteral '中'] :=
    literals_quotedSource (by decide) (by decide) (by decide) rfl
  unfold moveFile replaceLiterals
  simp only [hread.bind_iff, hbase, hliterals]
  exact ⟨_, rfl⟩

theorem visitAll_twoForms :
    ∃ ws, Yields (visitAll (moveFiles "/w" "/w/out") 1 ["/w/a"] {}) twoForms firstForm ws := by
  obtain ⟨ws, hfile⟩ := moveFile_twoForms
  refine ⟨ws, ?_⟩
  refine .bind .get ?_
  rw [names_twoForms]
  refine .bind ?_ (.pure rfl)
  change Yields (moveFiles "/w" "/w/out" "/w/a" ["F.cs"] {}) twoForms firstForm ws
  have hsource : endsWith (lower "F.cs") ".cs" = true := isSource_append ['F']
  rw [moveFiles, if_pos hsource]
  exact .bind hfile (.pure rfl)

/-- The second source has the base of the first, and its text gets the second key, by which it is
looked up. -/
theorem keys_stay_inverse_twoForms :
    (∃ ws, Job.Yields (Job.visitAll (moveFiles "/w" "/w/out") 1 ["/w/a"] {}) twoForms firstForm ws) ∧
      let p := replaced firstForm "/w/b/F.cs" (keyBase "/w/b/F.cs") (quotedSource '国') (literals (quotedSource '国'))
      p.store.values = [(("F_1" : Text), ("中" : Text)), (("F_2" : Text), ("国" : Text))] ∧ p.store.Inverse ∧
        p.text = weave (·.rewritten p.store) (quotedSource '国') 0 (literals (quotedSource '国')) ∧
        p.text = "SR.Get(\"F_2\")" ∧ (quotedLiteral '国').rewritten p.store = "SR.Get(\"F_2\")" := by
  obtain ⟨ws, hrun⟩ := visitAll_twoForms
  have hfiles : Job.Yields (moveFiles "/w" "/w/out" "/w/b" [] firstForm) ws firstForm ws :=
    .pure rfl
  obtain ⟨hinverse, -, htext, hcalls⟩ := keys_stay_inverse "/w" "/w/out" hrun hfiles "/w/b/F.cs"
    (List.suffix_refl (literals (quotedSource '国'))) (Store.Leads.refl _)
  have hbase : keyBase "/w/b/F.cs" = "F" := keyBase_form (by decide)
  rw [literals_quotedSource (by decide) (by decide) (by decide) rfl, hbase] at hinverse htext hcalls ⊢
  obtain ⟨key, hkey, hcall, -⟩ := hcalls (quotedLiteral '国') List.mem_cons_self (by decide)
  obtain rfl : key = "F_2" := Option.some.inj (((hinverse.get?_iff _ _).mpr hkey).symm.trans rfl)
  exact ⟨⟨ws, hrun⟩, rfl, hinverse, htext, rfl, hcall rfl⟩

end Localizer.Resource
