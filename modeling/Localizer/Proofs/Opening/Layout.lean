import Localizer.Opening.Injection
import Localizer.Proofs.Fault
import Localizer.Proofs.Word

/-!
# Commands with arguments changed, and texts laid behind them

The commands of an opening follow one another by their sizes, up to the command that ends the last
part. If the headers of the commands before that one are kept, then the same commands are read, each
with the argument that now stands behind its header (`commandsFrom_of_kept`). Of the last command
only the opcode must be kept: whether it is read or not, nothing follows it.
-/

namespace Localizer.Opening

open List Nat

variable {bs : Bytes} {c : Command}
variable {parts pos p : Nat} {data : Bytes}

/-! ### One command -/

/-- The number in the four bytes behind the header of a command of a given size. -/
def argumentAt (bs : Bytes) (size : Nat) : Nat := if size < 8 then 0 else Word.u32At bs 4

theorem of_command? (h : command? bs = some c) :
    ∃ op size lo hi rest, bs = op :: size :: lo :: hi :: rest ∧ 4 ≤ size.toNat ∧ size.toNat % 4 = 0 ∧
      size.toNat ≤ bs.length ∧ c = ⟨op.toNat, size.toNat, Word.value [lo, hi], argumentAt bs size.toNat⟩ := by
  unfold command? at h
  split at h
  · next op size lo hi rest =>
    split at h
    · cases h
    · next hsize =>
      simp only [Bool.or_eq_true, decide_eq_true_eq, not_or, not_lt, ne_eq, not_not] at hsize
      refine ⟨op, size, lo, hi, rest, rfl, hsize.1.1, hsize.1.2, ?_, (Option.some.inj h).symm⟩
      simpa using hsize.2
  · cases h

theorem command?_eq {op size lo hi : UInt8} {rest : Bytes} (hmin : 4 ≤ size.toNat) (hfour : size.toNat % 4 = 0)
    (hlen : size.toNat ≤ (op :: size :: lo :: hi :: rest).length) :
    command? (op :: size :: lo :: hi :: rest) =
      some ⟨op.toNat, size.toNat, Word.value [lo, hi], argumentAt (op :: size :: lo :: hi :: rest) size.toNat⟩ := by
  have hbad : ¬ ((decide (size.toNat < 4) || decide (size.toNat % 4 ≠ 0) || decide (rest.length + 4 < size.toNat)) = true) := by
    simp only [Bool.or_eq_true, decide_eq_true_eq, not_or, not_lt, ne_eq, not_not]
    exact ⟨⟨hmin, hfour⟩, by simpa using hlen⟩
  rw [command?, if_neg hbad]
  rfl

section

variable (h : command? bs = some c)
include h

theorem size_le_of_command? : 4 ≤ c.size ∧ c.size ≤ bs.length := by
  obtain ⟨_, _, _, _, _, -, hmin, -, hlen, rfl⟩ := of_command? h
  exact ⟨hmin, hlen⟩

theorem argument_of_command? : c.argument = argumentAt bs c.size := by
  obtain ⟨_, _, _, _, _, -, -, -, -, rfl⟩ := of_command? h
  rfl

theorem argument_of_ne_zero (hne : c.argument ≠ 0) : 8 ≤ c.size ∧ c.argument = Word.u32At bs 4 := by
  have hargument := argument_of_command? h
  rw [argumentAt] at hargument
  split at hargument
  · exact absurd hargument hne
  · exact ⟨by omega, hargument⟩

/-- **A command whose header is kept is read with the argument that stands there now.** -/
theorem command?_of_header {bs' : Bytes} (hheader : bs'.take 4 = bs.take 4)
    (hlen : c.size ≤ bs'.length) :
    command? bs' = some { c with argument := argumentAt bs' c.size } := by
  obtain ⟨op, size, lo, hi, rest, rfl, hmin, hfour, -, rfl⟩ := of_command? h
  have hbs' : bs' = op :: size :: lo :: hi :: bs'.drop 4 := by
    rw [← take_append_drop 4 bs', hheader]
    simp
  rw [hbs'] at hlen ⊢
  exact command?_eq hmin hfour hlen

theorem opcode_of_command? : ∃ op, bs[0]? = some op ∧ c.opcode = op.toNat := by
  obtain ⟨op, _, _, _, _, rfl, -, -, -, rfl⟩ := of_command? h
  exact ⟨op, rfl, rfl⟩

end

/-! ### The commands up to the end of the last part -/

/-- The number of parts that are left after a command. -/
def partsAfter (parts : Nat) (c : Command) : Nat := if c.opcode = endCode then parts - 1 else parts

theorem commandsFrom_of_none (h : command? bs = none) : commandsFrom parts pos bs = [] := by
  rw [commandsFrom]
  split
  · rfl
  · next c hc =>
    simp [h] at hc

theorem commandsFrom_of_some (h : command? bs = some c) : commandsFrom parts pos bs = (pos, c) ::
      if partsAfter parts c = 0 then [] else commandsFrom (partsAfter parts c) (pos + c.size) (bs.drop c.size) := by
  rw [commandsFrom]
  split
  · next hnone =>
    simp [h] at hnone
  · next c' hc' =>
    obtain rfl := Option.some.inj (h.symm.trans hc')
    rfl

theorem pairwise_commandsFrom (parts pos : Nat) (data : Bytes) :
    ((commandsFrom parts pos (data.drop pos)).Pairwise fun x y => x.1 + x.2.size ≤ y.1) ∧
      ∀ x ∈ commandsFrom parts pos (data.drop pos), command? (data.drop x.1) = some x.2 ∧ pos ≤ x.1 := by
  generalize hbs : data.drop pos = bs
  induction parts, pos, bs using commandsFrom.induct with
  | case1 parts pos bs hnone =>
    rw [commandsFrom_of_none hnone]
    exact ⟨.nil, nofun⟩
  | case2 parts pos bs c hc _ after ih =>
    rw [commandsFrom_of_some hc, forall_mem_cons]
    have hhead : command? (data.drop pos) = some c ∧ pos ≤ pos := ⟨hbs ▸ hc, le_refl pos⟩
    split
    · exact ⟨pairwise_singleton _ _, hhead, nofun⟩
    · obtain ⟨hpairs, hmem⟩ := ih (by rw [← hbs, drop_drop])
      exact ⟨.cons (fun y hy => (hmem y hy).2) hpairs, hhead, fun y hy => ⟨(hmem y hy).1, by have := (hmem y hy).2; omega⟩⟩

/-- The commands `body` from the position `pos` on are followed by the one that ends the last of
`parts` parts, at `p`. -/
inductive EndsAt (data : Bytes) : Nat → Nat → List (Nat × Command) → Nat → Prop
  | here {pos : Nat} {c : Command} : command? (data.drop pos) = some c → c.opcode = endCode → EndsAt data 1 pos [] pos
  | step {parts pos p : Nat} {c : Command} {body : List (Nat × Command)} : command? (data.drop pos) = some c →
      partsAfter parts c ≠ 0 → EndsAt data (partsAfter parts c) (pos + c.size) body p →
      EndsAt data parts pos ((pos, c) :: body) p

def endPosition? (data : Bytes) : Option Nat :=
  (((commands data).filter fun x => x.2.opcode = endCode)[1]?).map Prod.fst

theorem exists_endsAt_of_filter (hparts : 0 < parts)
    (h : (((commandsFrom parts pos (data.drop pos)).filter fun x => x.2.opcode = endCode)[parts - 1]?).map Prod.fst = some p) :
    ∃ body, EndsAt data parts pos body p := by
  generalize hbs : data.drop pos = bs at h
  induction parts, pos, bs using commandsFrom.induct with
  | case1 parts pos bs hnone =>
    simp [commandsFrom_of_none hnone] at h
  | case2 parts pos bs c hc _ after ih =>
    have hrest : data.drop (pos + c.size) = bs.drop c.size := by rw [← hbs, drop_drop]
    rw [← hbs] at hc
    rw [commandsFrom_of_some (hbs ▸ hc)] at h
    by_cases hend : c.opcode = endCode
    · have hafter : after = parts - 1 := if_pos hend
      have hparts' : partsAfter parts c = parts - 1 := if_pos hend
      rw [filter_cons_of_pos (by simpa using hend), hparts'] at h
      by_cases hlast : parts - 1 = 0
      · obtain rfl : parts = 1 := by omega
        cases h
        exact ⟨[], .here hc hend⟩
      · obtain ⟨k, hk⟩ : ∃ k, parts - 1 = k + 1 := ⟨parts - 2, by omega⟩
        rw [if_neg hlast, hk, getElem?_cons_succ] at h
        rw [hafter, hk] at ih
        obtain ⟨body, hbody⟩ := ih (by omega) hrest h
        exact ⟨(pos, c) :: body, .step hc (by omega) (by rwa [hparts', hk])⟩
    · have hafter : after = parts := if_neg hend
      have hparts' : partsAfter parts c = parts := if_neg hend
      rw [filter_cons_of_neg (by simpa using hend), hparts', if_neg (by omega)] at h
      rw [hafter] at ih
      obtain ⟨body, hbody⟩ := ih hparts hrest h
      exact ⟨(pos, c) :: body, .step hc (by omega) (by rwa [hparts'])⟩

theorem exists_endsAt (h : endPosition? data = some p) : ∃ body, EndsAt data 2 0 body p :=
  exists_endsAt_of_filter (by decide) h

section

variable {body : List (Nat × Command)}

variable (h : EndsAt data parts pos body p)
include h

theorem EndsAt.lt_length : p < data.length := by
  induction h with
  | here hc _ =>
    obtain ⟨hmin, hlen⟩ := size_le_of_command? hc
    rw [length_drop] at hlen
    omega
  | step _ _ _ ih => exact ih

theorem EndsAt.commandsFrom_eq :
    ∃ c, c.opcode = endCode ∧ data[p]? = some 0 ∧
      commandsFrom parts pos (data.drop pos) = body ++ [(p, c)] := by
  induction h with
  | @here pos c hc hend =>
    refine ⟨c, hend, ?_, ?_⟩
    · obtain ⟨op, hop, hcode⟩ := opcode_of_command? hc
      rw [getElem?_drop, add_zero] at hop
      rw [hop, UInt8.toNat_inj.mp (hcode.symm.trans hend : op.toNat = (0 : UInt8).toNat)]
    · rw [commandsFrom_of_some hc, partsAfter, if_pos hend]
      rfl
  | @step parts pos p c body hc hafter _ ih =>
    obtain ⟨c', hend, hop, hrest⟩ := ih
    refine ⟨c', hend, hop, ?_⟩
    rw [commandsFrom_of_some hc, if_neg hafter, drop_drop, hrest, cons_append]

theorem EndsAt.pairwise : body.Pairwise fun x y => x.1 + x.2.size ≤ y.1 := by
  obtain ⟨c, -, -, hcommands⟩ := h.commandsFrom_eq
  exact (pairwise_append.mp (hcommands ▸ (pairwise_commandsFrom parts pos data).1)).1

theorem EndsAt.of_mem :
    pos ≤ p ∧ ∀ x ∈ body, command? (data.drop x.1) = some x.2 ∧ x.1 + x.2.size ≤ p := by
  obtain ⟨c, -, -, hcommands⟩ := h.commandsFrom_eq
  obtain ⟨hpairs, hmem⟩ := pairwise_commandsFrom parts pos data
  rw [hcommands] at hpairs hmem
  refine ⟨(hmem (p, c) (by simp)).2, fun x hx => ?_⟩
  exact ⟨(hmem x (mem_append_left _ hx)).1, (pairwise_append.mp hpairs).2.2 x hx _ (mem_singleton_self _)⟩

theorem EndsAt.apart {x y : Nat × Command} (hx : x ∈ body) (hy : y ∈ body) :
    x = y ∨ x.1 + x.2.size ≤ y.1 ∨ y.1 + y.2.size ≤ x.1 := by
  have hsymm : Std.Symm fun x y : Nat × Command => x.1 + x.2.size ≤ y.1 ∨ y.1 + y.2.size ≤ x.1 := ⟨fun _ _ => Or.symm⟩
  have hpairs : body.Pairwise fun x y => x.1 + x.2.size ≤ y.1 ∨ y.1 + y.2.size ≤ x.1 := h.pairwise.imp Or.inl
  by_cases hxy : x = y
  · exact .inl hxy
  · exact .inr (hpairs.forall hx hy hxy)

/-- A command with the argument that stands behind its header in other bytes. -/
def reread (new : Bytes) (x : Nat × Command) : Nat × Command :=
  (x.1, { x.2 with argument := argumentAt (new.drop x.1) x.2.size })

/-- **If the headers are kept, the same commands are read**, up to the end of the last part. -/
theorem commandsFrom_of_kept {new : Bytes}
    (hkept : ∀ x ∈ body, (new.drop x.1).take 4 = (data.drop x.1).take 4) (hlen : p ≤ new.length)
    (hop : new[p]? = some 0) :
    ∃ rest, commandsFrom parts pos (new.drop pos) = body.map (reread new) ++ rest ∧
      ∀ y ∈ rest, y.2.opcode = endCode := by
  induction h with
  | @here pos c hc hend =>
    cases hc' : command? (new.drop pos) with
    | none => exact ⟨[], commandsFrom_of_none hc', nofun⟩
    | some c' =>
      have hend' : c'.opcode = endCode := by
        obtain ⟨op, hop', hcode⟩ := opcode_of_command? hc'
        rw [getElem?_drop, add_zero, hop] at hop'
        rw [hcode, ← Option.some.inj hop']
        rfl
      refine ⟨[(pos, c')], ?_, fun y hy => mem_singleton.mp hy ▸ hend'⟩
      rw [commandsFrom_of_some hc', partsAfter, if_pos hend']
      rfl
  | @step parts pos p c body hc hafter hrest ih =>
    rw [forall_mem_cons] at hkept
    obtain ⟨hheader, hkept⟩ := hkept
    obtain ⟨rest, hcommands, hends⟩ := ih hkept hlen hop
    have hsize : c.size ≤ (new.drop pos).length := by
      have hle := hrest.of_mem.1
      rw [length_drop]
      omega
    refine ⟨rest, ?_, hends⟩
    have hc' := command?_of_header hc hheader hsize
    have hafter' : partsAfter parts { c with argument := argumentAt (new.drop pos) c.size } = partsAfter parts c := rfl
    rw [commandsFrom_of_some hc', hafter', if_neg hafter, drop_drop, hcommands]
    rfl

end

/-! ## Texts laid one after another

Texts are laid behind the commands of an opening, each where the one before it ends, and the offset
of each is put into its pointer. As long as the pointers lie among the commands, this is the same as
putting in all offsets first and the texts behind them (`layout_cons`). So a text is found at its
offset, a pointer holds that offset, and all other bytes among the commands are kept. -/

open Word

/-! ### Words that are put in -/

/-- The bytes with a word of four bytes put in at a position. -/
def patch (bs : Bytes) (p n : Nat) : Bytes := bs.take p ++ bytes 4 n ++ bs.drop (p + 4)

/-- The bytes with words put in at some positions. -/
def patchAll (ps : List (Nat × Nat)) (bs : Bytes) : Bytes :=
  ps.foldl (fun bs x => patch bs x.1 x.2) bs

section

variable {bs : Bytes} {p n k : Nat}

variable (h : p + 4 ≤ bs.length)
include h

theorem length_patch : (patch bs p n).length = bs.length :=
  length_overwrite h (length_bytes 4 n)

theorem patch_append (t : Bytes) : patch (bs ++ t) p n = patch bs p n ++ t := by
  rw [patch, patch, take_append_of_le_length (by omega), drop_append_of_le_length h, append_assoc _ _ t]

theorem drop_patch : (patch bs p n).drop p = bytes 4 n ++ bs.drop (p + 4) :=
  drop_overwrite h (length_bytes 4 n)

theorem getElem?_patch (hk : k < p ∨ p + 4 ≤ k) : (patch bs p n)[k]? = bs[k]? :=
  getElem?_overwrite h (length_bytes 4 n) hk

end

section

variable {bs : Bytes} {ps : List (Nat × Nat)}

theorem patchAll_cons (x : Nat × Nat) : patchAll (x :: ps) bs = patchAll ps (patch bs x.1 x.2) := rfl

theorem room_of_cons {x : Nat × Nat} (h : ∀ y ∈ x :: ps, y.1 + 4 ≤ bs.length) :
    x.1 + 4 ≤ bs.length ∧ ∀ y ∈ ps, y.1 + 4 ≤ (patch bs x.1 x.2).length := by
  rw [forall_mem_cons] at h
  exact ⟨h.1, by rw [length_patch h.1]; exact h.2⟩

variable (h : ∀ x ∈ ps, x.1 + 4 ≤ bs.length)

include h

theorem length_patchAll : (patchAll ps bs).length = bs.length := by
  induction ps generalizing bs with
  | nil => rfl
  | cons x ps ih =>
    obtain ⟨hx, hps⟩ := room_of_cons h
    rw [patchAll_cons, ih hps, length_patch hx]

theorem patchAll_append (t : Bytes) : patchAll ps (bs ++ t) = patchAll ps bs ++ t := by
  induction ps generalizing bs with
  | nil => rfl
  | cons x ps ih =>
    obtain ⟨hx, hps⟩ := room_of_cons h
    rw [patchAll_cons, patch_append hx, ih hps, patchAll_cons]

theorem getElem?_patchAll {k : Nat} (hk : ∀ x ∈ ps, k < x.1 ∨ x.1 + 4 ≤ k) :
    (patchAll ps bs)[k]? = bs[k]? := by
  induction ps generalizing bs with
  | nil => rfl
  | cons x ps ih =>
    obtain ⟨hx, hps⟩ := room_of_cons h
    rw [forall_mem_cons] at hk
    rw [patchAll_cons, ih hps hk.2, getElem?_patch hx hk.1]

theorem take_drop_patchAll (hapart : ps.Pairwise fun x y => x.1 + 4 ≤ y.1 ∨ y.1 + 4 ≤ x.1)
    {q n : Nat} (hq : (q, n) ∈ ps) : ((patchAll ps bs).drop q).take 4 = bytes 4 n := by
  induction ps generalizing bs with
  | nil => cases hq
  | cons x ps ih =>
    obtain ⟨hx, hrest⟩ := room_of_cons h
    rw [pairwise_cons] at hapart
    rw [patchAll_cons]
    rcases mem_cons.mp hq with rfl | hq
    · have hbytes : ∀ k, q ≤ k → k < q + 4 → (patchAll ps (patch bs q n))[k]? = (patch bs q n)[k]? := fun k _ hk =>
        getElem?_patchAll hrest fun y hy => by have := hapart.1 y hy; omega
      rw [take_drop_congr hbytes, drop_patch hx]
      exact take_left' (length_bytes 4 n)
    · exact ih hrest hapart.2 hq

end

/-! ### Texts behind them -/

/-- The offsets of texts that are laid from `start` on, each with its pointer. -/
def offsetsFrom : Nat → List (Nat × Bytes) → List (Nat × Nat)
  | _, [] => []
  | start, (p, t) :: ts => (p, start) :: offsetsFrom (start + t.length) ts

@[simp] theorem map_fst_offsetsFrom (start : Nat) (ts : List (Nat × Bytes)) :
    (offsetsFrom start ts).map Prod.fst = ts.map Prod.fst := by
  induction ts generalizing start with
  | nil => rfl
  | cons x ts ih => rw [offsetsFrom, map_cons, ih, map_cons]

/-- Bytes with texts behind them, and with the offsets of the texts in their pointers. -/
def layout (ts : List (Nat × Bytes)) (bs : Bytes) : Bytes :=
  patchAll (offsetsFrom bs.length ts) bs ++ ts.flatMap Prod.snd

section

variable {bs : Bytes} {ts : List (Nat × Bytes)}

variable (h : ∀ x ∈ ts, x.1 + 4 ≤ bs.length)

include h

theorem le_of_mem_offsetsFrom (start : Nat) : ∀ x ∈ offsetsFrom start ts, x.1 + 4 ≤ bs.length := by
  intro x hx
  have hmem : x.1 ∈ ts.map Prod.fst := map_fst_offsetsFrom start ts ▸ mem_map_of_mem hx
  obtain ⟨y, hy, hyx⟩ := mem_map.mp hmem
  exact hyx ▸ h y hy

theorem length_layout : (layout ts bs).length = bs.length + (ts.flatMap Prod.snd).length := by
  rw [layout, length_append, length_patchAll (le_of_mem_offsetsFrom h _)]

/-- **Texts can be laid one by one.** -/
theorem layout_cons {p : Nat} (t : Bytes) (hp : p + 4 ≤ bs.length) :
    layout ((p, t) :: ts) bs = layout ts (patch (bs ++ t) p bs.length) := by
  have hlen : (patch bs p bs.length ++ t).length = bs.length + t.length := by rw [length_append, length_patch hp]
  have hfits : ∀ x ∈ offsetsFrom (bs.length + t.length) ts, x.1 + 4 ≤ (patch bs p bs.length).length := by
    rw [length_patch hp]
    exact le_of_mem_offsetsFrom h _
  rw [patch_append hp, layout, layout, hlen, patchAll_append hfits, offsetsFrom, patchAll, foldl_cons, ← patchAll,
    flatMap_cons, append_assoc]

theorem getElem?_layout {k : Nat} (hlt : k < bs.length) (hk : ∀ x ∈ ts, k < x.1 ∨ x.1 + 4 ≤ k) :
    (layout ts bs)[k]? = bs[k]? := by
  have hfits := le_of_mem_offsetsFrom h bs.length
  have hk' : ∀ x ∈ offsetsFrom bs.length ts, k < x.1 ∨ x.1 + 4 ≤ k := by
    intro x hx
    have hmem : x.1 ∈ ts.map Prod.fst := map_fst_offsetsFrom bs.length ts ▸ mem_map_of_mem hx
    obtain ⟨y, hy, hyx⟩ := mem_map.mp hmem
    exact hyx ▸ hk y hy
  rw [layout, getElem?_append_left (by rw [length_patchAll hfits]; exact hlt), getElem?_patchAll hfits hk']

theorem u32At_layout (hapart : ts.Pairwise fun x y => x.1 + 4 ≤ y.1 ∨ y.1 + 4 ≤ x.1) {q n : Nat}
    (hq : (q, n) ∈ offsetsFrom bs.length ts) (hn : n < 0x100000000) :
    u32At (layout ts bs) q = n := by
  have hfits := le_of_mem_offsetsFrom h bs.length
  have hapart' : (offsetsFrom bs.length ts).Pairwise fun x y => x.1 + 4 ≤ y.1 ∨ y.1 + 4 ≤ x.1 := by
    have hmap := (pairwise_map (f := Prod.fst) (R := fun a b : Nat => a + 4 ≤ b ∨ b + 4 ≤ a)).mpr hapart
    rw [← map_fst_offsetsFrom bs.length ts] at hmap
    exact pairwise_map.mp hmap
  have hin : q + 4 ≤ (patchAll (offsetsFrom bs.length ts) bs).length := by
    rw [length_patchAll hfits]
    exact hfits (q, n) hq
  have htake : ((layout ts bs).drop q).take 4 = bytes 4 n := by
    rw [layout, drop_append_of_le_length (by omega), take_append_of_le_length (by rw [length_drop]; omega),
      take_drop_patchAll hfits hapart' hq]
  rw [u32At, htake, value_bytes]
  exact mod_eq_of_lt hn

omit h in
theorem forall₂_offsetsFrom (pre : Bytes) (ts : List (Nat × Bytes)) :
    Forall₂ (fun x y => y.1 = x.1 ∧ pre.length ≤ y.2 ∧ x.2 <+: (pre ++ ts.flatMap Prod.snd).drop y.2) ts
      (offsetsFrom pre.length ts) := by
  induction ts generalizing pre with
  | nil => exact .nil
  | cons x ts ih =>
    refine .cons ⟨rfl, le_refl _, by rw [drop_left]; exact prefix_append _ _⟩ ?_
    have hrest := ih (pre ++ x.2)
    rw [length_append, append_assoc] at hrest
    exact hrest.imp fun y z hyz => ⟨hyz.1, by omega, hyz.2.2⟩

theorem forall₂_layout :
    Forall₂ (fun x y => y.1 = x.1 ∧ bs.length ≤ y.2 ∧ x.2 <+: (layout ts bs).drop y.2) ts (offsetsFrom bs.length ts) := by
  have hoffsets := forall₂_offsetsFrom (patchAll (offsetsFrom bs.length ts) bs) ts
  rwa [length_patchAll (le_of_mem_offsetsFrom h bs.length)] at hoffsets

/-! ### Pointers that lead to texts -/

variable (hapart : ts.Pairwise fun x y => x.1 + 4 ≤ y.1 ∨ y.1 + 4 ≤ x.1) (hne : ∀ x ∈ ts, x.2 ≠ [])
  (hfits : (layout ts bs).length ≤ 0x100000000)

include hapart hne hfits

theorem eq_u32At_of_mem {y : Nat × Nat} (hy : y ∈ offsetsFrom bs.length ts) :
    y.2 = u32At (layout ts bs) y.1 := by
  obtain ⟨k, hk⟩ := mem_iff_getElem?.mp hy
  obtain ⟨x, hx, -, -, htext⟩ := exists_of_forall₂ (forall₂_layout h).flip hk
  have hlen := htext.length_le
  have hpos := length_pos_iff.mpr (hne x (mem_of_getElem? hx))
  rw [length_drop] at hlen
  exact (u32At_layout h hapart hy (by omega)).symm

/-- **A pointer leads to its text**, which stands behind the bytes that were there. -/
theorem leads_layout {x : Nat × Bytes} (hx : x ∈ ts) :
    bs.length ≤ u32At (layout ts bs) x.1 ∧
      x.2 <+: (layout ts bs).drop (u32At (layout ts bs) x.1) := by
  obtain ⟨k, hk⟩ := mem_iff_getElem?.mp hx
  obtain ⟨y, hy, hpointer, hle, htext⟩ := exists_of_forall₂ (forall₂_layout h) hk
  have hoffset := eq_u32At_of_mem h hapart hne hfits (mem_of_getElem? hy)
  rw [← hpointer, ← hoffset]
  exact ⟨hle, htext⟩

omit h hapart hne hfits

end

end Localizer.Opening
