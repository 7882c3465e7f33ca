import Localizer.Movie.Tool
import Localizer.Proofs.Workspace

/-!
# A note before the first group of pictures

Start codes share bytes, so that something put into a stream could make a start code with the bytes
around it. The note makes no group code with what stands before it (`not_groupCode_across`) and has
none inside (`not_groupCode_inside`). So the first group code of a stream stays the first one, right
behind the note (`not_groupCode_before`).
-/

namespace Localizer

open List hiding find?
open Text Job

theorem Text.find?_cases {α : Type} [BEq α] [LawfulBEq α] (p t : List α) :
    (¬ p <:+: t ∧ find? p t = none) ∨ ∃ a b, t = a ++ b ∧ p <+: b ∧ (∀ k < a.length, ¬ p <+: t.drop k) ∧
      find? p t = some a.length := by
  induction t with
  | nil =>
    cases p with
    | nil => exact .inr ⟨[], [], rfl, prefix_rfl, nofun, rfl⟩
    | cons c p => exact .inl ⟨by simp, rfl⟩
  | cons c t ih =>
    rw [find?, infix_cons_iff, ← isPrefixOf_iff_prefix]
    by_cases hfirst : p.isPrefixOf (c :: t) = true
    · exact .inr ⟨[], c :: t, rfl, isPrefixOf_iff_prefix.mp hfirst, nofun, if_pos hfirst⟩
    rw [if_neg hfirst]
    rcases ih with ⟨hnot, hnone⟩ | ⟨a, b, rfl, hb, hbefore, hfound⟩
    · exact .inl ⟨by simp [hfirst, hnot], by rw [hnone]; rfl⟩
    · refine .inr ⟨c :: a, b, rfl, hb, fun k hk => ?_, by rw [hfound]; rfl⟩
      cases k with
      | zero => exact mt isPrefixOf_iff_prefix.mpr hfirst
      | succ k => exact hbefore k (Nat.lt_of_succ_lt_succ hk)

theorem Workspace.setFile_setFile (ws : Workspace) (q : Place) (f : File) :
    (ws.setFile q f).setFile q f = ws.setFile q f := by
  have hsome : ((ws.setFile q f).files.lookup q).isSome = true := by rw [lookup_setFile]; rfl
  rw [setFile, if_pos hsome]
  unfold setFile
  congr 1
  split
  · rw [map_map]
    refine map_congr_left fun x _ => ?_
    by_cases hx : x.1 = q <;> simp [hx]
  · next hnone =>
    have hother : ∀ x ∈ ws.files, x.1 ≠ q := fun x hx =>
      (bne_iff_ne.mp (lookup_eq_none_iff.mp (Option.not_isSome_iff_eq_none.mp hnone) x hx)).symm
    rw [map_append, map_congr_left fun x hx => if_neg (hother x hx), map_id']
    simp

namespace Movie

variable {stream pre post s : Bytes} {path : Text} {ws : Workspace}

/-! ### Group codes -/

theorem not_groupCode_across (hs : s ≠ []) (h : ¬ groupCode <+: s ++ post) (post' : Bytes) :
    ¬ groupCode <+: s ++ (note ++ post') := by
  match s, hs with
  | [_], _ | [_, _], _ | [_, _, _], _ => simp [groupCode, note, noteCode]
  | a :: b :: c :: d :: s, _ => simpa [groupCode] using h

theorem not_groupCode_inside {k : Nat} (hk : k < note.length) (post : Bytes) :
    ¬ groupCode <+: note.drop k ++ post := by
  match k with
  | 0 | 1 => simp [groupCode, note, noteCode]
  | k + 2 =>
    have hwords : ((note.drop 2).all fun b => b ≠ 0) = true := by decide +kernel
    have hmem : note[k + 2] ∈ note.drop 2 := mem_drop_iff_getElem.mpr ⟨k, by omega, by simp [Nat.add_comm]⟩
    rw [drop_eq_getElem_cons hk, cons_append]
    intro hcode
    exact absurd (cons_prefix_cons.mp hcode).1.symm (by simpa using all_eq_true.mp hwords _ hmem)

theorem not_groupCode_before (h : ∀ k < pre.length, ¬ groupCode <+: (pre ++ post).drop k)
    (post' : Bytes) :
    ∀ k < (pre ++ note).length, ¬ groupCode <+: (pre ++ note ++ post').drop k := by
  intro k hk
  rw [append_assoc]
  rcases lt_or_ge k pre.length with hlt | hge
  · rw [drop_append_of_le_length hlt.le]
    have hbefore := h k hlt
    rw [drop_append_of_le_length hlt.le] at hbefore
    exact not_groupCode_across (by simpa using hlt) hbefore post'
  · obtain ⟨j, rfl⟩ := Nat.exists_eq_add_of_le hge
    rw [length_append, Nat.add_lt_add_iff_left] at hk
    rw [drop_length_add_append, drop_append_of_le_length hk.le]
    exact not_groupCode_inside hk post'

/-! ### The finished file -/

theorem yields_readStream (h : Yields (readBytes path) ws stream ws) :
    Yields (readStream path) ws stream ws := by
  unfold Yields readStream on
  rw [run_tryCatch, h]

theorem yields_terminateFile {ws' : Workspace} (h : Yields (readBytes path) ws stream ws) :
    Yields (terminateFile path) ws () ws' ↔ Yields (writeBytes path (terminate stream)) ws () ws' :=
  (yields_readStream h).bind_iff

theorem terminate_cases (s : Bytes) :
    (endCode <:+ s ∧ terminate s = s) ∨ ¬ endCode <:+ s ∧ terminate s = s ++ endCode := by
  rw [terminate, ← isSuffixOf_iff_suffix]
  split
  · next h => exact .inl ⟨h, rfl⟩
  · next h => exact .inr ⟨h, rfl⟩

theorem terminate_append (h : groupCode <+: post) (pre : Bytes) :
    terminate (pre ++ post) = pre ++ terminate post := by
  have hiff : endCode <:+ pre ++ post ↔ endCode <:+ post :=
    ⟨fun hend => suffix_of_suffix_length_le hend (suffix_append pre post) h.length_le, (·.trans (suffix_append pre post))⟩
  rcases terminate_cases post with ⟨hend, heq⟩ | ⟨hend, heq⟩
  · rw [heq, terminate, if_pos (isSuffixOf_iff_suffix.mpr (hiff.mpr hend))]
  · rw [heq, terminate, if_neg (mt isSuffixOf_iff_suffix.mp (mt hiff.mp hend)), append_assoc]

/-- **A finished stream has its note before the first group of pictures.** Annotating and then
terminating its file puts the note into the stream, and the end code behind it unless it ends with
one. The first group code of what is then read stands right behind the note, and terminating the
file again changes nothing. Without a group of pictures the file cannot be annotated, and is left as
it is. -/
theorem note_before_first_group (h : Yields (readBytes path) ws stream ws) :
    (groupCode <:+: stream → ∃ pre post ws₁ ws₂,
      Yields (annotateFile path) ws () ws₁ ∧ Yields (terminateFile path) ws₁ () ws₂ ∧
      Yields (readBytes path) ws₂ (pre ++ note ++ post) ws₂ ∧
      (endCode <:+ stream ∧ pre ++ post = stream ∨ ¬ endCode <:+ stream ∧ pre ++ post = stream ++ endCode) ∧
      groupCode <+: post ∧ (∀ k < (pre ++ note).length, ¬ groupCode <+: (pre ++ note ++ post).drop k) ∧
      endCode <:+ pre ++ note ++ post ∧ Yields (terminateFile path) ws₂ () ws₂) ∧
    (¬ groupCode <:+: stream → (annotateFile path).run.run ws = (.error (.movie .noPictureGroup), ws)) := by
  have hread := yields_readStream h
  rcases find?_cases groupCode stream with ⟨hnot, hnone⟩ | ⟨pre, post, rfl, hpost, hfirst, hfound⟩
  · refine ⟨fun hcode => absurd hcode hnot, fun _ => ?_⟩
    rw [annotateFile, hread.run_bind, annotate?, hnone]
    rfl
  · refine ⟨fun _ => ?_, fun hnot => absurd (hpost.isInfix.trans (suffix_append pre post).isInfix) hnot⟩
    obtain ⟨f, hfile, -⟩ := yields_readBytes.mp h
    obtain ⟨ws₁, hnoted⟩ := yields_writeFile_of_read hfile { data := pre ++ note ++ post }
    obtain ⟨ws₂, hended⟩ := yields_writeFile_of_read (read_of_writeFile hnoted) { data := pre ++ note ++ terminate post }
    have hread₂ := readBytes_of_writeBytes hended
    have hannotate : annotate? (pre ++ post) = some (pre ++ note ++ post) := by
      rw [annotate?, hfound, Option.map_some, take_left, drop_left]
    have hterminated : groupCode <+: terminate post ∧ endCode <:+ terminate post := by
      rcases terminate_cases post with ⟨hend, heq⟩ | ⟨-, heq⟩
      · exact heq.symm ▸ ⟨hpost, hend⟩
      · exact heq.symm ▸ ⟨hpost.trans (prefix_append post endCode), suffix_append post endCode⟩
    have hend := hterminated.2.trans (suffix_append (pre ++ note) _)
    refine ⟨pre, terminate post, ws₁, ws₂, ?_, ?_, hread₂, ?_, hterminated.1, not_groupCode_before hfirst _, hend, ?_⟩
    · rw [annotateFile, hread.bind_iff, (Yields.require hannotate).bind_iff]
      exact hnoted
    · rw [yields_terminateFile (readBytes_of_writeBytes hnoted), terminate_append hpost]
      exact hended
    · rw [← terminate_append hpost]
      exact terminate_cases (pre ++ post)
    · obtain ⟨q, hsite, hdir, hlast, rfl⟩ := yields_writeFile.mp hended
      have hsame : terminate (pre ++ note ++ terminate post) = pre ++ note ++ terminate post :=
        if_pos (isSuffixOf_iff_suffix.mpr hend)
      rw [yields_terminateFile hread₂, hsame]
      refine yields_writeFile.mpr ⟨q, ?_, hdir, hlast, (Workspace.setFile_setFile ws₁ q _).symm⟩
      exact Workspace.locate_of_hasDir hsite rfl fun _ h => h

/-- A stream with the end of one start code, and then with a group of pictures. -/
def reel : Bytes := [0, 0, 1, 0xB3, 0, 0, 0, 0, 1, 0xB8, 7]

def reelDesk : Workspace where
  cwd := "/w"
  files := [(["w", "a.m2v"], { data := reel })]
  dirs := [["w"]]

theorem note_before_first_group_reel : ∃ pre post ws₁ ws₂, Yields (annotateFile "a.m2v") reelDesk () ws₁ ∧
    Yields (terminateFile "a.m2v") ws₁ () ws₂ ∧ Yields (readBytes "a.m2v") ws₂ (pre ++ note ++ post) ws₂ ∧
    pre ++ post = reel ++ endCode := by
  have hread : Yields (readBytes "a.m2v") reelDesk reel reelDesk := yields_readBytes.mpr ⟨_, rfl, rfl, rfl⟩
  have hgroup : groupCode <:+: reel := ⟨[0, 0, 1, 0xB3, 0, 0], [7], rfl⟩
  obtain ⟨pre, post, ws₁, ws₂, hnoted, hended, hread₂, hparts, -⟩ := (note_before_first_group hread).1 hgroup
  exact ⟨pre, post, ws₁, ws₂, hnoted, hended, hread₂, (hparts.resolve_left fun h => absurd h.1 (by decide)).2⟩

end Movie

end Localizer
