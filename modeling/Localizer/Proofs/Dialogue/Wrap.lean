import Localizer.Proofs.Dialogue.Line
import Localizer.Proofs.Dialogue.WriteBack
import Localizer.Proofs.Frame

/-!
# Wrapped texts

A text that fits the box is shown in at most three lines. The lines show all of the text but for its
white space, and each of them is as wide as a line may be at most, or is a single token, which
cannot be broken. A text that does not fit stays as it is, and this is reported.
-/

namespace Localizer.Dialogue

open List hiding replace
open Text

variable {measure : Text → Int} (t : Text)

/-! ### One line from several -/

theorem pieces_ne_nil : pieces t ≠ [] := by
  fun_induction pieces t with
  | case1
  | case2
  | case3
  | case4 => exact cons_ne_nil _ _

theorem replace_lineBreak (new t : Text) : replace lineBreak new t = join new (pieces t) := by
  fun_induction pieces t with
  | case1 => rfl
  | case2 t ih =>
    obtain ⟨p, ps, hps⟩ := exists_cons_of_ne_nil (pieces_ne_nil t)
    rw [hps, join_cons_cons, nil_append, ← hps, ← ih]
    exact replace_found
  | case3 c t hbreak hnil ih => exact absurd hnil (pieces_ne_nil t)
  | case4 c t hbreak p ps hps ih =>
    have hstep : replace lineBreak new (c :: t) = c :: replace lineBreak new t := replace_step fun hpre => by
      obtain ⟨hc, u, hu⟩ := cons_prefix_cons.mp hpre
      exact hbreak u hc.symm hu.symm
    rw [hstep, ih, hps]
    cases ps with
    | nil => rw [join_singleton, join_singleton]
    | cons q ps => rw [join_cons_cons, join_cons_cons, cons_append, cons_append]

theorem withoutBlanks_trim : withoutBlanks (trim t) = withoutBlanks t := by
  obtain ⟨b, hend, hb⟩ := trimEnd_append_dropped (trimStart t)
  have hstart : Blanks (t.takeWhile isBlank) := fun c hc => mem_takeWhile_imp hc
  calc withoutBlanks (trim t) = withoutBlanks (trimStart t) := by
        rw [hend, withoutBlanks_append, withoutBlanks_of_blanks hb, append_nil]
        rfl
    _ = withoutBlanks (t.takeWhile isBlank ++ trimStart t) := by
        rw [withoutBlanks_append, withoutBlanks_of_blanks hstart, nil_append]
    _ = withoutBlanks t := by rw [trimStart, takeWhile_append_dropWhile]

theorem withoutBlanks_join {sep : Text} (hsep : Blanks sep) (ps : List Text) :
    withoutBlanks (join sep ps) = ps.flatMap withoutBlanks := by
  induction ps with
  | nil => rfl
  | cons p ps ih =>
    cases ps with
    | nil => rw [join_singleton, flatMap_singleton]
    | cons q ps =>
      rw [join_cons_cons, withoutBlanks_append, withoutBlanks_append, withoutBlanks_of_blanks hsep, append_nil, ih,
        flatMap_cons (x := p)]

theorem withoutBlanks_unwrapped :
    withoutBlanks (unwrapped t) = withoutBlanks (replace lineBreak " " t) := by
  have hspace : Blanks (" " : Text) := by simp [Blanks]; decide
  rw [unwrapped, withoutBlanks_trim, replace_lineBreak, withoutBlanks_join hspace, withoutBlanks_join hspace,
    flatMap_map]
  exact flatMap_congr fun p _ => withoutBlanks_trim p

theorem head?_unwrapped {t : Text} {c : Char} (h : (unwrapped t).head? = some c) :
    isBlank c = false := by
  apply head?_trimStart (t := join " " ((pieces t).map trim))
  obtain ⟨s, hs⟩ : unwrapped t <+: trimStart (join " " ((pieces t).map trim)) := dropEndWhile_isPrefix _
  rw [← hs, head?_append, h, Option.some_or]

/-! ### What a line shows -/

namespace LineCut

variable {s body gap rest : Text}

variable (h : LineCut measure s body gap rest)
include h

theorem head_body : ∀ c, body.head? = some c → isBlank c = false := by
  intro c hc
  apply h.head_text c
  rw [h.text_eq, head?_append, hc, Option.some_or]

theorem withoutBlanks_eq :
    withoutBlanks s = withoutBlanks (body ++ withoutBlanks gap) ++ withoutBlanks rest := by
  rw [h.text_eq, withoutBlanks_append, withoutBlanks_append, withoutBlanks_append, withoutBlanks_withoutBlanks,
    append_assoc]

theorem head_line : ∀ c, (body ++ withoutBlanks gap).head? = some c → isBlank c = false := by
  intro c hc
  rw [head?_append_of_ne_nil _ h.body_ne_nil] at hc
  exact h.head_body c hc

theorem last_line : ∀ c, (body ++ withoutBlanks gap).getLast? = some c → isBlank c = false := by
  intro c hc
  by_cases hgap : withoutBlanks gap = []
  · rw [hgap, append_nil] at hc
    exact h.last_body c hc
  · rw [getLast?_append_of_ne_nil _ hgap] at hc
    simpa using of_mem_filter (mem_of_getLast? hc)

/-- **A line fits or is a single token.** -/
theorem line_fits :
    width measure (body ++ withoutBlanks gap) ≤ lineLimit ∨
      tokens (body ++ withoutBlanks gap) = [body ++ withoutBlanks gap] := by
  rcases h.isGap.fits with hnil | hfits
  · rw [hnil, append_nil]
    exact h.body_fits.symm
  · exact .inl hfits

end LineCut

namespace Laid

variable {s left : Text} {ls : List Text}

theorem exists_lineCut (h : Laid measure s ls left) {l : Text} (hl : l ∈ ls) :
    ∃ s' body gap rest, l = body ++ withoutBlanks gap ∧ LineCut measure s' body gap rest := by
  induction h with
  | nil => cases hl
  | @cons s body gap rest left ls hcut _ ih =>
    rcases mem_cons.mp hl with rfl | hl
    · exact ⟨s, body, gap, rest, rfl, hcut⟩
    · exact ih hl

/-- **The lines show what the text shows**, but for what is left. -/
theorem withoutBlanks_eq (h : Laid measure s ls left) :
    withoutBlanks s = withoutBlanks ls.flatten ++ withoutBlanks left := by
  induction h with
  | nil => rfl
  | @cons s body gap rest left ls hcut _ ih =>
    rw [hcut.withoutBlanks_eq, ih, flatten_cons, withoutBlanks_append (body ++ withoutBlanks gap),
      append_assoc]

end Laid

/-! ### The box -/

theorem eq_nil_of_tokens_eq_nil {t : Text} (h : tokens t = []) : t = [] := by
  rw [← flatten_tokens t, h, flatten_nil]

theorem laid_of_fits {t : Text} {ls : List Text} (h : wrapping measure t = .fits ls) :
    Laid measure (unwrapped t) ls [] ∧ ls.length ≤ boxLines := by
  have hmanner : ∀ m, (fillLines measure m boxLines (tokens (unwrapped t))).2.isEmpty = true →
      Laid measure (unwrapped t) (fillLines measure m boxLines (tokens (unwrapped t))).1 [] ∧
        (fillLines measure m boxLines (tokens (unwrapped t))).1.length ≤ boxLines := by
    intro m hempty
    obtain ⟨left, hleft, hlaid, hlen⟩ := fillLines_laid measure m boxLines fun c => head?_unwrapped (t := t) (c := c)
    rw [hleft, List.isEmpty_iff] at hempty
    rw [eq_nil_of_tokens_eq_nil hempty] at hlaid
    exact ⟨hlaid, hlen⟩
  unfold wrapping at h
  simp only at h
  split_ifs at h with hphrases hspaces
  · cases h
    exact hmanner .phrases hphrases
  · cases h
    exact hmanner .spaces hspaces

def reportsOverflow (measure : Text → Int) (t : Text) : Bool :=
  (remark? measure t).any fun r => r.tag = ("OVERFLOW" : Text)

theorem reportsOverflow_eq_false_iff {t : Text} :
    reportsOverflow measure t = false ↔ ∃ ls, wrapping measure t = .fits ls := by
  unfold reportsOverflow remark?
  cases wrapping measure t with
  | overflows ls => simp
  | fits ls =>
    simp only
    split <;> simp

def logging (place t : Text) : Option Remark → Job Unit
  | some r => Job.appendUtf8 r.log [r.entry place t]
  | none => pure ()

theorem wrapLogging_eq_logging (measure : Text → Int) (place t : Text) :
    wrapLogging measure place t =
      (do logging place t (remark? measure t); return wrap measure t) := by
  unfold wrapLogging
  cases remark? measure t with
  | none
  | some r => rfl

/-- **Wrapping loses nothing and repeats nothing.** Either the text is left as it is and the
overflow is logged, or it is given in at most three lines, which show all of it but for white space.
-/
theorem wrapLogging_keeps_text (measure : Text → Int) (place t : Text) :
    wrapLogging measure place t = (do logging place t (remark? measure t); return wrap measure t) ∧
      ((wrap measure t = t ∧ ∃ ls, remark? measure t = some ⟨"overflow.log", "OVERFLOW", joinLines ls⟩) ∨
        ∃ ls : List Text, wrap measure t = joinLines ls ∧ ls.length ≤ 3 ∧
          (∀ l ∈ ls, l ≠ [] ∧ (∀ c, l.head? = some c → isBlank c = false) ∧
            ∀ c, l.getLast? = some c → isBlank c = false) ∧
          withoutBlanks ls.flatten = withoutBlanks (replace lineBreak " " t)) := by
  refine ⟨wrapLogging_eq_logging measure place t, ?_⟩
  cases hwrap : wrapping measure t with
  | overflows ls =>
    refine .inl ⟨?_, ls, ?_⟩
    · rw [wrap, hwrap]
    · rw [remark?, hwrap]
  | fits ls =>
    obtain ⟨hlaid, hlen⟩ := laid_of_fits hwrap
    refine .inr ⟨ls, ?_, hlen, fun l hl => ?_, ?_⟩
    · rw [wrap, hwrap]
    · obtain ⟨s, body, gap, rest, rfl, hcut⟩ := hlaid.exists_lineCut hl
      exact ⟨List.append_ne_nil_of_left_ne_nil hcut.body_ne_nil _, hcut.head_line, hcut.last_line⟩
    · have hshown := hlaid.withoutBlanks_eq
      rw [withoutBlanks_unwrapped, withoutBlanks_of_blanks blanks_nil, List.append_nil] at hshown
      exact hshown.symm

example : wrap (fun t => 10 * t.length) "Hi! Seven ok" = ("Hi!\\nSeven\\nok" : Text) := by decide

/-- **The lines of a text that fits are not too wide**, unless they are a single token. -/
theorem wrapped_lines_fit {t : Text} (h : reportsOverflow measure t = false) :
    ∃ ls, wrapping measure t = .fits ls ∧ wrap measure t = joinLines ls ∧
      ∀ l ∈ ls, width measure l ≤ 44 ∨ tokens l = [l] := by
  obtain ⟨ls, hwrap⟩ := reportsOverflow_eq_false_iff.mp h
  refine ⟨ls, hwrap, ?_, fun l hl => ?_⟩
  · rw [wrap, hwrap]
  · obtain ⟨s, body, gap, rest, rfl, hcut⟩ := (laid_of_fits hwrap).1.exists_lineCut hl
    exact hcut.line_fits

/-- With ten columns for each character, the second line is a token that is too wide. -/
theorem wrapped_lines_fit_three_lines :
    reportsOverflow (fun t => 10 * t.length) "Hi! Seven ok" = false ∧
      ∃ ls, wrapping (fun t => 10 * t.length) "Hi! Seven ok" = .fits ls ∧
        wrap (fun t => 10 * t.length) "Hi! Seven ok" = joinLines ls ∧
        ∀ l ∈ ls, width (fun t => 10 * t.length) l ≤ 44 ∨ tokens l = [l] :=
  ⟨by decide, wrapped_lines_fit (by decide)⟩

/-! ## Translations made ready

A translation is made ready by converting and wrapping it, and remarks on the way go to the logs.
The text that comes of it depends on the translation alone (`finalText`). Whether the work ends well
depends on the remarks: one that is to be logged names the line by its number and its key, and a
number with too many digits cannot be written, nor can half of a surrogate pair in a key.
`CanBeFinished` says what is needed, and `finish_cases` that it is. -/

open Encoding Job Glyph

variable {t : Text}
variable {s : Text} {c : Char} {r : Remark}

/-! ### Texts without halves -/

/-- A text without halves of surrogate pairs. -/
def Whole (t : Text) : Prop := ∀ c ∈ t, isHalf c = false

theorem whole_iff : t.any isHalf = false ↔ Whole t := by simp [Whole]

theorem whole_append : Whole (s ++ t) ↔ Whole s ∧ Whole t := forall_mem_append

theorem toNat_of_isHalf (h : isHalf c = true) : 0x10000 ≤ c.toNat := by
  unfold isHalf half? at h
  split at h
  · next hrange =>
    simp only [Bool.and_eq_true, decide_eq_true_eq] at hrange
    exact Nat.le_trans (by decide) hrange.1
  · cases h

theorem not_blank_of_isHalf (h : isHalf c = true) : isBlank c = false := by
  have hranges : ∀ b ∈ blankRanges, b.2 < 0x10000 ∨ c.toNat < b.1 := by
    have hbelow : ∀ b ∈ blankRanges, b.2 < 0x10000 := by decide
    exact fun b hb => .inl (hbelow b hb)
  exact not_blank_of_range hranges (toNat_of_isHalf h) (Nat.le_refl _)

theorem Whole.of_withoutBlanks (h : Whole s) (hsub : withoutBlanks t ⊆ withoutBlanks s) :
    Whole t := by
  intro c hc
  rw [← Bool.not_eq_true]
  intro hhalf
  have hmem : c ∈ withoutBlanks t := mem_filter.mpr ⟨hc, by rw [not_blank_of_isHalf hhalf]; rfl⟩
  have hwhole := h c (mem_of_mem_filter (hsub hmem))
  exact absurd (hhalf.symm.trans hwhole) (by decide)

theorem whole_of_encode? {bs : Bytes} (h : Cp932.encode? t = some bs) : Whole t := by
  induction t generalizing bs with
  | nil => exact nofun
  | cons c t ih =>
    obtain ⟨code, rest, hcode, hrest, -⟩ := Cp932.exists_of_encode?_cons h
    refine forall_mem_cons.mpr ⟨?_, ih hrest⟩
    rw [← Bool.not_eq_true]
    exact fun hhalf => absurd (Cp932.of_encodeChar? hcode).2.1 (Nat.not_lt_of_le (toNat_of_isHalf hhalf))

/-- **A converted text has no halves**, whatever it is made of. -/
theorem whole_converted {src : Text} {table : GlyphTable} (h : Glyph.readTable src = .ok table)
    (rules : Glyph.Rules) (t : Text) : Whole (Glyph.Converter.text ⟨rules, table⟩ t) :=
  whole_of_encode? (Cp932.encode?_flatMap (encode?_shown h) _)

theorem mem_of_mem_unifyNewlines (h : c ∈ unifyNewlines t) : c ∈ t ∨ c = '\n' := by
  fun_induction unifyNewlines t with
  | case1 => exact .inl h
  | case2 t ih =>
    rcases mem_cons.mp h with hc | hc
    · exact .inr hc
    · exact (ih hc).imp_left fun hmem => mem_cons_of_mem _ (mem_cons_of_mem _ hmem)
  | case3 d t hbreak ih =>
    rcases mem_cons.mp h with hc | hc
    · split at hc
      · exact .inr hc
      · exact .inl (hc ▸ mem_cons_self)
    · exact (ih hc).imp_left (mem_cons_of_mem _)

theorem whole_lineBreak : Whole lineBreak := whole_iff.mp (by decide)

theorem whole_onOneLine (h : Whole t) : Whole (onOneLine t) := by
  intro c hc
  obtain ⟨d, hd, hc⟩ := mem_flatMap.mp hc
  split at hc
  · exact whole_lineBreak c hc
  · next hne =>
    obtain rfl := mem_singleton.mp hc
    exact h c ((mem_of_mem_unifyNewlines hd).resolve_right hne)

/-! ### Remarks -/

section

variable {measure : Text → Int}

theorem mem_of_mem_pieces {p : Text} (hp : p ∈ pieces t) (hc : c ∈ p) : c ∈ t := by
  fun_induction pieces t generalizing p with
  | case1 =>
    rwa [mem_singleton.mp hp] at hc
  | case2 t ih =>
    rcases mem_cons.mp hp with rfl | hp
    · exact absurd hc not_mem_nil
    · exact mem_cons_of_mem _ (mem_cons_of_mem _ (ih hp hc))
  | case3 d t hbreak hnil ih => exact absurd hnil (pieces_ne_nil t)
  | case4 d t hbreak q ps hps ih =>
    rcases mem_cons.mp hp with rfl | hp
    · rcases mem_cons.mp hc with rfl | hc
      · exact mem_cons_self
      · exact mem_cons_of_mem _ (ih (hps ▸ mem_cons_self) hc)
    · exact mem_cons_of_mem _ (ih (hps ▸ mem_cons_of_mem _ hp) hc)

theorem whole_unwrapped (h : Whole t) : Whole (unwrapped t) := by
  refine h.of_withoutBlanks fun c hc => ?_
  rw [withoutBlanks_unwrapped, replace_lineBreak] at hc
  obtain ⟨hc, hblank⟩ := mem_filter.mp hc
  refine mem_filter.mpr ⟨?_, hblank⟩
  rcases mem_join hc with hspace | ⟨p, hp, hc⟩
  · rw [mem_singleton.mp hspace] at hblank
    exact absurd hblank (by decide)
  · exact mem_of_mem_pieces hp hc

theorem whole_wrapping (h : Whole t) {ls : List Text}
    (hls : wrapping measure t = .fits ls ∨ wrapping measure t = .overflows ls) :
    Whole (joinLines ls) := by
  obtain ⟨left, hlaid⟩ : ∃ left, Laid measure (unwrapped t) ls left := by
    have hmanner : ∀ m, ∃ left, Laid measure (unwrapped t) (fillLines measure m boxLines (tokens (unwrapped t))).1 left := by
      intro m
      obtain ⟨left, -, hlaid, -⟩ := fillLines_laid measure m boxLines fun c => head?_unwrapped (t := t) (c := c)
      exact ⟨left, hlaid⟩
    unfold wrapping at hls
    simp only at hls
    split_ifs at hls with hphrases hspaces
    · rcases hls with ⟨⟨⟩⟩ | ⟨⟨⟩⟩
      exact hmanner .phrases
    · rcases hls with ⟨⟨⟩⟩ | ⟨⟨⟩⟩
      exact hmanner .spaces
    · rcases hls with ⟨⟨⟩⟩ | ⟨⟨⟩⟩
      exact hmanner .spaces
  have hlines : Whole ls.flatten := by
    refine (whole_unwrapped h).of_withoutBlanks ?_
    rw [hlaid.withoutBlanks_eq]
    exact subset_append_left _ _
  intro c hc
  rcases mem_join hc with hbreak | ⟨l, hl, hc⟩
  · exact whole_lineBreak c hbreak
  · exact hlines c (mem_flatten.mpr ⟨l, hl, hc⟩)

theorem log_mem_of_remark? (hr : remark? measure t = some r) : r.log ∈ logNames := by
  have hlogs : "overflow.log".toList ∈ logNames ∧ "wrap.log".toList ∈ logNames := by decide
  unfold remark? at hr
  split at hr
  · cases hr
    exact hlogs.1
  · split at hr
    · cases hr
    · cases hr
      exact hlogs.2

theorem whole_remark (h : Whole t) (hr : remark? measure t = some r) :
    Whole r.tag ∧ Whole r.lines := by
  have htags : "OVERFLOW".toList.any isHalf = false ∧ "WRAP".toList.any isHalf = false := by decide
  unfold remark? at hr
  split at hr
  · next ls hls =>
    cases hr
    exact ⟨whole_iff.mp htags.1, whole_wrapping h (.inr hls)⟩
  · next ls hls =>
    split at hr
    · cases hr
    · cases hr
      exact ⟨whole_iff.mp htags.2, whole_wrapping h (.inl hls)⟩

theorem whole_entry_iff (h : Whole t) (hr : remark? measure t = some r) {place : Text} :
    Whole (r.entry place t) ↔ Whole place := by
  obtain ⟨htag, hlines⟩ := whole_remark h hr
  have hmarks : ("[".toList ++ "] ".toList ++ "\n".toList ++ "\n-> ".toList ++ "\n---\n".toList).any isHalf = false := by
    decide
  simp only [whole_iff, whole_append] at hmarks
  simp only [Remark.entry, whole_append, h, htag, hlines, hmarks, and_true, true_and]

theorem whole_decimalInt {n : Int} {line : Text} (h : decimalInt? n = some line) : Whole line := by
  have hdigits : ∀ d < 10, isHalf (Nat.digitChar d) = false := by decide
  have hdecimal : ∀ n, Whole (decimal n) := by
    intro n c hc
    obtain ⟨d, hd, rfl⟩ := mem_toDigits (by omega) hc
    exact hdigits d hd
  unfold decimalInt? at h
  split at h
  · cases h
    cases n with
    | ofNat n => exact hdecimal n
    | negSucc n => exact forall_mem_cons.mpr ⟨by decide, hdecimal _⟩
  · cases h

end

/-! ### Making ready -/

section

variable (loc : Locale) (conv : Glyph.Converter) (script : Text)

/-- A translation that can be made ready: if texts are wrapped, the number of its line can be
written, and if a remark is due, so can its key. -/
def CanBeFinished (tr : Translation) : Prop :=
  ∀ measure, loc.measure? = some measure → (decimalInt? tr.line).isSome = true ∧
    ((remark? measure (conv.text (onOneLine tr.text))).isSome = true → Whole tr.key)

theorem canBeFinished_of_whole {tr : Translation} (hline : (decimalInt? tr.line).isSome = true)
    (hkey : Whole tr.key) : CanBeFinished loc conv tr := fun _ _ => ⟨hline, fun _ => hkey⟩

theorem logsOnly_lineText (f : Fault) (tr : Translation) : LogsOnly (lineText f tr) := .require .refl

/-- **Making a translation ready writes to the logs only.** -/
theorem logsOnly_finish (tr : Translation) : LogsOnly (finish loc conv script tr) := by
  refine (logsOnly_mapText _ _).bind fun converted => ?_
  split
  · next measure _ =>
    refine (logsOnly_lineText _ tr).bind fun line => ?_
    rw [wrapLogging_eq_logging]
    cases hr : remark? measure converted with
    | none => exact (Runs.pure _).bind fun _ => .pure _
    | some r => exact (logsOnly_appendUtf8 (log_mem_of_remark? hr) _).bind fun _ => Runs.pure _
  · exact Runs.pure _

variable {src : Text} {table : GlyphTable} {rules : Glyph.Rules} {ws : Workspace} {tr : Translation}

theorem yields_convert (htable : Glyph.readTable src = .ok table) (hrules : ∀ r ∈ rules, Whole r.2)
    (hready : ws.LogsReady) (ht : Whole t) :
    ∃ ws', Yields (Glyph.Converter.run ⟨rules, table⟩ t) ws (Glyph.Converter.text ⟨rules, table⟩ t) ws' := by
  have hunshown : ∀ c ∈ unshown table (applyRules rules t), isHalf c = false := fun c hc =>
    not_isHalf_of_mem_applyRules ht hrules c ((mem_unshown htable).mp hc).1
  obtain ⟨ws', hlog, -⟩ := yields_logChars (isDir_logPath hready) hunshown
  exact ⟨ws', hlog.bind (.pure rfl)⟩

theorem wrapLogging_cases (measure : Text → Int) (hready : ws.LogsReady) (ht : Whole t)
    (place : Text) :
    (((remark? measure t).isSome = true → Whole place) ∧
      ∃ ws', Yields (wrapLogging measure place t) ws (wrap measure t) ws') ∨
    ¬ ((remark? measure t).isSome = true → Whole place) ∧
      ∃ ws', (wrapLogging measure place t).run.run ws = (.error .unencodable, ws') := by
  rw [wrapLogging_eq_logging]
  cases hr : remark? measure t with
  | none => exact .inl ⟨fun h => absurd h (by decide), ws, rfl⟩
  | some r =>
    obtain ⟨ws', hlog⟩ := run_appendUtf8_log hready (log_mem_of_remark? hr) [r.entry place t]
    have hentry : ([r.entry place t].any fun t => t.any isHalf) = (r.entry place t).any isHalf := by simp
    rw [hentry] at hlog
    by_cases hplace : Whole place
    · have hyields : Yields (logging place t (some r)) ws () ws' := by
        rwa [whole_iff.mpr ((whole_entry_iff ht hr).mpr hplace)] at hlog
      exact .inl ⟨fun _ => hplace, ws', hyields.bind (.pure rfl)⟩
    · have hhalf : (r.entry place t).any isHalf = true := by
        rwa [← Bool.not_eq_false, whole_iff, whole_entry_iff ht hr]
      rw [hhalf] at hlog
      refine .inr ⟨fun h => hplace (h rfl), ws', ?_⟩
      rw [run_bind, logging, hlog]
      rfl

/-- **A translation is made ready exactly if it can be.** -/
theorem finish_cases (htable : Glyph.readTable src = .ok table) (hrules : ∀ r ∈ rules, Whole r.2)
    (hready : ws.LogsReady) (hscript : Whole script) (htext : Whole tr.text) :
    (CanBeFinished loc ⟨rules, table⟩ tr ∧
      ∃ ws', Yields (finish loc ⟨rules, table⟩ script tr) ws (finalText loc ⟨rules, table⟩ tr.text) ws') ∨
    ¬ CanBeFinished loc ⟨rules, table⟩ tr ∧
      ∃ f ws', (finish loc ⟨rules, table⟩ script tr).run.run ws = (.error f, ws') ∧ (f = .badNumeral ∨ f = .unencodable) := by
  obtain ⟨ws₁, hconvert⟩ := yields_convert htable hrules hready (whole_onOneLine htext)
  have hready₁ : ws₁.LogsReady := hready.of_sameButLogs ((logsOnly_mapText _ _).of_yields hconvert)
  have hwhole := whole_converted htable rules (onOneLine tr.text)
  unfold CanBeFinished finish finalText
  simp only [Yields, hconvert.run_bind]
  cases hmeasure : loc.measure? with
  | none => exact .inl ⟨fun measure h => absurd h (by simp), ws₁, rfl⟩
  | some measure =>
    simp only [Option.some.injEq, forall_eq']
    cases hline : decimalInt? tr.line with
    | none =>
      refine .inr ⟨fun h => absurd h.1 (by simp), .badNumeral, ws₁, ?_, .inl rfl⟩
      rw [run_bind, lineText, hline]
      rfl
    | some line =>
      have hwrite : Yields (lineText .badNumeral tr) ws₁ line ws₁ := .require hline
      have hplace : Whole (script ++ ":" ++ line ++ ":" ++ tr.key) ↔ Whole tr.key := by
        have hcolon : Whole (":" : Text) := whole_iff.mp (by decide)
        simp only [whole_append, hscript, hcolon, whole_decimalInt hline, true_and]
      rw [hwrite.run_bind, ← hplace]
      rcases wrapLogging_cases measure hready₁ hwhole (script ++ ":" ++ line ++ ":" ++ tr.key) with
        ⟨hcan, hyields⟩ | ⟨hcannot, ws', hfails⟩
      · exact .inl ⟨⟨rfl, hcan⟩, hyields⟩
      · exact .inr ⟨fun h => hcannot h.2, .unencodable, ws', hfails, .inr rfl⟩

end

end Localizer.Dialogue
