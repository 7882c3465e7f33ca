import Localizer.Proofs.Encoding.Cp932
import Localizer.Proofs.Opening.Layout
import Localizer.Proofs.Script.Instruction

/-!
# Texts that are extracted

What is extracted depends on the places where commands show texts (`sites`) and on the text at each
of their offsets. A text that was shown once survives being laid down again with a zero byte behind
it: it is shown there, if it comes back from the code page and did not hold a written line feed
(`survives_of_shownText`, `Survives.shownText_eq`).
-/

namespace Localizer.Opening

open List hiding replace
open Text Encoding Cp932 Script

variable {speaker? : Option (Nat × Nat)} {cs : List (Nat × Command)} {offset : Nat} {t : Text}
variable {items : List Item} {bs : Bytes} {f : Fault}

/-! ### Sites -/

/-- A place where a command shows a text. -/
structure Site where
  pointer : Nat
  offset : Nat
  speaker? : Option (Nat × Nat)

/-- The sites of commands, with the speaker that is current before them. -/
def sites : Option (Nat × Nat) → List (Nat × Command) → List Site
  | _, [] => []
  | speaker?, (pos, c) :: cs =>
    if c.opcode = speakerCode then sites (some (c.tag, c.argument)) cs
    else if c.opcode = textCode then ⟨pos + 4, c.argument, speaker?⟩ :: sites speaker? cs
    else sites speaker? cs

/-- The text that is shown at an offset, none if it is passed over or cannot be read. -/
def shown? (data : Bytes) (offset : Nat) : Option Text := (shownText data offset).toOption.join

def Site.item (voices : VoiceTable) (names : Dialogue.Album) (s : Site) (t : Text) : Item :=
  ⟨s.pointer, s.offset, t, contextOf voices names s.speaker?⟩

theorem sites_append_ends (speaker? : Option (Nat × Nat)) (xs : List (Nat × Command))
    {ys : List (Nat × Command)} (h : ∀ y ∈ ys, y.2.opcode = endCode) :
    sites speaker? (xs ++ ys) = sites speaker? xs := by
  have hends : ∀ (ys : List (Nat × Command)) (speaker? : Option (Nat × Nat)), (∀ y ∈ ys, y.2.opcode = endCode) →
      sites speaker? ys = [] := by
    intro ys
    induction ys with
    | nil => exact fun _ _ => rfl
    | cons y ys ih =>
      intro speaker? hys
      rw [forall_mem_cons] at hys
      rw [sites, hys.1, if_neg (by decide), if_neg (by decide)]
      exact ih speaker? hys.2
  induction xs generalizing speaker? with
  | nil => exact hends ys speaker? h
  | cons x xs ih =>
    rw [cons_append, sites, sites, ih, ih]

theorem exists_command_of_mem_sites {s : Site} (h : s ∈ sites speaker? cs) :
    ∃ x ∈ cs, x.2.opcode = textCode ∧ s.pointer = x.1 + 4 ∧ s.offset = x.2.argument := by
  induction cs generalizing speaker? with
  | nil => cases h
  | cons x cs ih =>
    obtain ⟨pos, c⟩ := x
    have hlater : ∀ speaker?, s ∈ sites speaker? cs →
        ∃ x ∈ (pos, c) :: cs, x.2.opcode = textCode ∧ s.pointer = x.1 + 4 ∧ s.offset = x.2.argument := fun speaker? hs => by
      obtain ⟨x, hx, hsite⟩ := ih hs
      exact ⟨x, mem_cons_of_mem _ hx, hsite⟩
    rw [sites] at h
    split at h
    · exact hlater _ h
    split at h
    · next htext =>
      rcases mem_cons.mp h with rfl | h
      · exact ⟨(pos, c), mem_cons_self, htext, rfl, rfl⟩
      · exact hlater _ h
    · exact hlater _ h

theorem pairwise_sites (speaker? : Option (Nat × Nat))
    (h : cs.Pairwise fun x y => x.1 + x.2.size ≤ y.1) (hsize : ∀ x ∈ cs, 4 ≤ x.2.size) :
    (sites speaker? cs).Pairwise fun s s' => s.pointer + 4 ≤ s'.pointer := by
  induction cs generalizing speaker? with
  | nil => exact .nil
  | cons x cs ih =>
    rw [pairwise_cons] at h
    rw [forall_mem_cons] at hsize
    rw [sites]
    split
    · exact ih _ h.2 hsize.2
    split
    · refine .cons ?_ (ih speaker? h.2 hsize.2)
      intro s hs
      obtain ⟨y, hy, -, hpointer, -⟩ := exists_command_of_mem_sites hs
      have hapart := h.1 y hy
      have hmin := hsize.1
      dsimp only at hapart hmin ⊢
      omega
    · exact ih speaker? h.2 hsize.2

/-- **The sites of the same commands with other arguments.** The speakers must be the same; then the
sites differ in their offsets only. -/
theorem sites_map {f : Nat × Command → Nat × Command} {offset : Site → Nat}
    (hf : ∀ x ∈ cs, (f x).1 = x.1 ∧ (f x).2.opcode = x.2.opcode ∧ (f x).2.tag = x.2.tag)
    (hspeaker : ∀ x ∈ cs, x.2.opcode = speakerCode → (f x).2.argument = x.2.argument)
    (htext : ∀ x ∈ cs, x.2.opcode = textCode → ∀ speaker?, (f x).2.argument = offset ⟨x.1 + 4, x.2.argument, speaker?⟩)
    (speaker? : Option (Nat × Nat)) :
    sites speaker? (cs.map f) = (sites speaker? cs).map fun s => { s with offset := offset s } := by
  induction cs generalizing speaker? with
  | nil => rfl
  | cons x cs ih =>
    rw [forall_mem_cons] at hf hspeaker htext
    obtain ⟨hpos, hop, htag⟩ := hf.1
    have hrest := ih hf.2 hspeaker.2 htext.2
    rw [map_cons, sites, sites, hop]
    split
    · next hcode => rw [htag, hspeaker.1 hcode, hrest]
    split
    · next hcode => rw [hpos, htext.1 hcode speaker?, hrest, map_cons]
    · exact hrest speaker?

/-! ### Items -/

variable {voices : VoiceTable} {names : Dialogue.Album} {data : Bytes}

theorem shown?_eq_some_iff : shown? data offset = some t ↔ shownText data offset = .ok (some t) := by
  rw [shown?]
  cases shownText data offset with
  | error e
  | ok shown => simp [Except.toOption]

theorem shownText_of_readable (h : ∃ shown, shownText data offset = .ok shown) :
    shownText data offset = .ok (shown? data offset) := by
  obtain ⟨shown, hshown⟩ := h
  rw [shown?, hshown]
  rfl

/-- **All texts are extracted, or extraction fails with the fault of one of them.** -/
theorem extractFrom_cases (voices : VoiceTable) (names : Dialogue.Album) (data : Bytes) (speaker? : Option (Nat × Nat))
    (cs : List (Nat × Command)) :
    ((∀ s ∈ sites speaker? cs, ∃ shown, shownText data s.offset = .ok shown) ∧
      extractFrom voices names data speaker? cs =
        .ok ((sites speaker? cs).filterMap fun s => (shown? data s.offset).map (s.item voices names))) ∨
    ∃ s ∈ sites speaker? cs, ∃ f, shownText data s.offset = .error f ∧
      extractFrom voices names data speaker? cs = .error f := by
  induction cs generalizing speaker? with
  | nil => exact .inl ⟨nofun, rfl⟩
  | cons x cs ih =>
    obtain ⟨pos, c⟩ := x
    by_cases hspeaker : c.opcode = speakerCode
    · simpa only [extractFrom, sites, if_pos hspeaker] using ih (some (c.tag, c.argument))
    by_cases htext : c.opcode = textCode
    · simp only [extractFrom, sites, if_neg hspeaker, if_pos htext]
      cases hshown : shownText data c.argument with
      | error f => exact .inr ⟨_, mem_cons_self, f, hshown, rfl⟩
      | ok shown =>
        rcases ih speaker? with ⟨hall, hrest⟩ | ⟨s, hs, f, hf, hrest⟩
        · refine .inl ⟨forall_mem_cons.mpr ⟨⟨shown, hshown⟩, hall⟩, ?_⟩
          rw [hrest, filterMap_cons, shown?, hshown]
          cases shown <;> rfl
        · exact .inr ⟨s, mem_cons_of_mem _ hs, f, hf, by rw [hrest]; rfl⟩
    · simpa only [extractFrom, sites, if_neg hspeaker, if_neg htext] using ih speaker?

/-- **Extraction succeeds exactly if each text can be read**, and gives the texts that are shown. -/
theorem extractFrom_eq_ok_iff : extractFrom voices names data speaker? cs = .ok items ↔
      (∀ s ∈ sites speaker? cs, ∃ shown, shownText data s.offset = .ok shown) ∧
        items = (sites speaker? cs).filterMap fun s => (shown? data s.offset).map (s.item voices names) := by
  rcases extractFrom_cases voices names data speaker? cs with ⟨hall, hok⟩ | ⟨s, hs, f, hf, herror⟩
  · rw [hok, Except.ok.injEq, eq_comm, and_iff_right hall]
  · rw [herror]
    refine ⟨nofun, fun h => ?_⟩
    obtain ⟨shown, hshown⟩ := h.1 s hs
    cases hf.symm.trans hshown

theorem pairwise_items {ss : List Site} (h : ss.Pairwise fun s s' => s.pointer + 4 ≤ s'.pointer) :
    (ss.filterMap fun s => (shown? data s.offset).map (s.item voices names)).Pairwise fun i j => i.pointer + 4 ≤ j.pointer := by
  refine h.filterMap _ fun s s' hle i hi j hj => ?_
  obtain ⟨_, -, rfl⟩ := Option.map_eq_some_iff.mp hi
  obtain ⟨_, -, rfl⟩ := Option.map_eq_some_iff.mp hj
  exact hle

/-! ### One text -/

theorem upTo_drop_eq_nil_iff : upTo 0 (data.drop offset) = [] ↔ data[offset]?.getD 0 = 0 := by
  rw [← head?_drop]
  cases data.drop offset with
  | nil => simp [upTo]
  | cons b bs => by_cases hb : b = 0 <;> simp [upTo, hb]

theorem textAt_eq (h : offset < data.length) : textAt data offset =
    (decode? (upTo 0 (data.drop offset))).elim (.error .undecodable) fun raw => .ok (escapeLine raw) := by
  have hin : ¬ ((decide ((offset : Int) < 0) || decide ((data.length : Int) ≤ offset)) = true) := by
    simp only [Bool.or_eq_true, decide_eq_true_eq, not_or]
    omega
  rw [textAt, if_neg hin, Int.toNat_natCast]
  cases decode? (upTo 0 (data.drop offset)) <;> rfl

theorem lt_length_of_byte (h : data[offset]?.getD 0 ≠ 0) : offset < data.length := by
  by_contra hge
  rw [getElem?_eq_none (by omega)] at h
  exact h rfl

theorem shownText_eq : shownText data offset =
    if offset = 0 ∨ data[offset]?.getD 0 = 0 then .ok none
    else (decode? (upTo 0 (data.drop offset))).elim (.error .undecodable) fun raw =>
      .ok ((some (escapeLine raw)).filter (· ≠ "■")) := by
  by_cases hskip : offset = 0 ∨ data[offset]?.getD 0 = 0
  · rw [shownText, if_pos (by simpa using hskip), if_pos hskip]
  · have hlt := lt_length_of_byte (not_or.mp hskip).2
    rw [shownText, if_neg (by simpa using hskip), if_neg hskip, textAt_eq hlt]
    cases decode? (upTo 0 (data.drop offset)) <;> rfl

/-- **When a text is shown:** it is the line that is written for what stands at the offset, unless
that is a mere mark. -/
theorem shownText_eq_some_iff :
    shownText data offset = .ok (some t) ↔
      offset ≠ 0 ∧ upTo 0 (data.drop offset) ≠ [] ∧ t ≠ "■" ∧
        ∃ raw, decode? (upTo 0 (data.drop offset)) = some raw ∧ escapeLine raw = t := by
  rw [shownText_eq, ne_eq (upTo 0 _), upTo_drop_eq_nil_iff]
  split
  · next hskip => exact ⟨nofun, fun h => (hskip.elim h.1 h.2.1).elim⟩
  · next hskip =>
    have hread := not_or.mp hskip
    cases decode? (upTo 0 (data.drop offset)) with
    | none => simp
    | some raw =>
      have hmark : (some (escapeLine raw)).filter (· ≠ ("■" : Text)) = some t ↔
          t ≠ "■" ∧ escapeLine raw = t := by
        rw [Option.filter_eq_some_iff, Option.some_inj, decide_eq_true_iff, and_comm]
      simpa [hread] using hmark

/-- **A text cannot be shown** exactly if an offset leads to one that is not of the code page. -/
theorem shownText_eq_error_iff : shownText data offset = .error f ↔
    f = .undecodable ∧ 0 < offset ∧ offset < data.length ∧ decode? (upTo 0 (data.drop offset)) = none := by
  rw [shownText_eq]
  split
  · next hskip =>
    refine ⟨fun h => (by cases h), fun ⟨_, hpos, _, hnone⟩ => ?_⟩
    rw [upTo_drop_eq_nil_iff.mpr (hskip.resolve_left (by omega))] at hnone
    cases hnone
  · next hskip =>
    have hlt := lt_length_of_byte (not_or.mp hskip).2
    have hpos : 0 < offset := by omega
    cases decode? (upTo 0 (data.drop offset)) <;> simp [hlt, hpos, eq_comm]

theorem lt_length_of_shownText (h : shownText data offset = .ok (some t)) :
    offset < data.length := by
  have hne := (shownText_eq_some_iff.mp h).2.1
  exact lt_length_of_byte fun hbyte => hne (upTo_drop_eq_nil_iff.mpr hbyte)

/-! ### Any bytes -/

theorem readKey_key (i : Item) : readKey i.key = .ok ((i.pointer : Int), (i.offset : Int)) := by
  have hkey : i.key = ('0' :: 'x' :: upperHex 1 i.pointer) ++ '_' :: ('0' :: 'x' :: upperHex 1 i.offset) := by
    simp [Item.key]
  have hsep : '_' ∉ '0' :: 'x' :: upperHex 1 i.pointer := by
    have hdigits : ∀ c ∈ upperHex 1 i.pointer, c ≠ '_' := forall_mem_upperHex (by decide)
    simp only [mem_cons, not_or]
    exact ⟨by decide, by decide, fun h => hdigits _ h rfl⟩
  rw [readKey, hkey, splitOnce?_append_sep hsep]
  simp only [readHex?_upperHex]

/-- **Extraction is safe on any bytes.** The commands that are read lie within them. The texts are
extracted, or one of them is not of the code page. The keys of the items say in ascending order
where the pointers stand and where they lead: each pointer lies within the bytes and holds the
offset of a text there, which is the text of the item. -/
theorem extract_safe (voices : VoiceTable) (names : Dialogue.Album) (data : Bytes) :
    (∀ x ∈ commands data, x.1 + x.2.size ≤ data.length) ∧
      ((∃ items, extract voices names data = .ok items ∧ (items.map Item.pointer).Pairwise (· < ·) ∧
        ∀ i ∈ items, readKey i.key = .ok ((i.pointer : Int), (i.offset : Int)) ∧ i.pointer + 4 ≤ data.length ∧
          0 < i.offset ∧ i.offset < data.length ∧ Word.u32At data i.pointer = i.offset ∧
          textAt data i.offset = .ok i.text) ∨
      extract voices names data = .error .undecodable ∧ ∃ x ∈ commands data, x.2.opcode = textCode ∧
        0 < x.2.argument ∧ x.2.argument < data.length ∧ Cp932.decode? (upTo 0 (data.drop x.2.argument)) = none) := by
  obtain ⟨hpairs, hmem⟩ := pairwise_commandsFrom 2 0 data
  have hbounds : ∀ x ∈ commands data, 4 ≤ x.2.size ∧ x.1 + x.2.size ≤ data.length := by
    intro x hx
    obtain ⟨hmin, hlen⟩ := size_le_of_command? (hmem x hx).1
    rw [length_drop] at hlen
    omega
  refine ⟨fun x hx => (hbounds x hx).2, ?_⟩
  rcases extractFrom_cases voices names data none (commands data) with ⟨-, hok⟩ | ⟨s, hs, f, hf, herror⟩
  · have hsites := pairwise_sites none hpairs fun x hx => (hbounds x hx).1
    refine .inl ⟨_, hok, pairwise_map.mpr ((pairwise_items hsites).imp fun h => by omega), fun i hi => ?_⟩
    obtain ⟨s, hs, hitem⟩ := mem_filterMap.mp hi
    obtain ⟨t, ht, rfl⟩ := Option.map_eq_some_iff.mp hitem
    have hshown := shown?_eq_some_iff.mp ht
    have hlt := lt_length_of_shownText hshown
    obtain ⟨hne, -, -, raw, hraw, rfl⟩ := shownText_eq_some_iff.mp hshown
    obtain ⟨x, hx, -, hpointer, hoffset⟩ := exists_command_of_mem_sites hs
    obtain ⟨hsize, hargument⟩ := argument_of_ne_zero (hmem x hx).1 (hoffset ▸ hne)
    have hend := (hbounds x hx).2
    dsimp only [Site.item]
    refine ⟨readKey_key _, by omega, Nat.pos_of_ne_zero hne, hlt, ?_, by rw [textAt_eq hlt, hraw]; rfl⟩
    rw [Word.u32At, drop_drop] at hargument
    rw [hpointer, hoffset, hargument, Word.u32At]
  · obtain ⟨rfl, hpos, hlt, hnone⟩ := shownText_eq_error_iff.mp hf
    obtain ⟨x, hx, hcode, -, hoffset⟩ := exists_command_of_mem_sites hs
    rw [hoffset] at hpos hlt hnone
    exact .inr ⟨herror, x, hx, hcode, hpos, hlt, hnone⟩

/-! ### A text laid down again -/

/-- The bytes of a text before the zero that ends it, empty if it has none. -/
def code (t : Text) : Bytes := (encode? (unescapeLine t)).getD []

/-- A text that is found again where it was laid down. -/
structure Survives (t : Text) : Prop where
  terminated_eq : terminated t = .ok (code t ++ [0])
  zero_not_mem : 0 ∉ code t
  code_ne_nil : code t ≠ []
  ne_mark : t ≠ "■"
  decode?_code : ∃ raw, decode? (code t) = some raw ∧ escapeLine raw = t

theorem decode?_ne_nil (h : bs ≠ []) : decode? bs ≠ some [] := by
  obtain ⟨b, bs, rfl⟩ := exists_cons_of_ne_nil h
  intro hnil
  obtain ⟨_, _, hnil⟩ := Option.bind_eq_some_iff.mp hnil
  obtain ⟨_, _, hnil⟩ := Option.bind_eq_some_iff.mp hnil
  cases hnil

theorem comesBack_of_escapeLine {raw : Text} (h : ComesBack (escapeLine raw)) : ComesBack raw := by
  rw [comesBack_iff] at h ⊢
  intro c hc
  by_cases hbreak : c = '\n'
  · subst hbreak
    decide
  · refine h c ?_
    rw [escapeLine_eq, mem_flatMap]
    exact ⟨c, hc, by rw [if_neg hbreak]; exact mem_singleton_self c⟩

/-- **A text that is shown survives** if it comes back from the code page and holds no written line
feed. -/
theorem survives_of_shownText (h : shownText data offset = .ok (some t))
    (hbreak : ∀ raw, decode? (upTo 0 (data.drop offset)) = some raw → ¬ writtenBreak <:+: raw)
    (hback : ComesBack t) : Survives t := by
  obtain ⟨-, hne, hmark, raw, hraw, rfl⟩ := shownText_eq_some_iff.mp h
  have hline : unescapeLine (escapeLine raw) = raw := unescapeLine_escapeLine (hbreak raw hraw)
  obtain ⟨bs, hencode, hdecode⟩ := Option.bind_eq_some_iff.mp (comesBack_of_escapeLine hback)
  have hcode : code (escapeLine raw) = bs := by rw [code, hline, hencode, Option.getD_some]
  have hzero : 0 ∉ upTo 0 (data.drop offset) := fun hmem => by simpa using mem_takeWhile_imp hmem
  refine ⟨?_, ?_, ?_, hmark, raw, by rw [hcode, hdecode], rfl⟩
  · have hwritten : replace writtenBreak ['\n'] (escapeLine raw) = raw := hline
    rw [terminated, hwritten, hencode, hcode]
  · rw [hcode, ← encodeLossy_of_encode? hencode]
    exact zero_not_mem_encodeLossy (zero_not_mem_decode? hraw hzero)
  · rw [hcode]
    rintro rfl
    cases hdecode
    exact decode?_ne_nil hne hraw

theorem survives_of_extract (h : extract voices names data = .ok items)
    (hbreak : ∀ i ∈ items, ∀ raw, decode? (upTo 0 (data.drop i.offset)) = some raw → ¬ writtenBreak <:+: raw)
    (hback : ∀ i ∈ items, ComesBack i.text) : ∀ i ∈ items, Survives i.text := by
  intro i hi
  obtain ⟨-, hitems⟩ := extractFrom_eq_ok_iff.mp h
  obtain ⟨s, -, hs⟩ := mem_filterMap.mp (hitems ▸ hi)
  obtain ⟨t, ht, rfl⟩ := Option.map_eq_some_iff.mp hs
  exact survives_of_shownText (shown?_eq_some_iff.mp ht) (hbreak _ hi) (hback _ hi)

theorem upTo_eq_of_terminated {code : Bytes} (h : code ++ [0] <+: bs) (hzero : 0 ∉ code) :
    upTo 0 bs = code := by
  obtain ⟨rest, rfl⟩ := h
  rw [upTo, append_assoc, takeWhile_append_of_pos]
  · simp
  · exact fun b hb => decide_eq_true fun hb0 => hzero (hb0 ▸ hb)

theorem Survives.shownText_eq (h : Survives t) {new rest : Bytes} {n : Nat} (hn : n ≠ 0)
    (hdrop : new.drop n = code t ++ [0] ++ rest) : shownText new n = .ok (some t) := by
  have hcode : upTo 0 (new.drop n) = code t := upTo_eq_of_terminated ⟨rest, hdrop.symm⟩ h.zero_not_mem
  rw [shownText_eq_some_iff, hcode]
  exact ⟨hn, h.code_ne_nil, h.ne_mark, h.decode?_code⟩

/-! ## Texts put back

The texts that were extracted from an opening are put back unchanged. From the first of their
offsets on everything is laid anew, and only the pointers of these texts are changed. So each of
them is found again. But a pointer whose text was passed over stays as it was, and may now lead to
another text: the same texts are extracted again exactly if none of these pointers leads to a text
that is shown. -/

open Word Item

/-! ### The opening that is laid anew -/

def laid (items : List Item) : List (Nat × Bytes) :=
  items.map fun i => (i.pointer, code i.text ++ [0])

theorem laid_cons (i : Item) (items : List Item) :
    laid (i :: items) = (i.pointer, code i.text ++ [0]) :: laid items := rfl

/-- The opening with the texts of items laid from the first of their offsets on. -/
def rebuilt (data : Bytes) (items : List Item) : Bytes :=
  (items.map Item.offset).min?.elim data fun first => layout (laid items) (data.take first)

/-- Items that were extracted from commands, all of which stand before the texts: the last one, at
`p`, ends the second part. -/
structure Extracted (voices : VoiceTable) (names : Dialogue.Album) (data : Bytes)
    (body : List (Nat × Command)) (p : Nat) (items : List Item) : Prop where
  endsAt : EndsAt data 2 0 body p
  readable : ∀ s ∈ sites none body, ∃ shown, shownText data s.offset = .ok shown
  items_eq : items = (sites none body).filterMap fun s => (shown? data s.offset).map (s.item voices names)
  lt_offset : ∀ i ∈ items, p < i.offset

section

variable {voices : VoiceTable} {names : Dialogue.Album} {data : Bytes} {body : List (Nat × Command)} {p : Nat}
  {items : List Item}

theorem eq_nil_or_extracted (hextract : extract voices names data = .ok items)
    (hend : ∀ i ∈ items, ∃ p, endPosition? data = some p ∧ p < i.offset) :
    items = [] ∨
      ∃ body p, sites none (commands data) = sites none body ∧
      Extracted voices names data body p items := by
  rcases eq_nil_or_concat items with hnil | ⟨_, i, hitems⟩
  · exact .inl hnil
  obtain ⟨p, hp, -⟩ := hend i (by rw [hitems]; simp)
  obtain ⟨body, hbody⟩ := exists_endsAt hp
  have hsites : sites none (commands data) = sites none body := by
    obtain ⟨c, hcode, -, hcommands⟩ := hbody.commandsFrom_eq
    rw [drop_zero] at hcommands
    rw [commands, hcommands, sites_append_ends]
    intro y hy
    rw [mem_singleton.mp hy, hcode]
  obtain ⟨hreadable, hitems⟩ := extractFrom_eq_ok_iff.mp hextract
  rw [hsites] at hreadable hitems
  refine .inr ⟨body, p, hsites, hbody, hreadable, hitems, ?_⟩
  intro j hj
  obtain ⟨q, hq, hlt⟩ := hend j hj
  rwa [Option.some.inj (hp.symm.trans hq)]

/-- Where a site leads in other bytes: the pointers of items are read anew. -/
def movedOffset (new : Bytes) (items : List Item) (s : Site) : Nat :=
  if s.pointer ∈ items.map Item.pointer then u32At new s.pointer else s.offset

namespace Extracted

variable (h : Extracted voices names data body p items) {i : Item} {x : Nat × Command} {s : Site}
include h

theorem mem_items_iff :
    i ∈ items ↔
      ∃ s ∈ sites none body, ∃ t, shownText data s.offset = .ok (some t) ∧
      s.item voices names t = i := by
  simp [h.items_eq, shown?_eq_some_iff]

theorem exists_command (hi : i ∈ items) :
    ∃ x ∈ body, x.2.opcode = textCode ∧ 8 ≤ x.2.size ∧ i.pointer = x.1 + 4 ∧
      i.offset = x.2.argument := by
  obtain ⟨s, hs, t, ht, rfl⟩ := h.mem_items_iff.mp hi
  obtain ⟨x, hx, hcode, hpointer, hoffset⟩ := exists_command_of_mem_sites hs
  have hne := (shownText_eq_some_iff.mp ht).1
  exact ⟨x, hx, hcode, (argument_of_ne_zero (h.endsAt.of_mem.2 x hx).1 (hoffset ▸ hne)).1, hpointer, hoffset⟩

theorem pointer_add_le (hi : i ∈ items) : i.pointer + 4 ≤ p := by
  obtain ⟨x, hx, -, hsize, hpointer, -⟩ := h.exists_command hi
  have hend := (h.endsAt.of_mem.2 x hx).2
  omega

theorem pointer_lt (hi : i ∈ items) : i.pointer < 0x100000000 := by
  obtain ⟨x, hx, -, -, -, hoffset⟩ := h.exists_command hi
  have hle := h.pointer_add_le hi
  have hlt := h.lt_offset i hi
  have hargument := (argument_of_ne_zero (h.endsAt.of_mem.2 x hx).1 (by omega)).2
  have hword := u32At_lt (data.drop x.1) 4
  omega

theorem offset_lt_length (hi : i ∈ items) : i.offset < data.length := by
  obtain ⟨s, -, t, ht, rfl⟩ := h.mem_items_iff.mp hi
  exact lt_length_of_shownText ht

theorem of_first {first : Nat} (hfirst : (items.map Item.offset).min? = some first) :
    p < first ∧ (data.take first).length = first ∧
      ∀ x ∈ laid items, x.1 + 4 ≤ (data.take first).length := by
  obtain ⟨hmem, -⟩ := min?_eq_some_iff.mp hfirst
  obtain ⟨i, hi, rfl⟩ := mem_map.mp hmem
  have hlt := h.lt_offset i hi
  have hlen : (data.take i.offset).length = i.offset := by
    rw [length_take]
    exact Nat.min_eq_left (h.offset_lt_length hi).le
  refine ⟨hlt, hlen, ?_⟩
  intro x hx
  obtain ⟨j, hj, rfl⟩ := mem_map.mp hx
  have hle := h.pointer_add_le hj
  omega

/-- Without items the opening is kept. Otherwise they are laid behind bytes that hold the commands.
-/
theorem rebuilt_cases :
    (items = [] ∧ rebuilt data items = data) ∨
      ∃ bs, rebuilt data items = layout (laid items) bs ∧ p < bs.length ∧ (∀ k ≤ p, bs[k]? = data[k]?) ∧
        ∀ x ∈ laid items, x.1 + 4 ≤ bs.length := by
  cases hfirst : (items.map Item.offset).min? with
  | none =>
    rw [min?_eq_none_iff, map_eq_nil_iff] at hfirst
    subst hfirst
    exact .inl ⟨rfl, rfl⟩
  | some first =>
    obtain ⟨hlt, hlen, hfits⟩ := h.of_first hfirst
    refine .inr ⟨data.take first, ?_, by omega, ?_, hfits⟩
    · rw [rebuilt, hfirst, Option.elim_some]
    · intro k hk
      rw [getElem?_take_of_lt (by omega)]

theorem getElem?_rebuilt {k : Nat} (hk : k ≤ p)
    (hout : ∀ i ∈ items, k < i.pointer ∨ i.pointer + 4 ≤ k) :
    (rebuilt data items)[k]? = data[k]? := by
  rcases h.rebuilt_cases with ⟨-, hsame⟩ | ⟨bs, hnew, hlt, hbs, hfits⟩
  · rw [hsame]
  · rw [hnew, getElem?_layout hfits (by omega), hbs k hk]
    intro x hx
    obtain ⟨i, hi, rfl⟩ := mem_map.mp hx
    exact hout i hi

theorem lt_length_rebuilt : p < (rebuilt data items).length := by
  rcases h.rebuilt_cases with ⟨-, hsame⟩ | ⟨bs, hnew, hlt, -, hfits⟩
  · rw [hsame]
    exact h.endsAt.lt_length
  · rw [hnew, length_layout hfits]
    omega

theorem pairwise_sites : (sites none body).Pairwise fun s s' => s.pointer + 4 ≤ s'.pointer :=
  Opening.pairwise_sites none h.endsAt.pairwise fun x hx => (size_le_of_command? (h.endsAt.of_mem.2 x hx).1).1

theorem pairwise_laid : (laid items).Pairwise fun x y => x.1 + 4 ≤ y.1 := by
  rw [laid, pairwise_map, h.items_eq]
  exact pairwise_items h.pairwise_sites

/-! ### The commands in it -/

theorem pointer_apart (hi : i ∈ items) (hx : x ∈ body) :
    i.pointer = x.1 + 4 ∨ x.1 + x.2.size + 4 ≤ i.pointer ∨ i.pointer + 4 ≤ x.1 := by
  obtain ⟨y, hy, -, hsize, hpointer, -⟩ := h.exists_command hi
  rcases h.endsAt.apart hx hy with rfl | hxy | hyx
  · exact .inl hpointer
  · exact .inr (.inl (by omega))
  · exact .inr (.inr (by omega))

theorem of_pointer_eq (hi : i ∈ items) (hx : x ∈ body) (hpointer : i.pointer = x.1 + 4) :
    x.2.opcode = textCode ∧ 8 ≤ x.2.size ∧ i.offset = x.2.argument := by
  obtain ⟨y, hy, hcode, hsize, hy4, hoffset⟩ := h.exists_command hi
  have hmin := (size_le_of_command? (h.endsAt.of_mem.2 x hx).1).1
  rcases h.endsAt.apart hx hy with rfl | hxy | hyx
  · exact ⟨hcode, hsize, hoffset⟩
  · omega
  · omega

theorem header_kept (hx : x ∈ body) :
    ((rebuilt data items).drop x.1).take 4 = (data.drop x.1).take 4 := by
  obtain ⟨hc, hend⟩ := h.endsAt.of_mem.2 x hx
  have hmin := (size_le_of_command? hc).1
  refine take_drop_congr ?_
  intro k hle hlt
  refine h.getElem?_rebuilt (by omega) ?_
  intro i hi
  rcases h.pointer_apart hi hx with hpointer | hbefore | hafter
  · omega
  · omega
  · omega

theorem argument_kept (hx : x ∈ body) (hno : ∀ i ∈ items, i.pointer ≠ x.1 + 4) :
    argumentAt ((rebuilt data items).drop x.1) x.2.size = x.2.argument := by
  obtain ⟨hc, hend⟩ := h.endsAt.of_mem.2 x hx
  rw [argument_of_command? hc, argumentAt, argumentAt]
  split
  · rfl
  · have hbytes : ((rebuilt data items).drop (x.1 + 4)).take 4 = (data.drop (x.1 + 4)).take 4 := by
      refine take_drop_congr ?_
      intro k hle hlt
      refine h.getElem?_rebuilt (by omega) ?_
      intro i hi
      rcases h.pointer_apart hi hx with hpointer | hbefore | hafter
      · exact absurd hpointer (hno i hi)
      · omega
      · omega
    rw [u32At, u32At, drop_drop, drop_drop, hbytes]

/-- **The sites are the same**, except where those of the items lead. -/
theorem sites_rebuilt :
    sites none (commands (rebuilt data items)) =
      (sites none body).map fun s => { s with offset := movedOffset (rebuilt data items) items s } := by
  have hop : (rebuilt data items)[p]? = some 0 := by
    obtain ⟨_, -, hop, -⟩ := h.endsAt.commandsFrom_eq
    rw [h.getElem?_rebuilt (Nat.le_refl p), hop]
    intro i hi
    exact .inr (h.pointer_add_le hi)
  obtain ⟨rest, hcommands, hrest⟩ := commandsFrom_of_kept h.endsAt (fun x hx => h.header_kept hx)
    h.lt_length_rebuilt.le hop
  rw [drop_zero] at hcommands
  rw [commands, hcommands, sites_append_ends none _ hrest]
  refine sites_map ?_ ?_ ?_ none
  · exact fun x _ => ⟨rfl, rfl, rfl⟩
  · intro x hx hspeaker
    refine h.argument_kept hx ?_
    intro i hi hpointer
    exact absurd (hspeaker.symm.trans (h.of_pointer_eq hi hx hpointer).1) (by decide)
  · intro x hx _ speaker?
    rw [movedOffset]
    split
    · next hmem =>
      obtain ⟨i, hi, hpointer⟩ := mem_map.mp hmem
      obtain ⟨-, hsize, -⟩ := h.of_pointer_eq hi hx hpointer
      rw [reread, argumentAt, if_neg (by omega), u32At, u32At, drop_drop]
    · next hmem => exact h.argument_kept hx fun i hi hpointer => hmem (mem_map.mpr ⟨i, hi, hpointer⟩)

/-! ### The texts in it -/

theorem pointer_mem_iff (hs : s ∈ sites none body) :
    s.pointer ∈ items.map pointer ↔ ∃ t, shownText data s.offset = .ok (some t) := by
  constructor
  · intro hmem
    obtain ⟨i, hi, hpointer⟩ := mem_map.mp hmem
    obtain ⟨x, hx, -, hsx, hoffset⟩ := exists_command_of_mem_sites hs
    have hsame := (h.of_pointer_eq hi hx (hpointer.trans hsx)).2.2
    obtain ⟨s', -, t, ht, rfl⟩ := h.mem_items_iff.mp hi
    exact ⟨t, by rw [hoffset, ← hsame]; exact ht⟩
  · rintro ⟨t, ht⟩
    exact mem_map.mpr ⟨_, h.mem_items_iff.mpr ⟨s, hs, t, ht, rfl⟩, rfl⟩

theorem movedOffset_of_none (hs : s ∈ sites none body) (hnone : shownText data s.offset = .ok none)
    (new : Bytes) : movedOffset new items s = s.offset := by
  refine if_neg fun hmem => ?_
  obtain ⟨t, ht⟩ := (h.pointer_mem_iff hs).mp hmem
  cases hnone.symm.trans ht

/-- **Each text that was shown is shown again.** -/
theorem shownText_movedOffset (hsurvive : ∀ i ∈ items, Survives i.text)
    (hfits : (rebuilt data items).length ≤ 0x100000000) (hs : s ∈ sites none body) {t : Text}
    (ht : shownText data s.offset = .ok (some t)) :
    shownText (rebuilt data items) (movedOffset (rebuilt data items) items s) = .ok (some t) := by
  have hi : s.item voices names t ∈ items := h.mem_items_iff.mpr ⟨s, hs, t, ht, rfl⟩
  rw [movedOffset, if_pos ((h.pointer_mem_iff hs).mpr ⟨t, ht⟩)]
  rcases h.rebuilt_cases with ⟨hnil, -⟩ | ⟨bs, hnew, hlt, -, hroom⟩
  · simp [hnil] at hi
  have hmem : (s.pointer, code t ++ [0]) ∈ laid items := mem_map_of_mem hi
  have hne : ∀ x ∈ laid items, x.2 ≠ [] := by simp [laid]
  rw [hnew] at hfits ⊢
  obtain ⟨hle, rest, htext⟩ := leads_layout hroom (h.pairwise_laid.imp .inl) hne hfits hmem
  exact (hsurvive _ hi).shownText_eq (Nat.pos_iff_ne_zero.mp (Nat.lt_of_lt_of_le (by omega) hle)) htext.symm

end Extracted

def Item.content (i : Item) : Nat × Text × Text := (i.pointer, i.text, i.context)

def Site.content (voices : VoiceTable) (names : Dialogue.Album) (s : Site) (t : Text) :
    Nat × Text × Text :=
  (s.pointer, t, contextOf voices names s.speaker?)

theorem map_content_items (new : Bytes) (ss : List Site) :
    (ss.filterMap fun s => (shown? new s.offset).map (s.item voices names)).map content =
      ss.filterMap fun s => (shown? new s.offset).map (s.content voices names) := by
  rw [map_filterMap]
  simp only [Option.map_map]
  rfl

theorem content_inj {s : Site} {t t' : Option Text} :
    t.map (s.content voices names) = t'.map (s.content voices names) ↔ t = t' := by
  refine (Option.map_injective ?_).eq_iff
  intro t t' h
  exact congrArg (fun c => c.2.1) h

theorem filterMap_eq_filterMap_iff {α β : Type} {f g : α → Option β} {key : α → Nat}
    {keyOf : β → Nat} {l : List α} (hf : ∀ a b, f a = some b → keyOf b = key a)
    (hg : ∀ a b, g a = some b → keyOf b = key a) (hl : l.Pairwise fun a a' => key a < key a') :
    l.filterMap f = l.filterMap g ↔ ∀ a ∈ l, f a = g a := by
  -- what is found later has a greater key
  have hlater : ∀ {f : α → Option β} {a : α} {l : List α} {b : β}, (∀ a b, f a = some b → keyOf b = key a) →
      (∀ a' ∈ l, key a < key a') → keyOf b = key a → b ∉ l.filterMap f := by
    intro f a l b hf hlt hb hmem
    obtain ⟨a', ha', hfound⟩ := mem_filterMap.mp hmem
    have := hlt a' ha'
    have := hf a' b hfound
    omega
  induction l with
  | nil => simp
  | cons a l ih =>
    rw [pairwise_cons] at hl
    rw [forall_mem_cons]
    refine Iff.trans ?_ (and_congr_right fun _ => ih hl.2)
    cases hfa : f a with
    | none =>
      rw [filterMap_cons_none hfa]
      cases hga : g a with
      | none => simp [filterMap_cons_none hga]
      | some b =>
        rw [filterMap_cons_some hga]
        have hb := hlater hf hl.1 (hg a b hga)
        exact ⟨fun h => absurd (h ▸ mem_cons_self) hb, fun h => absurd h.1 (by simp)⟩
    | some b =>
      rw [filterMap_cons_some hfa]
      cases hga : g a with
      | none =>
        rw [filterMap_cons_none hga]
        have hb := hlater hg hl.1 (hf a b hfa)
        exact ⟨fun h => absurd (h ▸ mem_cons_self) hb, fun h => absurd h.1 (by simp)⟩
      | some b' => rw [filterMap_cons_some hga, cons.injEq, Option.some_inj]

/-- **The same texts are extracted again exactly if each site leads to what it led to before.** -/
theorem Extracted.extract_rebuilt_iff (h : Extracted voices names data body p items) :
    (∃ items', extract voices names (rebuilt data items) = .ok items' ∧ items'.map content = items.map content) ↔
      ∀ s ∈ sites none body,
        shownText (rebuilt data items) (movedOffset (rebuilt data items) items s) = shownText data s.offset := by
  have hcontent := (congrArg (map content) h.items_eq).trans (map_content_items data (sites none body))
  -- contents tell the pointers of their sites, so the lists are the same only site by site
  have hpointer : ∀ (shown : Site → Option Text) (s : Site) (c : Nat × Text × Text),
      (shown s).map (s.content voices names) = some c → c.1 = s.pointer := by
    intro shown s c hc
    obtain ⟨t, -, rfl⟩ := Option.map_eq_some_iff.mp hc
    rfl
  have hlists := filterMap_eq_filterMap_iff
    (hpointer fun s => shown? (rebuilt data items) (movedOffset (rebuilt data items) items s))
    (hpointer fun s => shown? data s.offset) (h.pairwise_sites.imp fun hle => by omega)
  simp only [content_inj] at hlists
  constructor
  · rintro ⟨items', hextract, heq⟩ s hs
    obtain ⟨hreadable, rfl⟩ := extractFrom_eq_ok_iff.mp hextract
    rw [map_content_items, h.sites_rebuilt, filterMap_map, hcontent] at heq
    rw [h.sites_rebuilt, forall_mem_map] at hreadable
    rw [shownText_of_readable (hreadable s hs), shownText_of_readable (h.readable s hs), hlists.mp heq s hs]
  · intro hleads
    have hreadable : ∀ s ∈ sites none (commands (rebuilt data items)), ∃ shown,
        shownText (rebuilt data items) s.offset = .ok shown := by
      rw [h.sites_rebuilt, forall_mem_map]
      intro s hs
      rw [hleads s hs]
      exact h.readable s hs
    refine ⟨_, extractFrom_eq_ok_iff.mpr ⟨hreadable, rfl⟩, ?_⟩
    rw [map_content_items, h.sites_rebuilt, filterMap_map, hcontent]
    refine hlists.mpr fun s hs => ?_
    rw [shown?, hleads s hs, shown?]

theorem extract_rebuilt_iff (hextract : extract voices names data = .ok items)
    (hend : ∀ i ∈ items, ∃ p, endPosition? data = some p ∧ p < i.offset) :
    (∃ items', extract voices names (rebuilt data items) = .ok items' ∧ items'.map content = items.map content) ↔
      ∀ s ∈ sites none (commands data),
        shownText (rebuilt data items) (movedOffset (rebuilt data items) items s) = shownText data s.offset := by
  rcases eq_nil_or_extracted hextract hend with rfl | ⟨body, p, hsites, h⟩
  · exact ⟨fun _ s _ => rfl, fun _ => ⟨[], hextract, rfl⟩⟩
  · rw [hsites]
    exact h.extract_rebuilt_iff

theorem forall_leads_iff (hextract : extract voices names data = .ok items)
    (hend : ∀ i ∈ items, ∃ p, endPosition? data = some p ∧ p < i.offset) (hsurvive : ∀ i ∈ items, Survives i.text)
    (hfits : (rebuilt data items).length ≤ 0x100000000) :
    (∀ s ∈ sites none (commands data),
        shownText (rebuilt data items) (movedOffset (rebuilt data items) items s) = shownText data s.offset) ↔
      ∀ s ∈ sites none (commands data),
        shownText data s.offset = .ok none → shownText (rebuilt data items) s.offset = .ok none := by
  rcases eq_nil_or_extracted hextract hend with rfl | ⟨body, p, hsites, h⟩
  · exact ⟨fun _ s _ hnone => hnone, fun _ s _ => rfl⟩
  rw [hsites]
  refine forall₂_congr fun s hs => ?_
  obtain ⟨shown, hshown⟩ := h.readable s hs
  rw [hshown]
  cases shown with
  | none => rw [h.movedOffset_of_none hs hshown]; simp
  | some t => simp [h.shownText_movedOffset hsurvive hfits hs hshown]

end

end Localizer.Opening
