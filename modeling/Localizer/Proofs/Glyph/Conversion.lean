import Localizer.Proofs.Glyph
import Localizer.Proofs.Workspace

/-!
# Converted texts have an encoding

A converted text can always be written in the code page, and its bytes can be read off the lines of
the glyph table (`shownBytes`): a character keeps its own bytes if it is not among those that a font
may redraw, else it has the two bytes of the code on its last line, and a question mark if it has no
line. What became a question mark, and nothing else, is added to the log (`encode?_converted`).

The log is written as UTF-8, which has no halves of surrogate pairs. If a replacement puts such a
half into the text, the conversion fails when the half is logged (`not_yields_run_half`).
-/

namespace Localizer.Glyph

open List hiding splitOn
open Text Encoding Job Utf8 Localizer.Path Workspace

variable {c : Char} {cs : List Char}
variable {t : Text} {items : List Text} {rules : Rules}

/-! ### Bytes -/

/-- Whether a character keeps its own code, given the entries of a table. -/
def keepsCode (es : List (Char × Nat)) (c : Char) : Bool :=
  (code? c).any fun n => es.isEmpty || n < firstCode

def isShown (es : List (Char × Nat)) (c : Char) : Bool := keepsCode es c || (lastCode? c es).isSome

/-- The bytes that a character is written as, given the entries of a table: its own ones, those of
the code on its last line, or a question mark. -/
def shownBytes (es : List (Char × Nat)) (c : Char) : Bytes :=
  if keepsCode es c then (Cp932.encodeChar? c).getD [] else ((lastCode? c es).map codeBytes).getD [0x3F]

section

variable {src : Text} {table : GlyphTable}

variable (h : readTable src = .ok table)
include h

theorem showChar?_of_keepsCode (hc : keepsCode (entries src) c = true) :
    showChar? table c = some [c] ∧ (Cp932.encodeChar? c).isSome = true := by
  obtain ⟨n, hn⟩ := Option.isSome_iff_exists.mp (Option.isSome_of_any hc)
  rw [keepsCode, hn, Option.any_some, ← isEmpty_of_readTable h] at hc
  refine ⟨?_, ?_⟩
  · rw [showChar?, hn]
    exact if_pos hc
  · obtain ⟨bs, hbs, -⟩ := Option.map_eq_some_iff.mp hn
    rw [hbs]
    rfl

theorem showChar?_of_not_keepsCode (hc : keepsCode (entries src) c = false) :
    showChar? table c = Assoc.get? c table := by
  rw [keepsCode, Option.any_eq_false, ← isEmpty_of_readTable h] at hc
  unfold showChar?
  split
  · next n hn => exact if_neg (by simpa using hc n hn)
  · rfl

/-- **What a character becomes has the bytes that the entries say.** -/
theorem encode?_shown (c : Char) :
    Cp932.encode? ((showChar? table c).getD "?") = some (shownBytes (entries src) c) := by
  unfold shownBytes
  by_cases hc : keepsCode (entries src) c = true
  · obtain ⟨hshow, hsome⟩ := showChar?_of_keepsCode h hc
    obtain ⟨bs, hbs⟩ := Option.isSome_iff_exists.mp hsome
    rw [if_pos hc, hshow, Option.getD_some, Cp932.encode?_singleton, hbs, Option.getD_some]
  · rw [if_neg hc, showChar?_of_not_keepsCode h (by simpa using hc)]
    rcases get?_of_readTable h c with ⟨hlast, hget⟩ | ⟨code, t, hlast, htext, hget⟩
    · rw [hlast, hget]
      decide
    · rw [hlast, hget]
      exact encode?_of_textOfCode? htext

theorem isNone_showChar? (c : Char) : (showChar? table c).isNone = !isShown (entries src) c := by
  unfold isShown
  by_cases hc : keepsCode (entries src) c = true
  · simp [hc, (showChar?_of_keepsCode h hc).1]
  · rw [Bool.not_eq_true] at hc
    rw [showChar?_of_not_keepsCode h hc, hc]
    rcases get?_of_readTable h c with ⟨hlast, hget⟩ | ⟨code, t, hlast, -, hget⟩
    · simp [hlast, hget]
    · simp [hlast, hget]

theorem mem_unshown : c ∈ unshown table t ↔ c ∈ t ∧ isShown (entries src) c = false := by
  rw [unshown, inAscendingOrder, mem_mergeSort, mem_eraseDups, mem_filter, isNone_showChar? h,
    Bool.not_eq_true']

end

/-! ### The log -/

def logBytes (ws : Workspace) : Bytes := ((ws.file? logPath).map File.bytes).getD []

def logLines (ws : Workspace) : List Text := lines (unifyNewlines (decodeLossy (logBytes ws)))

def logPlace (ws : Workspace) : Place := parts ws.cwd ++ [logPath]

section

variable {ws : Workspace}

theorem locate_logPath (ws : Workspace) :
    ws.locate logPath (splitOn '/' logPath) = .ok (logPlace ws) := by
  have hnames : splitOn '/' logPath = [logPath] := by decide
  have hsize : ¬ maxNameSize < (encode logPath).length := by decide
  have hplain : (logPath.isEmpty || decide (logPath = ("." : Text))) = false ∧ logPath ≠ (".." : Text) := by decide
  unfold locate
  rw [hnames, if_neg (by decide), if_neg (by decide), if_neg (by decide), if_neg (by decide), if_neg (by decide),
    follow, node?_cwd]
  rfl

theorem site_logPath (ws : Workspace) : ws.site logPath = .ok (logPlace ws) :=
  (site_eq_locate (by decide)).trans (locate_logPath ws)

theorem look_logPath (ws : Workspace) :
    ws.look logPath = (ws.node? (logPlace ws)).elim (.error .noSuchFile) .ok := by
  simp only [look, locate_logPath ws, bind, Except.bind]
  cases ws.node? (logPlace ws) <;> rfl

theorem look_logPath_cases (h : ws.isDir logPath = false) :
    ws.hasDir (logPlace ws) = false ∧
      ((∃ f, ws.look logPath = .ok (.file f)) ∨ ws.look logPath = .error .noSuchFile) := by
  have hlook := look_logPath ws
  cases hnode : ws.node? (logPlace ws) with
  | none =>
    refine ⟨?_, .inr (by rw [hlook, hnode]; rfl)⟩
    rw [← Bool.not_eq_true]
    intro hdir
    simp [node?_of_hasDir hdir] at hnode
  | some n =>
    cases n with
    | file f =>
      refine ⟨?_, .inl ⟨f, by rw [hlook, hnode]; rfl⟩⟩
      rw [← Bool.not_eq_true]
      intro hdir
      simp [node?_of_hasDir hdir] at hnode
    | directory =>
      rw [isDir, hlook, hnode] at h
      cases h

theorem yields_makeDirs_here (ws : Workspace) : Yields (makeDirs ".") ws () ws := by
  have hget : (get : Job Workspace).run.run ws = (.ok ws, ws) := rfl
  have hmake : (makeDir ".").run.run ws = (.error .fileExists, ws) := by
    have hsite : ws.site "." = .ok (parts ws.cwd) :=
      (site_eq_locate (by decide)).trans (locate_here ws)
    unfold makeDir
    rw [run_bind, hget]
    simp only [hsite, Job.ofExcept, pure_bind, node?_cwd]
    rfl
  have hup : makeDirs "." = ensureDir "." := by
    have hlength : (parts ".").length = 0 := by decide
    rw [makeDirs, hlength, makeDirsUp]
  rw [hup, ensureDir, Yields, run_tryCatch, hmake]
  simp only [run_bind, hget, isDir_here]
  rfl

def newItems (ws : Workspace) (items : List Text) : List Text :=
  items.eraseDups.filter fun i => !i.isEmpty && !(logLines ws).contains i

theorem yields_logItems_iff (h : ws.isDir logPath = false) {ws' : Workspace} :
    Yields (logItems items logPath) ws () ws' ↔
      Yields (if !(newItems ws items).isEmpty then do
        makeDirs (parent logPath)
        appendUtf8 logPath ((newItems ws items).map fun i => i ++ ['\n'])
      else pure ()) ws () ws' := by
  rcases (look_logPath_cases h).2 with ⟨f, hlook⟩ | hlook
  · have hthere := yields_isThere (by simp [hlook] : ws.look logPath ≠ .error .nameTooLong)
    rw [exists_, hlook] at hthere
    have hread : ws.read logPath = .ok f := by
      rw [Workspace.read, hlook]
      rfl
    have hbytes : Yields (readBytes logPath) ws f.bytes ws := yields_readBytes.mpr ⟨f, hread, rfl, rfl⟩
    have hknown : Yields (lines <$> readUtf8Lossy logPath) ws (logLines ws) ws := by
      unfold readUtf8Lossy
      simp only [map_eq_pure_bind, bind_assoc, pure_bind]
      refine hbytes.bind (.pure ?_)
      rw [logLines, logBytes, Workspace.file?, hread]
      rfl
    exact hthere.bind_iff.trans hknown.bind_iff
  · have hthere := yields_isThere (by simp [hlook] : ws.look logPath ≠ .error .nameTooLong)
    rw [exists_, hlook] at hthere
    have hlines : logLines ws = [] := by
      rw [logLines, logBytes, Workspace.file?, Workspace.read, hlook]
      rfl
    unfold newItems
    rw [hlines]
    exact hthere.bind_iff

theorem yields_appendUtf8_logPath (h : ws.isDir logPath = false) {ts : List Text}
    (hts : ∀ t ∈ ts, t.any isHalf = false) :
    ∃ ws', Yields (appendUtf8 logPath ts) ws () ws' ∧
      logBytes ws' = logBytes ws ++ encode ts.flatten := by
  have hall : (ts.takeWhile fun t => !t.any isHalf) = ts := takeWhile_eq_self_iff.mpr fun t ht => by simp [hts t ht]
  have hnone : (ts.any fun t => t.any isHalf) = false := any_eq_false.mpr fun t ht => by simp [hts t ht]
  obtain ⟨ws', hwrite⟩ : ∃ ws', Yields (writeBytes logPath (logBytes ws ++ encode ts.flatten)) ws () ws' :=
    ⟨_, yields_writeFile.mpr ⟨logPlace ws, site_logPath ws, (look_logPath_cases h).1, by decide, rfl⟩⟩
  refine ⟨ws', ?_, ?_⟩
  · unfold appendUtf8 appendBytes
    rw [hall, hnone]
    exact .bind (.bind .get hwrite) (.pure rfl)
  · rw [logBytes, file?, read_of_writeFile hwrite]
    rfl

/-- **Items that are logged are added to the log**, each on a line of its own, except those that it
has. -/
theorem yields_logItems (h : ws.isDir logPath = false) (hitems : ∀ i ∈ items, i.any isHalf = false) :
    ∃ ws', Yields (logItems items logPath) ws () ws' ∧
      logBytes ws' = logBytes ws ++ encode ((newItems ws items).flatMap fun i => i ++ ['\n']) := by
  have hparent : parent logPath = "." := by decide
  simp only [yields_logItems_iff h, hparent]
  cases hempty : (newItems ws items).isEmpty with
  | true =>
    refine ⟨ws, .pure rfl, ?_⟩
    rw [isEmpty_iff.mp hempty]
    exact (append_nil _).symm
  | false =>
    have hnew : ∀ t ∈ (newItems ws items).map fun i => i ++ ['\n'], t.any isHalf = false := by
      intro t ht
      obtain ⟨i, hi, rfl⟩ := mem_map.mp ht
      have hmem : i ∈ items := mem_eraseDups.mp (mem_filter.mp hi).1
      rw [any_append, hitems i hmem]
      decide
    obtain ⟨ws', hws', hbytes⟩ := yields_appendUtf8_logPath h hnew
    exact ⟨ws', (yields_makeDirs_here ws).bind hws', by rw [hbytes, ← flatMap_def]⟩

/-- The characters of which a log has no line. -/
def newChars (ws : Workspace) (cs : List Char) : List Char :=
  (newItems ws (cs.map fun c => [c])).flatten

theorem mem_newItems_singletons {i : Text} :
    i ∈ newItems ws (cs.map fun c => [c]) ↔ ∃ c ∈ cs, [c] ∉ logLines ws ∧ [c] = i := by
  simp only [newItems, mem_filter, mem_eraseDups, mem_map]
  constructor
  · rintro ⟨⟨c, hc, rfl⟩, hnew⟩
    exact ⟨c, hc, by simpa using hnew, rfl⟩
  · rintro ⟨c, hc, hnew, rfl⟩
    exact ⟨⟨c, hc, rfl⟩, by simpa using hnew⟩

theorem mem_newChars : c ∈ newChars ws cs ↔ c ∈ cs ∧ [c] ∉ logLines ws := by
  simp only [newChars, mem_flatten, mem_newItems_singletons]
  constructor
  · rintro ⟨_, ⟨d, hd, hnew, rfl⟩, hc⟩
    obtain rfl := mem_singleton.mp hc
    exact ⟨hd, hnew⟩
  · rintro ⟨hc, hnew⟩
    exact ⟨[c], ⟨c, hc, hnew, rfl⟩, mem_singleton_self c⟩

theorem flatMap_newItems (ws : Workspace) (cs : List Char) :
    ((newItems ws (cs.map fun c => [c])).flatMap fun i => i ++ ['\n']) =
      (newChars ws cs).flatMap fun c => [c, '\n'] := by
  rw [newChars, flatten_eq_flatMap, flatMap_assoc]
  refine flatMap_congr fun i hi => ?_
  obtain ⟨c, -, -, rfl⟩ := mem_newItems_singletons.mp hi
  rfl

/-- **Characters that are logged are added to the log**, each on a line of its own, except those
that it has. -/
theorem yields_logChars (h : ws.isDir logPath = false) (hcs : ∀ c ∈ cs, isHalf c = false) :
    ∃ ws', Yields (logChars cs) ws () ws' ∧
      logBytes ws' = logBytes ws ++ encode ((newChars ws cs).flatMap fun c => [c, '\n']) := by
  cases cs with
  | nil => exact ⟨ws, .pure rfl, (append_nil _).symm⟩
  | cons c cs =>
    have hitems : ∀ i ∈ (c :: cs).map fun c => [c], i.any isHalf = false := by
      intro i hi
      obtain ⟨d, hd, rfl⟩ := mem_map.mp hi
      simp [hcs d hd]
    rw [← flatMap_newItems]
    exact yields_logItems h hitems

end

/-! ### Conversion -/

theorem not_isHalf_of_mem_applyRules (ht : ∀ c ∈ t, isHalf c = false)
    (hrules : ∀ r ∈ rules, ∀ c ∈ r.2, isHalf c = false) :
    ∀ c ∈ applyRules rules t, isHalf c = false := by
  intro c hc
  obtain ⟨d, hd, hc⟩ := mem_flatMap.mp hc
  cases hrule : rules.lookup [d] with
  | none =>
    rw [hrule] at hc
    exact mem_singleton.mp hc ▸ ht d hd
  | some u =>
    rw [hrule] at hc
    exact hrules ([d], u) (Assoc.mem_of_lookup hrule) c hc

theorem of_yields_converter {ws ws₁ : Workspace} {conv : Converter}
    (h : Yields (converter rules) ws conv ws₁) :
    ∃ src table, Yields (readUtf16 ws.glyphTable) ws src ws₁ ∧ readTable src = .ok table ∧
      conv = ⟨rules, table⟩ := by
  obtain ⟨_, _, hget, hrest⟩ := yields_bind.mp h
  obtain ⟨rfl, rfl⟩ := yields_get.mp hget
  obtain ⟨table, _, hload, hend⟩ := yields_bind.mp hrest
  obtain ⟨rfl, rfl⟩ := yields_pure.mp hend
  obtain ⟨src, _, hsrc, hread⟩ := yields_bind.mp hload
  obtain ⟨htable, rfl⟩ := yields_ofExcept.mp hread
  exact ⟨src, table, hsrc, htable, rfl⟩

/-- **A converted text has an encoding.** For every table that a converter could be made of, every
list of replacements and every text, if no half of a surrogate pair is among their characters and no
directory stands in the place of the log: the conversion ends well; its text has an encoding, in
which each character of the replaced text has the bytes that the lines of the table say; and what is
added to the log are the characters that became question marks, except those of which it has a line.
-/
theorem encode?_converted {rules : Rules} {ws ws₁ : Workspace} {conv : Converter}
    (hconv : Job.Yields (converter rules) ws conv ws₁) (hrules : ∀ r ∈ rules, ∀ c ∈ r.2, isHalf c = false) {t : Text}
    (ht : ∀ c ∈ t, isHalf c = false) {ws₂ : Workspace} (hlog : ws₂.isDir logPath = false) :
    ∃ src, Job.Yields (Job.readUtf16 ws.glyphTable) ws src ws₁ ∧ ∃ (s : Text) (ws₃ : Workspace) (bad : List Char),
      Job.Yields (conv.run t) ws₂ s ws₃ ∧
      Cp932.encode? s = some ((applyRules rules t).flatMap (shownBytes (entries src))) ∧
      logBytes ws₃ = logBytes ws₂ ++ Utf8.encode (bad.flatMap fun c => [c, '\n']) ∧
      ∀ c, c ∈ bad ↔ c ∈ applyRules rules t ∧ isShown (entries src) c = false ∧ [c] ∉ logLines ws₂ := by
  obtain ⟨src, table, hsrc, htable, rfl⟩ := of_yields_converter hconv
  have hhalf : ∀ c ∈ unshown table (applyRules rules t), isHalf c = false := fun c hc =>
    not_isHalf_of_mem_applyRules ht hrules c ((mem_unshown htable).mp hc).1
  obtain ⟨ws₃, hyields, hbytes⟩ := yields_logChars hlog hhalf
  refine ⟨src, hsrc, showText table (applyRules rules t), ws₃, _, ?_, ?_, hbytes, fun c => ?_⟩
  · exact hyields.bind (.pure rfl)
  · exact Cp932.encode?_flatMap (encode?_shown htable) _
  · rw [mem_newChars, mem_unshown htable, and_assoc]

def smiling : Workspace where
  cwd := "/w"
  files := [([("w" : Text), ("font.tbl" : Text)],
    ⟨[0xFF, 0xFE, 0x34, 0x00, 0x31, 0x00, 0x3D, 0x00, 0x3D, 0xD8, 0x00, 0xDE], 0⟩)]

theorem readUtf16_smiling : Yields (readUtf16 smiling.glyphTable) smiling "41=😀" smiling := by
  have hbytes : Yields (readBytes smiling.glyphTable) smiling
      [0xFF, 0xFE, 0x34, 0x00, 0x31, 0x00, 0x3D, 0x00, 0x3D, 0xD8, 0x00, 0xDE] smiling :=
    yields_readBytes.mpr ⟨_, rfl, rfl, rfl⟩
  have hdecode : Utf16.decode? [0x34, 0x00, 0x31, 0x00, 0x3D, 0x00, 0x3D, 0xD8, 0x00, 0xDE] = some "41=😀" := by decide
  have hrequire : Yields (require .undecodable
      (Utf16.decode? [0x34, 0x00, 0x31, 0x00, 0x3D, 0x00, 0x3D, 0xD8, 0x00, 0xDE])) smiling "41=😀" smiling :=
    .require hdecode
  exact hbytes.bind (hrequire.bind (.pure (by decide)))

theorem converter_smiling (rules : Rules) :
    Yields (converter rules) smiling ⟨rules, [('😀', ['\x00', 'A'])]⟩ smiling := by
  have htable : readTable "41=😀" = .ok [('😀', ['\x00', 'A'])] := rfl
  have hload : Yields (loadTable smiling.glyphTable) smiling [('😀', ['\x00', 'A'])] smiling :=
    readUtf16_smiling.bind (.ofExcept htable)
  exact .bind .get (hload.bind (.pure rfl))

theorem isDir_logPath_smiling : smiling.isDir logPath = false := by
  rfl

theorem logLines_smiling : logLines smiling = [] := by
  rfl

theorem code?_eq_none (h : 0x10000 ≤ c.toNat) : code? c = none := by
  rw [code?, Cp932.encodeChar?_eq_none h]
  rfl

/-- The text `😀a𝄞` becomes the code on the line of the first character, the replacement of the
second and a question mark for the third, which is logged. -/
theorem encode?_converted_smiling :
    ∃ (s : Text) (ws' : Workspace) (bad : List Char),
      Job.Yields (Converter.run ⟨[("a", "b")], [('😀', ['\x00', 'A'])]⟩ "😀a𝄞") smiling s ws' ∧
      Cp932.encode? s = some [0x00, 0x41, 0x62, 0x3F] ∧
      logBytes ws' = logBytes smiling ++ Utf8.encode (bad.flatMap fun c => [c, '\n']) ∧ ∀ c, c ∈ bad ↔ c = '𝄞' := by
  have hrules : ∀ r ∈ ([("a", "b")] : Rules), ∀ c ∈ r.2, isHalf c = false := by simp [isHalf, half?, firstHalfChar]
  have htext : ∀ c ∈ ("😀a𝄞" : Text), isHalf c = false := by simp [isHalf, half?, firstHalfChar]
  obtain ⟨src, hsrc, s, ws', bad, hrun, hbytes, hlog, hbad⟩ :=
    encode?_converted (converter_smiling [("a", "b")]) hrules htext isDir_logPath_smiling
  have hentries : entries src = [('😀', 0x41)] := by
    rw [(hsrc.unique readUtf16_smiling).1]
    rfl
  have happly : applyRules [("a", "b")] "😀a𝄞" = "😀b𝄞" := by decide
  rw [hentries, happly] at hbytes hbad
  have hsmile : keepsCode [('😀', 0x41)] '😀' = false := by rw [keepsCode, code?_eq_none (by decide)]; rfl
  have hclef : keepsCode [('😀', 0x41)] '𝄞' = false := by rw [keepsCode, code?_eq_none (by decide)]; rfl
  have hlatin : keepsCode [('😀', 0x41)] 'b' = true := by decide
  have hsmileCode : lastCode? '😀' [('😀', 0x41)] = some 0x41 := by decide
  have hclefCode : lastCode? '𝄞' [('😀', 0x41)] = none := by decide
  refine ⟨s, ws', bad, hrun, ?_, hlog, fun c => ?_⟩
  · have hlatinBytes : Cp932.encodeChar? 'b' = some [0x62] := by decide
    simp [hbytes, shownBytes, hsmile, hclef, hlatin, hsmileCode, hclefCode, hlatinBytes, codeBytes]
  · rw [hbad, logLines_smiling]
    constructor
    · rintro ⟨hc, hshown, -⟩
      rcases (by simpa using hc : c = '😀' ∨ c = 'b' ∨ c = '𝄞') with rfl | rfl | rfl
      · simp [isShown, hsmileCode] at hshown
      · simp [isShown, hlatin] at hshown
      · rfl
    · rintro rfl
      exact ⟨by decide, by simp [isShown, hclef, hclefCode], List.not_mem_nil⟩

/-- **A half of a surrogate pair cannot be logged.** If a replacement puts one into a text, the
conversion does not end well. -/
theorem not_yields_run_half :
    Job.Yields (converter [("a", [ofHalf 0xD800])]) smiling ⟨[("a", [ofHalf 0xD800])], [('😀', ['\x00', 'A'])]⟩ smiling ∧
      ∀ s ws', ¬ Job.Yields (Converter.run ⟨[("a", [ofHalf 0xD800])], [('😀', ['\x00', 'A'])]⟩ "a") smiling s ws' := by
  refine ⟨converter_smiling _, fun s ws' h => ?_⟩
  have happly : applyRules [("a", [ofHalf 0xD800])] "a" = [ofHalf 0xD800] := by decide
  have hshow : showChar? [('😀', ['\x00', 'A'])] (ofHalf 0xD800) = none := by
    rw [showChar?, code?_eq_none (by decide)]
    rfl
  have hunshown : unshown [('😀', ['\x00', 'A'])] [ofHalf 0xD800] = [ofHalf 0xD800] := by
    simp [unshown, inAscendingOrder, hshow, List.eraseDups_cons]
  unfold Converter.run mapText at h
  rw [happly, hunshown] at h
  obtain ⟨_, ws₁, hlog, -⟩ := yields_bind.mp h
  have hadd := (yields_logItems_iff isDir_logPath_smiling).mp hlog
  obtain ⟨_, _, -, happend⟩ := yields_bind.mp hadd
  obtain ⟨_, _, -, hthrow⟩ := yields_bind.mp happend
  exact not_yields_throw hthrow

end Localizer.Glyph
