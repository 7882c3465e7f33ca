import Localizer.Proofs.Glyph.Conversion
import Localizer.Proofs.Table.Setting
import Localizer.Table.Tool

/-!
# Keys of collected values

A value that is collected from a table gets a key that is put together from its file, section and
key, with the section in brackets. The key is taken apart at its last brackets, so that its parts
come back exactly if neither the section nor the key has a bracket that can be taken for one of
those (`splitKey?_fullKey_iff`). A section that was read never has a closing bracket, so two values
of different files, sections or keys share a key only if the path of one file continues that of the
other with an opening bracket (`keys_of_collected`).
-/

namespace Localizer.Table

open List Text Encoding Job Cp932 Assoc Localizer.Path

variable {file sec key l name input : Text} {r : Reader} {ws ws' : Workspace}

/-! ### Full keys -/

theorem fullKey_eq (file sec key : Text) :
    fullKey file sec key = file ++ '[' :: (sec ++ ']' :: key) := by
  simp [fullKey]

/-- **A key is taken apart as it was put together exactly if its last brackets are those around the
section.** -/
theorem splitKey?_fullKey_iff :
    splitKey? (fullKey file sec key) = some (file, sec, key) ↔ '[' ∉ sec ∧ '[' ∉ key ∧ ']' ∉ key := by
  have hfull : fullKey file sec key = (file ++ '[' :: sec) ++ ']' :: key := by rw [fullKey_eq]; simp
  constructor
  · intro h
    obtain ⟨⟨before, key'⟩, hlast, h₁⟩ := Option.bind_eq_some_iff.mp h
    dsimp only at h₁
    split at h₁
    · cases h₁
    · next hopen =>
      obtain ⟨⟨file', sec'⟩, hfirst, h₂⟩ := Option.bind_eq_some_iff.mp h₁
      cases h₂
      obtain ⟨-, hclose⟩ := splitLast?_eq_some_iff.mp hlast
      obtain ⟨-, hsec⟩ := splitLast?_eq_some_iff.mp hfirst
      exact ⟨hsec, by simpa using hopen, hclose⟩
  · rintro ⟨hsec, hopen, hclose⟩
    have hlast : splitLast? ']' (fullKey file sec key) = some (file ++ '[' :: sec, key) :=
      splitLast?_eq_some_iff.mpr ⟨hfull, hclose⟩
    have hfirst : splitLast? '[' (file ++ '[' :: sec) = some (file, sec) := splitLast?_eq_some_iff.mpr ⟨rfl, hsec⟩
    have hnot : ¬ (key.contains '[' = true) := by simpa using hopen
    simp only [splitKey?, hlast, Option.bind_eq_bind, Option.bind_some, if_neg hnot, hfirst, Option.pure_def]

theorem fullKey_inj {file' sec' key' : Text} (hsec : ']' ∉ sec) (hsec' : ']' ∉ sec')
    (h : fullKey file sec key = fullKey file' sec' key') :
    (file, sec, key) = (file', sec', key') ∨ file ++ ['['] <+: file' ∨ file' ++ ['['] <+: file := by
  -- the rest of the longer path begins where the section of the shorter one does
  have hrest : ∀ {f s : Text} {t u : Text}, '[' :: t = s ++ '[' :: u → s = [] ∧ t = u ∨ f ++ ['['] <+: f ++ s := by
    intro f s t u hs
    cases s with
    | nil => exact .inl ⟨rfl, (cons.inj hs).2⟩
    | cons c s =>
      obtain ⟨rfl, -⟩ := cons.inj hs
      exact .inr ⟨s, by simp⟩
  rw [fullKey_eq, fullKey_eq] at h
  rcases append_eq_append_iff.mp h with ⟨s, rfl, hs⟩ | ⟨s, rfl, hs⟩
  · rcases hrest hs with ⟨rfl, heq⟩ | hpath
    · obtain ⟨rfl, rfl⟩ := append_sep_inj hsec hsec' heq
      exact .inl (by simp)
    · exact .inr (.inl hpath)
  · rcases hrest hs with ⟨rfl, heq⟩ | hpath
    · obtain ⟨rfl, rfl⟩ := append_sep_inj hsec' hsec heq
      exact .inl (by simp)
    · exact .inr (.inr hpath)

/-! ### Sections of a table that was read -/

theorem close_not_mem_sectionName? (h : sectionName? l = some name) : ']' ∉ name := by
  unfold sectionName? at h
  split at h
  · next t _ =>
    obtain ⟨⟨a, b⟩, hcut, rfl⟩ := Option.map_eq_some_iff.mp h
    rcases splitOnce?_cases ']' t with ⟨-, hnone⟩ | ⟨a', b', ha, -, hsome⟩
    · simp [hnone] at hcut
    · obtain ⟨rfl, rfl⟩ := Prod.mk.inj (Option.some.inj (hsome.symm.trans hcut))
      exact fun hmem => ha ((trim_isInfix _).sublist.mem hmem)
  · cases h

/-- No section of the reader has a closing bracket in its name. -/
structure Reader.Closed (r : Reader) : Prop where
  current : ∀ name ∈ r.current?, ']' ∉ name
  sections : ∀ name ∈ r.table.map Prod.fst, ']' ∉ name

theorem mem_keys_insert {k : Text} {α : Type} {a : α} {d : List (Text × α)} :
    l ∈ (insert k a d).map Prod.fst ↔ l = k ∨ l ∈ d.map Prod.fst := by
  rw [← not_iff_not, ← get?_eq_none_iff, get?_insert, not_or, ← get?_eq_none_iff]
  by_cases h : k = l
  · simp [h]
  · simp [h, Ne.symm h]

theorem Reader.Closed.enter (h : r.Closed) (hname : ']' ∉ name) : (r.enter name).Closed := by
  refine ⟨fun n hn => ?_, fun n hn => ?_⟩
  · rwa [← Option.mem_some.mp hn]
  · rw [Reader.enter, insertNew] at hn
    split at hn
    · exact h.sections n hn
    · rw [map_append, mem_append, map_singleton, mem_singleton] at hn
      rcases hn with hn | rfl
      · exact h.sections n hn
      · exact hname

theorem Reader.Closed.put (h : r.Closed) (key value : Text) : (r.put key value).Closed := by
  refine ⟨fun n hn => h.current n (by rwa [r.current?_put] at hn), fun n hn => ?_⟩
  unfold Reader.put at hn
  split at hn
  · exact h.sections n hn
  · exact h.sections n hn
  · next sec _ hsec =>
    rcases mem_keys_insert.mp hn with rfl | hn
    · exact h.current n hsec
    · exact h.sections n hn

theorem Reader.Closed.line (h : r.Closed) (l : Text) : (r.line l).Closed := by
  cases hname : sectionName? l with
  | some name =>
    rw [r.line_of_section hname]
    exact h.enter (close_not_mem_sectionName? hname)
  | none =>
    rw [r.line_of_setting hname]
    cases setting? l with
    | none => exact h
    | some x => exact h.put x.1 x.2

/-- **No section of a table that was read has a closing bracket in its name.** -/
theorem close_not_mem_of_mem_read {t : Text} (h : sec ∈ (read t).map Prod.fst) : ']' ∉ sec := by
  have hclosed : ∀ (ls : List Text) {r : Reader}, r.Closed → (ls.foldl Reader.line r).Closed := by
    intro ls
    induction ls with
    | nil => exact fun hr => hr
    | cons l ls ih => exact fun hr => ih (hr.line l)
  have hempty : Reader.Closed {} := ⟨nofun, nofun⟩
  exact (hclosed (lines t) hempty).sections sec h

/-! ### Values that are collected -/

/-- A value that is collected: its file, section and key, and the value itself. -/
structure Entry where
  file : Text
  sec : Text
  key : Text
  value : Text

def Entry.fullKey (e : Entry) : Text := Table.fullKey e.file e.sec e.key

def Entry.toJson (e : Entry) : Json :=
  Document.item [("key", .str e.fullKey), ("original", .str e.value), ("translation", .str []), ("stage", .int 0)]

def entriesOf (file : Text) (t : Table) : List Entry :=
  t.flatMap fun s => (s.2.filter fun kv => isJapanese kv.2).map fun kv => ⟨file, s.1, kv.1, kv.2⟩

theorem documentItems_eq (file : Text) (t : Table) :
    documentItems file t = (entriesOf file t).map Entry.toJson := by
  rw [documentItems, entriesOf, map_flatMap]
  simp only [map_map]
  rfl

/-- The table in a file, an empty one if there is none. -/
def tableAt (ws : Workspace) (p : Text) : Table :=
  read (unifyNewlines (decodeLossy (((ws.file? p).map File.bytes).getD [])))

/-- The values that are collected from the tables at some paths below a directory. -/
def collectedAt (ws : Workspace) (input : Text) (ps : List Text) : List Entry :=
  ps.flatMap fun p => entriesOf (below input p) (tableAt ws p)

/-- The values that are collected from all tables below a directory. -/
def collected (ws : Workspace) (input : Text) : List Entry :=
  collectedAt ws input ((ws.find input ".tbl").mergeSort Path.le)

theorem yields_load_iff {p : Text} {t : Table} :
    Yields (load p) ws t ws' ↔ (∃ f, ws.read p = .ok f) ∧ t = tableAt ws p ∧ ws' = ws := by
  have htable : ∀ {f : File}, ws.read p = .ok f → tableAt ws p = read (unifyNewlines (decodeLossy f.bytes)) := by
    intro f hf
    rw [tableAt, Workspace.file?, hf]
    rfl
  constructor
  · intro h
    obtain ⟨text, _, htext, hend⟩ := yields_bind.mp h
    obtain ⟨rfl, rfl⟩ := yields_pure.mp hend
    obtain ⟨bs, _, hbytes, hunify⟩ := yields_bind.mp htext
    obtain ⟨rfl, rfl⟩ := yields_pure.mp hunify
    obtain ⟨f, hread, rfl, rfl⟩ := yields_readBytes.mp hbytes
    exact ⟨⟨f, hread⟩, (htable hread).symm, rfl⟩
  · rintro ⟨⟨f, hf⟩, rfl, rfl⟩
    have hbytes : Yields (readBytes p) ws' f.bytes ws' := yields_readBytes.mpr ⟨f, hf, rfl, rfl⟩
    have htext : Yields (do return unifyNewlines (decodeLossy (← readBytes p))) ws'
        (unifyNewlines (decodeLossy f.bytes)) ws' := hbytes.bind (.pure rfl)
    exact htext.bind (.pure (htable hf).symm)

theorem yields_collect_iff {ps : List Text} {items r : List Json} : Yields (forIn ps items fun p items => do
      let t ← load p
      pure (ForInStep.yield (items ++ documentItems (below input p) t))) ws r ws' ↔
    (∀ p ∈ ps, ∃ f, ws.read p = .ok f) ∧ r = items ++ (collectedAt ws input ps).map Entry.toJson ∧ ws' = ws := by
  induction ps generalizing items with
  | nil =>
    rw [forIn_nil, yields_pure, eq_comm, eq_comm (b := ws')]
    simp [collectedAt]
  | cons p ps ih =>
    have hitems : items ++ documentItems (below input p) (tableAt ws p) ++ (collectedAt ws input ps).map Entry.toJson =
        items ++ (collectedAt ws input (p :: ps)).map Entry.toJson := by
      rw [documentItems_eq, collectedAt, collectedAt, flatMap_cons, map_append, append_assoc]
    rw [forIn_cons, forall_mem_cons, ← hitems]
    constructor
    · intro h
      obtain ⟨step, ws₁, hstep, hrest⟩ := yields_bind.mp h
      obtain ⟨t, _, hload, hend⟩ := yields_bind.mp hstep
      obtain ⟨hread, rfl, rfl⟩ := yields_load_iff.mp hload
      obtain ⟨rfl, rfl⟩ := yields_pure.mp hend
      obtain ⟨hreads, hr⟩ := ih.mp hrest
      exact ⟨⟨hread, hreads⟩, hr⟩
    · rintro ⟨⟨hread, hreads⟩, hr⟩
      have hload : Yields (load p) ws (tableAt ws p) ws := yields_load_iff.mpr ⟨hread, rfl, rfl⟩
      have hstep : Yields (do
          let t ← load p
          pure (ForInStep.yield (items ++ documentItems (below input p) t))) ws
          (ForInStep.yield (items ++ documentItems (below input p) (tableAt ws p))) ws :=
        hload.bind (.pure rfl)
      exact hstep.bind (ih.mpr ⟨hreads, hr⟩)

theorem close_not_mem_of_mem_collected {e : Entry} (h : e ∈ collected ws input) : ']' ∉ e.sec := by
  obtain ⟨p, -, he⟩ := mem_flatMap.mp h
  obtain ⟨s, hs, he⟩ := mem_flatMap.mp he
  obtain ⟨kv, -, rfl⟩ := mem_map.mp he
  exact close_not_mem_of_mem_read (mem_map_of_mem hs)

/-- **When the keys of collected values can be taken apart.** Whenever the tables of a directory are
collected, the document that is written holds the Japanese values of the tables, each under the key
of its file, section and key. The parts of a key come back exactly if there is no opening bracket in
the section and no bracket in the key. And two values with different parts have different keys,
unless the path of one file continues that of the other with an opening bracket. -/
theorem keys_of_collected {input output : Text} {ws ws' : Workspace} (h : Job.Yields (collectAll input output) ws () ws') :
    (∃ bs, Utf8.encode? (Json.render 4 (.arr ((collected ws input).map Entry.toJson))) = some bs ∧
      Job.Yields (Job.readBytes output) ws' bs ws') ∧
    (∀ e ∈ collected ws input, splitKey? e.fullKey = some (e.file, e.sec, e.key) ↔
      '[' ∉ e.sec ∧ '[' ∉ e.key ∧ ']' ∉ e.key) ∧
    ∀ e ∈ collected ws input, ∀ e' ∈ collected ws input, e.fullKey = e'.fullKey →
      (e.file, e.sec, e.key) = (e'.file, e'.sec, e'.key) ∨ e.file ++ ['['] <+: e'.file ∨ e'.file ++ ['['] <+: e.file := by
  refine ⟨?_, fun e _ => splitKey?_fullKey_iff, fun e he e' he' hkey => ?_⟩
  · obtain ⟨_, _, hget, hjob⟩ := yields_bind.mp h
    obtain ⟨rfl, rfl⟩ := yields_get.mp hget
    obtain ⟨items, _, hloop, hend⟩ := yields_bind.mp hjob
    obtain ⟨-, rfl, rfl⟩ := yields_collect_iff.mp hloop
    obtain ⟨_, ws₁, -, hwrite⟩ := yields_bind.mp hend
    obtain ⟨bs, hbs, hbytes⟩ := yields_writeUtf8.mp hwrite
    exact ⟨bs, hbs, readBytes_of_writeBytes hbytes⟩
  · exact fullKey_inj (close_not_mem_of_mem_collected he) (close_not_mem_of_mem_collected he') hkey

def oneTable : Workspace where
  cwd := "/w"
  files := [(["w", "in", "t.tbl"], { data := [0x5B, 0x53, 0x5D, 0x0A, 0x6B, 0x3D, 0x82, 0xA0, 0x0A] })]
  dirs := [["w", "in"]]

theorem find_oneTable : (oneTable.find "in" ".tbl").mergeSort Path.le = [("in/t.tbl" : Text)] := by
  have hnames : oneTable.names "in" = [("t.tbl" : Text)] := mergeSort_singleton _
  have hbelow : oneTable.find "in" ".tbl" = oneTable.findBelow ".tbl" 4 "in" := by rfl
  have hfind : oneTable.find "in" ".tbl" = [("in/t.tbl" : Text)] := by
    rw [hbelow, Workspace.findBelow, hnames]
    rfl
  rw [hfind]
  exact mergeSort_singleton _

theorem decodeLossy_oneTable :
    decodeLossy [0x5B, 0x53, 0x5D, 0x0A, 0x6B, 0x3D, 0x82, 0xA0, 0x0A] = ("[S]\nk=あ\n" : Text) := by
  rw [decodeLossy_basic (by decide), decodeLossy_basic (by decide), decodeLossy_basic (by decide),
    decodeLossy_basic (by decide), decodeLossy_basic (by decide), decodeLossy_basic (by decide),
    decodeLossy_double (by decide) double?_hiragana, decodeLossy_basic (by decide)]
  rfl

theorem tableAt_oneTable :
    tableAt oneTable "in/t.tbl" = [(("S" : Text), [(("k" : Text), ("あ" : Text))])] := by
  have hfile : ((oneTable.file? "in/t.tbl").map File.bytes).getD [] =
    [0x5B, 0x53, 0x5D, 0x0A, 0x6B, 0x3D, 0x82, 0xA0, 0x0A] := rfl
  rw [tableAt, hfile, decodeLossy_oneTable]
  decide

theorem collected_oneTable : collected oneTable "in" = [⟨"t.tbl", "S", "k", "あ"⟩] := by
  rw [collected, find_oneTable, collectedAt, flatMap_cons, tableAt_oneTable]
  rfl

theorem yields_collectAll_oneTable : ∃ ws, Yields (collectAll "in" "o.json") oneTable () ws := by
  have hread : ∀ p ∈ [("in/t.tbl" : Text)], ∃ f, oneTable.read p = .ok f := by
    intro p hp
    rw [mem_singleton.mp hp]
    exact ⟨_, rfl⟩
  have hitems : collected oneTable "in" = collectedAt oneTable "in" ["in/t.tbl"] := by rw [collected, find_oneTable]
  have hdirs : Yields (makeDirs (parent "o.json")) oneTable () oneTable := Glyph.yields_makeDirs_here oneTable
  obtain ⟨ws, hwrite⟩ : ∃ ws, Yields (writeUtf8 "o.json"
      (Json.render 4 (.arr ((collected oneTable "in").map Entry.toJson)))) oneTable () ws := by
    rw [collected_oneTable]
    exact ⟨_, rfl⟩
  refine ⟨ws, .bind .get ?_⟩
  rw [find_oneTable]
  refine .bind (yields_collect_iff.mpr ⟨hread, rfl, rfl⟩) (hdirs.bind ?_)
  rw [nil_append, ← hitems]
  exact hwrite

theorem keys_of_collected_oneTable :
    (∃ ws, Job.Yields (collectAll "in" "o.json") oneTable () ws) ∧
      collected oneTable "in" = [⟨"t.tbl", "S", "k", "あ"⟩] ∧
      splitKey? (fullKey "t.tbl" "S" "k") = some (("t.tbl" : Text), ("S" : Text), ("k" : Text)) := by
  obtain ⟨ws, hrun⟩ := yields_collectAll_oneTable
  obtain ⟨-, hkey, -⟩ := keys_of_collected hrun
  have hmem : (⟨"t.tbl", "S", "k", "あ"⟩ : Entry) ∈ collected oneTable "in" := by
    rw [collected_oneTable]
    exact List.mem_singleton_self _
  exact ⟨⟨ws, hrun⟩, collected_oneTable, (hkey _ hmem).mpr (by decide)⟩

/-- A table with a section whose name has an opening bracket. -/
def bracketed : Text := "[a[b]\nk=日\n"

/-- **The key of a section with an opening bracket in its name leads astray**, to another file and
another section. And the values of two files can share a key, if there are brackets in the key of
one and in the path of the other. -/
theorem splitKey?_bracketed :
    (entriesOf "t.tbl" (read bracketed)).map Entry.fullKey = [("t.tbl[a[b]k" : Text)] ∧
      value? (read bracketed) "a[b" "k" = some "日" ∧
      splitKey? "t.tbl[a[b]k" = some (("t.tbl[a" : Text), ("b" : Text), ("k" : Text)) ∧
      (entriesOf "f.tbl" (read "[x]\ng.tbl[z]w=日\n")).map Entry.fullKey = [("f.tbl[x]g.tbl[z]w" : Text)] ∧
      (entriesOf "f.tbl[x]g.tbl" (read "[z]\nw=月\n")).map Entry.fullKey = [("f.tbl[x]g.tbl[z]w" : Text)] := by
  refine ⟨by decide, by decide, by decide, by decide, by decide⟩

end Localizer.Table
