import Localizer.Dialogue.WriteBack
import Localizer.Proofs.Assoc
import Localizer.Proofs.Text.Words
import Localizer.Proofs.Workspace

/-!
# Faces that are read from tables

What a line of a table says depends on the section and the character that are in force there
(`Standing.entry`). A row of the section `FACE_L` under a known character gives a picture a number.
The reader collects the rows of a character until another one is named, and then puts them in the
place of all rows of that character before: so the first row since the character was named takes
away the others (`Entry.put`). The number of a row may be written in hexadecimal digits, but it is
read in decimal, and a table with a number that cannot be read is not read at all
(`loadCast_cases`).
-/

namespace Localizer.Dialogue

open List Text Encoding Job Assoc CastReader

/-! ### What the lines of a table say -/

/-- A row of pictures under a known number, as it is written. -/
structure FaceRow where
  char : Int
  number : Text
  picture : Text
  /-- Whether it is the first one since the character was changed. -/
  first : Bool

inductive Entry where
  | idle
  | part (name : Text)
  | char (digits : Text)
  | name (digits name : Text)
  | face (row : FaceRow)

/-- What is in force at a line of a table: the section, the number of a character, and whether no
row has followed it. -/
structure Standing where
  part : Text := []
  char? : Option Int := none
  first : Bool := true

/-- What a line says. -/
def Standing.entry (s : Standing) (l : Text) : Entry :=
  if isTableComment l then .idle
  else match sectionName? l, idDigits? l, s.char? with
    | some name, _, _ => .part name
    | none, some ds, _ => .char ds
    | none, none, none => .idle
    | none, none, some c =>
      if s.part = "BASIC" then
        match nameParts? l with
        | some (ds, name) => .name ds name
        | none => .idle
      else if s.part = "FACE_L" then
        match faceParts? l with
        | some (ds, picture) => .face ⟨c, ds, picture, s.first⟩
        | none => .idle
      else .idle

/-- What is in force behind a line. -/
def Standing.next (s : Standing) : Entry → Standing
  | .part name => { s with part := name }
  | .char ds => { s with char? := readDecimal? ds, first := s.first || s.char? ≠ readDecimal? ds }
  | .face _ => { s with first := false }
  | _ => s

def entriesFrom (s : Standing) : List Text → List Entry
  | [] => []
  | l :: ls => s.entry l :: entriesFrom (s.next (s.entry l)) ls

/-- The numeral of an entry. -/
def Entry.numeral? : Entry → Option Text
  | .char ds => some ds
  | .name ds _ => some ds
  | .face row => some row.number
  | _ => none

/-- What an entry makes of the picture with the number `n` of the character `c`. -/
def Entry.put (c n : Int) (picture? : Option Text) : Entry → Option Text
  | .face row =>
    if row.char ≠ c then picture?
    else if readDecimal? row.number = some n then some row.picture
    else if row.first then none
    else picture?
  | _ => picture?

/-! ### One line -/

variable {s : Standing} {es : List Entry} {r r' : CastReader} {l : Text} {c n : Int} {e : Entry}

def CastReader.standing (r : CastReader) : Standing := ⟨r.part, r.char?, r.faces.isEmpty⟩

def Cast.face? (cast : Cast) (c n : Int) : Option Text := (get? c cast.faces).bind (get? n)

/-- What a reader makes of an entry whose numeral says `n`. -/
def CastReader.take (r : CastReader) (n : Int) : Entry → CastReader
  | .idle => r
  | .part name => { r with part := name }
  | .char _ =>
    if r.char?.all (· = n) then { r with char? := some n }
    else { r with cast := r.flush, char? := some n, names := [], faces := [] }
  | .name _ name => if name.isEmpty then r else { r with names := insert n name r.names }
  | .face row => { r with faces := insert n row.picture r.faces }

theorem line_eq (r : CastReader) (l : Text) : r.line l =
    ((r.standing.entry l).numeral?.elim (.ok 0) numeral).map fun n => r.take n (r.standing.entry l) := by
  have hmap : ∀ (ds : Text) (f : Int → CastReader), (numeral ds >>= fun n => pure (f n)) = (numeral ds).map f :=
    fun ds f => by cases numeral ds <;> rfl
  obtain ⟨cast, char?, names, faces, part⟩ := r
  unfold line Standing.entry standing
  split
  · rfl
  cases sectionName? l with
  | some name => rfl
  | none =>
    cases idDigits? l with
    | some ds =>
      rw [Entry.numeral?, Option.elim_some, ← hmap]
      refine bind_congr fun n => ?_
      rw [CastReader.take]
      split <;> rfl
    | none =>
      cases char? with
      | none => simp only [ite_self]; rfl
      | some c =>
        dsimp only
        split
        · cases nameParts? l with
          | none => rfl
          | some x => exact hmap x.1 _
        split
        · cases faceParts? l with
          | none => rfl
          | some x => exact hmap x.1 _
        · rfl

theorem face?_flush (r : CastReader) (c n : Int) :
    r.flush.face? c n = if r.char? = some c ∧
      r.faces ≠ [] then get? n r.faces else r.cast.face? c n := by
  grind [flush, Cast.face?, get?_insert]

/-- What a reader stands at behind an entry that it takes, and what the pictures then are. -/
theorem take_spec (hknown : r.char? = none → r.faces = []) (hn : ∀ ds ∈ e.numeral?, readDecimal? ds = some n)
    (hrow : ∀ row, e = .face row → r.char? = some row.char ∧ row.first = r.faces.isEmpty) :
    (r.take n e).standing = r.standing.next e ∧ ((r.take n e).char? = none → (r.take n e).faces = []) ∧
      ∀ c m, (r.take n e).flush.face? c m = e.put c m (r.flush.face? c m) := by
  obtain ⟨cast, char?, names, faces, part⟩ := r
  cases e with
  | idle
  | part name => exact ⟨rfl, hknown, fun _ _ => rfl⟩
  | name ds name =>
    rw [CastReader.take]
    split
    · exact ⟨rfl, hknown, fun _ _ => rfl⟩
    · exact ⟨rfl, hknown, fun c m => by simp [face?_flush, Entry.put]⟩
  | char ds =>
    have hds : readDecimal? ds = some n := hn ds rfl
    cases char? with
    | none =>
      obtain rfl := hknown rfl
      refine ⟨?_, ?_, fun c m => ?_⟩ <;> simp [CastReader.take, CastReader.standing, Standing.next, hds, face?_flush, Entry.put]
    | some d =>
      by_cases hd : d = n
      · subst hd
        refine ⟨?_, ?_, fun c m => ?_⟩ <;> simp [CastReader.take, CastReader.standing, Standing.next, hds, face?_flush, Entry.put]
      · refine ⟨?_, ?_, fun c m => ?_⟩ <;> simp [CastReader.take, CastReader.standing, Standing.next, hds, face?_flush, Entry.put, hd]
  | face row =>
    obtain ⟨rfl, hfirst⟩ := hrow row rfl
    have hnum : readDecimal? row.number = some n := hn _ rfl
    have hne : Assoc.insert n row.picture faces ≠ [] := by
      cases faces with
      | nil => simp [Assoc.insert]
      | cons x xs => rw [Assoc.insert]; split <;> simp
    refine ⟨by simp [CastReader.take, CastReader.standing, Standing.next, hne], by simp [CastReader.take], fun c m => ?_⟩
    by_cases hc : row.char = c
    · by_cases hm : n = m
      · subst hm
        simp [CastReader.take, Entry.put, face?_flush, Assoc.get?_insert, hc, hne, hnum]
      · cases faces <;> simp [CastReader.take, Entry.put, face?_flush, Assoc.get?_insert, hc, hm, hne, hnum, hfirst, Assoc.get?]
    · simp [CastReader.take, Entry.put, face?_flush, hc]

/-! ## Tables -/

def Entry.Readable (e : Entry) : Prop := ∀ ds ∈ e.numeral?, (readDecimal? ds).isSome = true

theorem Entry.numeral_cases (e : Entry) :
    (e.Readable ∧ ∃ n, e.numeral?.elim (.ok 0) numeral = .ok n ∧ ∀ ds ∈ e.numeral?, readDecimal? ds = some n) ∨
      ¬ e.Readable ∧ e.numeral?.elim (.ok 0) numeral = .error .badNumeral := by
  unfold Entry.Readable numeral
  cases e.numeral? with
  | none => simp
  | some ds => cases h : readDecimal? ds <;> simp [h]

theorem row_of_entry {row : FaceRow} (h : s.entry l = .face row) :
    s.char? = some row.char ∧ row.first = s.first := by
  grind [Standing.entry]

/-- **The entries of a table are taken one after another**, unless the numeral of one of them cannot
be read. -/
theorem foldlM_line (ls : List Text) (r : CastReader) (hknown : r.char? = none → r.faces = []) :
    ((∀ e ∈ entriesFrom r.standing ls, e.Readable) ∧ ∃ r', ls.foldlM line r = .ok r' ∧
      ∀ c n, r'.flush.face? c n = (entriesFrom r.standing ls).foldl (Entry.put c n) (r.flush.face? c n)) ∨
    (∃ e ∈ entriesFrom r.standing ls, ¬ e.Readable) ∧ ls.foldlM line r = .error .badNumeral := by
  induction ls generalizing r with
  | nil => exact .inl ⟨nofun, r, rfl, fun _ _ => rfl⟩
  | cons l ls ih =>
    rw [foldlM_cons, entriesFrom, forall_mem_cons, line_eq]
    generalize he : r.standing.entry l = e
    rcases e.numeral_cases with ⟨hread, n, hn, hvalue⟩ | ⟨hread, hfail⟩
    · obtain ⟨hstanding, hknown', hface⟩ := take_spec hknown hvalue fun row hrow => row_of_entry (he.trans hrow)
      rw [hn, ← hstanding]
      rcases ih (r.take n e) hknown' with ⟨hall, r', hr', hfaces⟩ | ⟨⟨e', he', hread'⟩, hfail⟩
      · exact .inl ⟨⟨hread, hall⟩, r', hr', fun c m => by rw [hfaces, foldl_cons, hface]⟩
      · exact .inr ⟨⟨e', mem_cons_of_mem _ he', hread'⟩, hfail⟩
    · rw [hfail]
      exact .inr ⟨⟨e, mem_cons_self, hread⟩, rfl⟩

def entriesOf (tables : List (List Text)) : List Entry := tables.flatMap (entriesFrom {})

theorem foldlM_readTable (tables : List (List Text)) (cast : Cast) :
    ((∀ e ∈ entriesOf tables, e.Readable) ∧ ∃ cast', tables.foldlM readTable cast = .ok cast' ∧
      ∀ c n, cast'.face? c n = (entriesOf tables).foldl (Entry.put c n) (cast.face? c n)) ∨
    (∃ e ∈ entriesOf tables, ¬ e.Readable) ∧ tables.foldlM readTable cast = .error .badNumeral := by
  induction tables generalizing cast with
  | nil => exact .inl ⟨nofun, cast, rfl, fun _ _ => rfl⟩
  | cons table tables ih =>
    rw [foldlM_cons, entriesOf, flatMap_cons, forall_mem_append, readTable]
    rcases foldlM_line table { cast := cast } (fun _ => rfl) with ⟨hall, r, hr, hface⟩ | ⟨⟨e, he, hread⟩, hfail⟩
    · rw [hr]
      rcases ih r.flush with ⟨hrest, cast', hcast', hfaces⟩ | ⟨⟨e, he, hread⟩, hfail⟩
      · refine .inl ⟨⟨hall, hrest⟩, cast', hcast', fun c n => ?_⟩
        rw [hfaces, hface, foldl_append]
        rfl
      · exact .inr ⟨⟨e, mem_append_right _ he, hread⟩, hfail⟩
    · rw [hfail]
      exact .inr ⟨⟨e, mem_append_left _ he, hread⟩, rfl⟩

/-- Whether an entry begins the pictures of a character anew. -/
def Entry.renews (c : Int) : Entry → Bool
  | .face row => row.char = c && row.first
  | _ => false

theorem forall_renews_iff :
    (∀ e ∈ es, e.renews c = false) ↔ ∀ row, .face row ∈ es → row.char = c → row.first = false := by
  refine ⟨fun h row hrow hchar => by simpa [Entry.renews, hchar] using h _ hrow, fun h e he => ?_⟩
  cases e with
  | face row => simpa [Entry.renews] using h row he
  | _ => rfl

theorem put_of_ne (h : ∀ row, e = .face row → row.char = c → readDecimal? row.number ≠ some n)
    (picture? : Option Text) : e.put c n picture? = if e.renews c then none else picture? := by
  cases e <;> grind [Entry.put, Entry.renews]

/-- A picture whose number does not come again is kept until the pictures of its character begin
anew. -/
theorem foldl_put (h : ∀ row, .face row ∈ es → row.char = c → readDecimal? row.number ≠ some n)
    (picture? : Option Text) :
    es.foldl (Entry.put c n) picture? = if es.any (Entry.renews c) then none else picture? := by
  induction es generalizing picture? with
  | nil => rfl
  | cons e es ih =>
    rw [foldl_cons, put_of_ne fun row he => h row (he ▸ mem_cons_self),
      ih fun row hrow => h row (mem_cons_of_mem e hrow), any_cons]
    cases e.renews c <;> simp

/-! ### Numerals -/

section

variable {ds text : Text}

theorem of_idDigits? (h : idDigits? l = some ds) : ds ≠ [] ∧ ∀ c ∈ ds, isDecimal c = true := by
  grind [idDigits?]

theorem of_nameParts? (h : nameParts? l = some (ds, text)) :
    ds ≠ [] ∧ ∀ c ∈ ds, isDecimal c = true := by
  grind [nameParts?]

theorem of_faceParts? (h : faceParts? l = some (ds, text)) :
    ds ≠ [] ∧ ∀ c ∈ ds, (hexValue? c).isSome = true := by
  grind [faceParts?]

theorem of_numeral?_entry (h : ds ∈ (s.entry l).numeral?) :
    ds ≠ [] ∧ ∀ c ∈ ds, isDecimal c = true ∨ (hexValue? c).isSome = true := by
  grind [Standing.entry, Entry.numeral?, of_idDigits?, of_nameParts?, of_faceParts?]

end

/-- Decimal digits, not more than are read. -/
def IsDecimal (ds : Text) : Prop := (∀ c ∈ ds, isDecimal c = true) ∧ ds.length ≤ maxDecimalDigits

theorem readable_iff {ls : List Text} (h : e ∈ entriesFrom s ls) :
    e.Readable ↔ ∀ ds ∈ e.numeral?, IsDecimal ds := by
  induction ls generalizing s with
  | nil => cases h
  | cons l ls ih =>
    rcases mem_cons.mp h with rfl | h
    · refine forall₂_congr fun ds hds => ?_
      obtain ⟨hne, hdigits⟩ := of_numeral?_entry hds
      exact isSome_readDecimal?_iff hne hdigits
    · exact ih h

/-! ### The tables of a directory -/

variable {p : Text} {ws : Workspace} {bytes : Text → Bytes}

/-- The lines of each table in a directory, whose files hold some bytes. -/
def castTables (ws : Workspace) (p : Text) (bytes : Text → Bytes) : List (List Text) :=
  ((ws.names p).filter isCastTable).map fun name => lines (unifyNewlines (Cp932.decodeLossy (bytes name)))

theorem run_loadCast (hread : ∀ name ∈ ws.names p, isCastTable name = true →
      Yields (readBytes (Path.child p name)) ws (bytes name) ws) :
    (loadCast p).run.run ws = ((castTables ws p bytes).foldlM readTable {}, ws) := by
  rw [loadCast, Yields.get.run_bind, bind_pure, castTables]
  generalize ws.names p = names at hread
  generalize ({} : Cast) = cast
  induction names generalizing cast with
  | nil => rfl
  | cons name names ih =>
    obtain ⟨hname, hnames⟩ := forall_mem_cons.mp hread
    rw [forIn_cons]
    by_cases htable : isCastTable name = true
    · rw [filter_cons_of_pos htable, map_cons, foldlM_cons, if_pos htable, readCp932Lossy, bind_assoc, bind_assoc,
        (hname htable).run_bind, pure_bind, bind_assoc]
      cases readTable cast (lines (unifyNewlines (Cp932.decodeLossy (bytes name)))) with
      | error f => rfl
      | ok cast' => exact ih hnames cast'
    · rw [filter_cons_of_neg htable, if_neg htable]
      exact ih hnames cast

/-- **When the tables of a directory are read**, whatever bytes they hold: all their numerals must
be decimal digits, not too many. Then the picture of each row is found under the number that its
digits say in decimal, or that of a later row with this number, unless a later row of the character
is the first since the character was named. -/
theorem loadCast_cases (hread : ∀ name ∈ ws.names p, isCastTable name = true →
      Yields (readBytes (Path.child p name)) ws (bytes name) ws) :
    ((∀ e ∈ entriesOf (castTables ws p bytes), ∀ ds ∈ e.numeral?, IsDecimal ds) ∧
      ∃ cast, Yields (loadCast p) ws cast ws ∧ ∀ a row b, entriesOf (castTables ws p bytes) = a ++ .face row :: b →
        ∃ n, readDecimal? row.number = some n ∧
          ((∀ later, .face later ∈ b → later.char = row.char → readDecimal? later.number ≠ some n) →
            (cast.face? row.char n = some row.picture ↔
              ∀ later, .face later ∈ b → later.char = row.char → later.first = false))) ∨
    (∃ e ∈ entriesOf (castTables ws p bytes), ∃ ds ∈ e.numeral?, ¬ IsDecimal ds) ∧
      (loadCast p).run.run ws = (.error .badNumeral, ws) := by
  have hdigits : ∀ e ∈ entriesOf (castTables ws p bytes), e.Readable ↔ ∀ ds ∈ e.numeral?, IsDecimal ds := fun e he => by
    obtain ⟨_, -, he⟩ := mem_flatMap.mp he
    exact readable_iff he
  have hrun := run_loadCast hread
  rcases foldlM_readTable (castTables ws p bytes) {} with ⟨hall, cast, hcast, hface⟩ | ⟨⟨e, he, hbad⟩, hfail⟩
  · refine .inl ⟨fun e he => (hdigits e he).mp (hall e he), cast, hrun.trans (by rw [hcast]), fun a row b hrows => ?_⟩
    rw [hrows] at hall hface
    obtain ⟨n, hn⟩ := Option.isSome_iff_exists.mp (hall (.face row) (by simp) row.number rfl)
    refine ⟨n, hn, fun hlater => ?_⟩
    rw [hface, foldl_append, foldl_cons, foldl_put hlater]
    simp [Entry.put, hn, forall_renews_iff]
  · rw [hdigits e he] at hbad
    exact .inr ⟨⟨e, he, by simpa using hbad⟩, hrun.trans (by rw [hfail])⟩

/-- A table of pictures for the character 1. -/
def faceTable (rows : Text) : Bytes := Utf8.encode ("ID=1\n[FACE_L]\n" ++ rows)

def faceDesk (rows : Text) : Workspace where
  cwd := "/w"
  files := [(["w", "adv", "char001.tbl"], { data := faceTable rows })]
  dirs := [["w", "adv"]]

variable (rows : Text)

theorem names_faceDesk : (faceDesk rows).names "adv" = ["char001.tbl".toList] :=
  mergeSort_singleton _

theorem read_faceDesk : ∀ name ∈ (faceDesk rows).names "adv", isCastTable name = true →
    Yields (readBytes (Path.child "adv" name)) (faceDesk rows) (faceTable rows) (faceDesk rows) := by
  rw [names_faceDesk]
  rintro name hname -
  rw [mem_singleton.mp hname]
  exact yields_readBytes.mpr ⟨_, rfl, rfl, rfl⟩

theorem castTables_faceDesk : castTables (faceDesk rows) "adv" (fun _ => faceTable rows) =
    [lines (unifyNewlines (Cp932.decodeLossy (faceTable rows)))] := by
  rw [castTables, names_faceDesk]
  rfl

/-- Both pictures of a character are found. -/
theorem loadCast_twoFaces :
    ∃ cast, Yields (loadCast "adv") (faceDesk "#10=a\n#2=b") cast (faceDesk "#10=a\n#2=b") ∧
    cast.face? 1 10 = some "a" := by
  have hrows : entriesOf (castTables (faceDesk "#10=a\n#2=b") "adv" fun _ => faceTable "#10=a\n#2=b") =
      [.char "1", .part "FACE_L"] ++ .face ⟨1, "10", "a", true⟩ :: [.face ⟨1, "2", "b", false⟩] := by
    rw [castTables_faceDesk]
    rfl
  rcases loadCast_cases (read_faceDesk "#10=a\n#2=b") with ⟨-, cast, hcast, hfaces⟩ | ⟨-, hfail⟩
  · obtain ⟨n, hn, hface⟩ := hfaces _ _ _ hrows
    obtain rfl : 10 = n := Option.some.inj hn
    refine ⟨cast, hcast, (hface ?_).mpr ?_⟩
    · simpa using by decide
    · simp
  · rw [run_loadCast (read_faceDesk _), castTables_faceDesk] at hfail
    cases hfail

/-- A row whose number is written in hexadecimal keeps all tables from being read. -/
theorem not_loadCast_hexRow : faceParts? "#1A=a" = some ("1A".toList, "a".toList) ∧
    (loadCast "adv").run.run (faceDesk "#1A=a") = (.error .badNumeral, faceDesk "#1A=a") := by
  refine ⟨by decide, ?_⟩
  rw [run_loadCast (read_faceDesk "#1A=a"), castTables_faceDesk]
  rfl

end Localizer.Dialogue
