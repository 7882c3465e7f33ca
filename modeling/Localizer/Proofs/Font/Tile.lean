import Localizer.Font.Tool
import Localizer.Proofs.Fault
import Localizer.Proofs.Word
import Localizer.Proofs.Workspace

/-!
# Tiles and the slots they fill

A tile has two pixels in each byte, row by row (`pixelAt`). A glyph is put on it with its left edge
in a column of the tile, if it is not too wide (`clampedColumn`), and with its baseline on that of
the tile; then the tile is flipped. Where a pixel of the glyph falls on the tile, the tile has the
nearest of sixteen shades, and its other pixels are blank (`tile_shows_glyph`).
-/

namespace Localizer.Font

open List Text

variable {s : Shape} {g : Bitmap} {face : Face} {k w x y : Nat} {α : Type} {f : Nat → List α}

/-! ### Two pixels in a byte -/

variable {leftHigh : Bool} {ps : List Nat} {bs : Bytes}

theorem length_of_pack (h : pack leftHigh ps = .ok bs) : ps.length = 2 * bs.length := by
  fun_induction pack leftHigh ps generalizing bs with
  | case1 =>
    cases h
    rfl
  | case2 => cases h
  | case3 a b ps ih =>
    obtain ⟨rest, hrest, h⟩ := exists_of_bind_ok h
    cases h
    simp only [length_cons, ih hrest]
    omega

/-- The place of a pixel of a tile before the tile is flipped. -/
def Shape.origin (s : Shape) (x y : Nat) : Int × Int :=
  (if s.flipX then s.width - 1 - x else x, if s.flipY then s.height - 1 - y else y)

theorem places_eq (s : Shape) :
    s.places = (range s.height.toNat).flatMap fun y => (range s.width.toNat).map fun x => s.origin x y := rfl

theorem length_flatMap_range (hf : ∀ y, (f y).length = w) (h : Nat) :
    ((range h).flatMap f).length = h * w := by
  simp [length_flatMap, hf]

theorem length_places (h : 0 ≤ s.height) : s.places.length = s.area.toNat := by
  rw [places_eq, length_flatMap_range fun _ => (length_map _).trans length_range, Shape.area]
  rcases le_total 0 s.width with hwidth | hwidth
  · rw [Int.toNat_mul hwidth h, Nat.mul_comm]
  · rw [Int.toNat_of_nonpos hwidth, Int.toNat_of_nonpos (mul_nonpos_of_nonpos_of_nonneg hwidth h), Nat.mul_zero]

theorem length_of_glyphShades {base : Int} {shades : Bytes} (h : glyphShades s base g = .ok shades) :
    shades.length = s.area.toNat := by
  unfold glyphShades at h
  split at h
  · cases h
    exact length_replicate
  · rw [← (forall₂_of_mapM h).length_eq, length_places (by omega)]

theorem room_eq_ok_iff {m : Int} : room m = .ok k ↔ 0 ≤ m ∧ m ≤ maxRoom ∧ k = m.toNat := by
  unfold room maxRoom
  split_ifs <;> simp <;> omega

theorem length_of_tile {t : Text} (heven : s.area % 2 = 0) (h : tile face s t = .ok bs) :
    bs.length = s.size.toNat := by
  cases t with
  | nil =>
    obtain ⟨n, hn, h⟩ := exists_of_bind_ok h
    cases h
    rw [length_replicate]
    exact (room_eq_ok_iff.mp hn).2.2
  | cons c t =>
    obtain ⟨_, -, h⟩ := exists_of_bind_ok h
    split at h
    · cases h
    · obtain ⟨shades, hshades, hbs⟩ := exists_of_bind_ok h
      have hpacked := length_of_pack hbs
      rw [length_map, length_of_glyphShades hshades] at hpacked
      rw [Shape.size]
      omega

open Job Word Nat

variable {draw : Text → Except Fault Bytes} {base size n i : Nat} {ts : List Text} {old new : Bytes} {f : Filling}
  {t : Text} (data : Bytes)

/-- The bytes in the slot at an offset. -/
def slotAt (size offset : Nat) (bs : Bytes) : Bytes := (bs.drop offset).take size

/-- Bytes whose slots from `base` on hold the tiles of texts. A slot whose tile cannot be drawn is
as it was. -/
structure Filled (draw : Text → Except Fault Bytes) (base size : Nat) (ts : List Text)
    (old new : Bytes) : Prop where
  length_eq : new.length = old.length
  outside : ∀ k, k < base ∨ base + ts.length * size ≤ k → new[k]? = old[k]?
  slot : ∀ i t, ts[i]? = some t →
    slotAt size (base + i * size) new = (draw t).toOption.getD (slotAt size (base + i * size) old)

theorem Filled.refl : Filled draw base size [] old old :=
  ⟨rfl, fun _ _ => rfl, fun _ _ h => by simp at h⟩

theorem fillSlot_data (t : Text) (offset : Nat) :
    (fillSlot draw size n i offset t f).data =
      (draw t).toOption.elim f.data (overwrite f.data offset size) := by
  unfold fillSlot
  cases draw t <;> dsimp only <;> split <;> rfl

/-- **One slot is filled.** -/
theorem filled_fillSlot (hdraw : ∀ tile, draw t = .ok tile → tile.length = size)
    (hroom : base + size ≤ f.data.length) :
    Filled draw base size [t] f.data (fillSlot draw size n i base t f).data := by
  rw [fillSlot_data]
  cases htile : draw t with
  | error e =>
    refine ⟨rfl, fun _ _ => rfl, ?_⟩
    rintro (_ | _) u hu
    · cases hu
      rw [htile]
      rfl
    · simp at hu
  | ok tile =>
    have hlength := hdraw tile htile
    refine ⟨length_overwrite hroom hlength, fun k hk => getElem?_overwrite hroom hlength (by simpa using hk), ?_⟩
    rintro (_ | _) u hu
    · cases hu
      rw [htile, slotAt, zero_mul, add_zero]
      exact (congrArg (take size) (drop_overwrite hroom hlength)).trans (take_left' hlength)
    · simp at hu

theorem Filled.append {mid : Bytes} {us : List Text} (h : Filled draw base size ts old mid)
    (h' : Filled draw (base + ts.length * size) size us mid new) :
    Filled draw base size (ts ++ us) old new := by
  refine ⟨h'.length_eq.trans h.length_eq, ?_, ?_⟩
  · intro k hk
    rw [length_append, add_mul] at hk
    rw [h'.outside k (by omega), h.outside k (by omega)]
  · intro i t ht
    rcases lt_or_ge i ts.length with hlt | hge
    · rw [getElem?_append_left hlt] at ht
      have hend : (i + 1) * size ≤ ts.length * size := mul_le_mul_right size hlt
      rw [add_mul] at hend
      rw [← h.slot i t ht]
      exact take_drop_congr fun k _ hk => h'.outside k (by omega)
    · rw [getElem?_append_right hge] at ht
      have hslot := h'.slot _ t ht
      have hplace : base + ts.length * size + (i - ts.length) * size = base + i * size := by
        rw [add_assoc, ← add_mul, add_sub_of_le hge]
      rw [hplace] at hslot
      rw [hslot]
      congr 1
      exact take_drop_congr fun k hk _ => h.outside k (by omega)

/-- Slots that are inside of the bytes are filled, and the loop does not end before the last one. -/
theorem filled_fillSlots (hdraw : ∀ t tile, draw t = .ok tile → tile.length = size)
    (hroom : base + (i + ts.length) * size ≤ f.data.length) :
    Filled draw (base + i * size) size ts f.data (fillSlots draw base size n i ts f).data ∧
      fillSlots draw base size n i ts f =
        (ts.zipIdx i).foldl (fun f x => fillSlot draw size n x.2 (base + x.2 * size) x.1 f) f := by
  induction ts generalizing i f with
  | nil => exact ⟨.refl, rfl⟩
  | cons t ts ih =>
    have hslot : base + i * size + size ≤ f.data.length := by
      rw [length_cons, add_mul, add_mul] at hroom
      omega
    have hone := filled_fillSlot (n := n) (i := i) (hdraw t) hslot
    rw [fillSlots, if_neg (by omega)]
    obtain ⟨hfilled, hloop⟩ := ih (i := i + 1) (f := fillSlot draw size n i (base + i * size) t f)
      (by rw [hone.length_eq]; rw [length_cons] at hroom; rwa [add_assoc, add_comm 1])
    exact ⟨hone.append (by simpa [add_mul, add_assoc] using hfilled), hloop⟩

/-! ### Configurations -/

variable {c : Config}

theorem of_check {c' : Config} (h : c.check = .ok c') :
    c = c' ∧ 0 < c.tileWidth ∧ 0 < c.tileHeight ∧ c.shape.area % 2 = 0 ∧
      ∀ offset, c.offset? = some offset → 0 ≤ offset := by
  unfold Config.check at h
  split_ifs at h with hpositive heven _ hoffset
  cases h
  simp only [Bool.or_eq_true, decide_eq_true_eq, not_or, not_le] at hpositive
  refine ⟨rfl, hpositive.1, hpositive.2, not_not.mp heven, ?_⟩
  intro offset hoffset'
  simpa [hoffset'] using hoffset

theorem of_ofIni {ini : Ini} {dir : Text} (h : Config.ofIni ini dir = .ok c) :
    0 < c.tileWidth ∧ 0 < c.tileHeight ∧ c.shape.area % 2 = 0 ∧
      (c.mode = .patch ∧ (∃ offset : Nat, c.offset? = some (offset : Int)) ∨ c.mode = .tiles ∧ c.offset? = none) := by
  obtain ⟨mode, -, h⟩ := exists_of_bind_ok h
  iterate 9 obtain ⟨_, -, h⟩ := exists_of_bind_ok h
  obtain ⟨offset?, hoffset, h⟩ := exists_of_bind_ok h
  iterate 4 obtain ⟨_, -, h⟩ := exists_of_bind_ok h
  obtain ⟨rfl, hwidth, hheight, heven, hsign⟩ := of_check h
  refine ⟨hwidth, hheight, heven, ?_⟩
  cases mode with
  | patch =>
    obtain ⟨_, -, hoffset⟩ := exists_of_bind_ok hoffset
    obtain ⟨offset, -, hoffset⟩ := exists_of_bind_ok hoffset
    cases hoffset
    obtain ⟨n, hn⟩ := Int.eq_ofNat_of_zero_le (hsign offset rfl)
    exact .inl ⟨rfl, n, by rw [hn]⟩
  | tiles =>
    cases hoffset
    exact .inr ⟨rfl, rfl⟩

/-! ### The job -/

variable {ws ws' : Workspace} {p o : Text} {a : α}

/-- A workspace in which something else has been printed. -/
def printed (o : Text) (ws : Workspace) : Workspace := { ws with out := o }

theorem follow_printed (q : Place) (names : List Text) :
    (printed o ws).follow q names = ws.follow q names := by
  induction names generalizing q with
  | nil => rfl
  | cons n names ih =>
    simp only [Workspace.follow, ih]
    rfl

theorem locate_printed (names : List Text) : (printed o ws).locate p names = ws.locate p names := by
  simp only [Workspace.locate, follow_printed]
  rfl

theorem readBytes_printed (o : Text) (h : Yields (readBytes p) ws bs ws) :
    Yields (readBytes p) (printed o ws) bs (printed o ws) := by
  obtain ⟨f, hread, hbytes, -⟩ := yields_readBytes.mp h
  refine yields_readBytes.mpr ⟨f, ?_, hbytes, rfl⟩
  rw [← hread, Workspace.read, Workspace.look, locate_printed]
  rfl

theorem loadTexts_printed {texts : List Text} (o : Text) (h : Yields (loadTexts p) ws texts ws) :
    Yields (loadTexts p) (printed o ws) texts (printed o ws) := by
  obtain ⟨bs, _, hbytes, hrest⟩ := yields_bind.mp h
  obtain ⟨rfl, rfl⟩ := yields_pure.mp hrest
  exact (readBytes_printed o hbytes).bind (.pure rfl)

theorem startBytes_printed (o : Text) (h : Yields (startBytes c) ws bs ws) :
    Yields (startBytes c) (printed o ws) bs (printed o ws) := by
  unfold startBytes at h ⊢
  split_ifs at h ⊢
  · exact readBytes_printed o h
  · exact .pure ((yields_pure.mp h).1)

theorem yields_print_bind {f : Unit → Job α} :
    Yields (print t >>= f) (printed o ws) a ws' ↔ Yields (f ()) (printed (o ++ t) ws) a ws' :=
  Yields.bind_iff rfl

theorem yields_room_bind {m : Nat} {f : Nat → Job α} :
    Yields (Job.ofExcept (room m) >>= f) ws a ws' ↔ (m : Int) ≤ maxRoom ∧ Yields (f m) ws a ws' := by
  simp only [yields_bind, yields_ofExcept, room_eq_ok_iff]
  simp

theorem yields_writeBytes_print : Yields (do writeBytes p bs; print t) (printed o ws) () ws' ↔
      ∃ ws₁, Yields (writeBytes p bs) ws () ws₁ ∧ ws' = printed (o ++ t) ws₁ := by
  refine ⟨fun h => ?_, ?_⟩
  · obtain ⟨_, _, hwrite, hprint⟩ := yields_bind.mp h
    obtain ⟨q, hsite, hdir, hlast, rfl⟩ := yields_writeFile.mp hwrite
    exact ⟨_, yields_writeFile.mpr ⟨q, (locate_printed _).symm.trans hsite, hdir, hlast, rfl⟩, (hprint.unique rfl).2⟩
  · rintro ⟨_, hwrite, rfl⟩
    obtain ⟨q, hsite, hdir, hlast, rfl⟩ := yields_writeFile.mp hwrite
    have hwrite' : Yields (writeBytes p bs) (printed o ws) () _ :=
      yields_writeFile.mpr ⟨q, (locate_printed _).trans hsite, hdir, hlast, rfl⟩
    exact hwrite'.bind rfl

theorem extend_of_room (n : Nat) : extend data (data.length + (n - data.length)) = extend data n := by
  rw [extend, extend, Nat.add_sub_cancel_left]

theorem length_extend (n : Nat) : (extend data n).length = max data.length n := by
  rw [extend, length_append, length_replicate]
  omega

/-- The slots after a job, filled from bytes that were long enough for them. -/
def Config.fill (face : Face) (c : Config) (ts : List Text) (data : Bytes) : Filling :=
  fillSlots (tile face c.shape) c.base c.shape.size.toNat ts.length 0 ts { data := extend data (c.endOfSlots ts.length) }

theorem yields_perform_iff (face : Face) {all : List Text} {data : Bytes} (hall : Yields (loadTexts c.codeTable) ws all ws)
    (hdata : Yields (startBytes c) ws data ws) :
    ∃ o, ∀ ws', Yields (perform face c) ws () ws' ↔
      ((c.endOfSlots (c.selected all).length - data.length : Nat) : Int) ≤ maxRoom ∧
        ∃ ws₁, Yields (writeBytes c.output (c.fill face (c.selected all) data).data) ws () ws₁ ∧ ws' = printed o ws₁ := by
  apply Exists.intro
  intro ws'
  change Yields (perform face c) (printed ws.out ws) () ws' ↔ _
  unfold perform printLine
  rw [yields_print_bind, yields_print_bind, (loadTexts_printed _ hall).bind_iff, yields_print_bind,
    (startBytes_printed _ hdata).bind_iff, yields_room_bind, yields_print_bind, yields_print_bind, yields_writeBytes_print,
    extend_of_room]
  exact Iff.rfl

/-- **A font job changes only its slots.** It puts tiles into the bytes of a file from an offset on,
or into none from their start. The bytes are made long enough with zeros, then each slot gets its
tile, and one whose tile cannot be drawn is as it was. The loop never meets a slot that is not
inside of the bytes. The result is written, and the job ends well exactly if there is room for the
zeros and the output can be written. -/
theorem perform_fills_slots (face : Face) {ini : Ini} {dir : Text} (hc : Config.ofIni ini dir = .ok c) {all ts : List Text}
    {data : Bytes} (hall : Yields (loadTexts c.codeTable) ws all ws) (hts : c.selected all = ts)
    (hdata : Yields (startBytes c) ws data ws) :
    (c.mode = .patch ∧ c.offset? = some (c.base : Int) ∨ c.mode = .tiles ∧ c.base = 0 ∧ data = []) ∧
      ∃ filled : Filling, filled.data.length = max data.length (c.endOfSlots ts.length) ∧
        Filled (tile face c.shape) c.base c.shape.size.toNat ts (extend data (c.endOfSlots ts.length)) filled.data ∧
        fillSlots (tile face c.shape) c.base c.shape.size.toNat ts.length 0 ts { data := extend data (c.endOfSlots ts.length) } =
          filled ∧
        ts.zipIdx.foldl (fun f x => fillSlot (tile face c.shape) c.shape.size.toNat ts.length x.2
          (c.base + x.2 * c.shape.size.toNat) x.1 f) { data := extend data (c.endOfSlots ts.length) } = filled ∧
        (∀ ws', Yields (perform face c) ws () ws' → Yields (readBytes c.output) ws' filled.data ws') ∧
        ((∃ ws', Yields (perform face c) ws () ws') ↔
          ((c.endOfSlots ts.length - data.length : Nat) : Int) ≤ maxRoom ∧
            ∃ ws', Yields (writeBytes c.output filled.data) ws () ws') := by
  subst hts
  obtain ⟨-, -, heven, hmode⟩ := of_ofIni hc
  obtain ⟨o, hperform⟩ := yields_perform_iff face hall hdata
  have hlength := length_extend data (c.endOfSlots (c.selected all).length)
  have hdraw : ∀ t bs, tile face c.shape t = .ok bs → bs.length = c.shape.size.toNat := fun _ _ => length_of_tile heven
  have hroom : c.base + (0 + (c.selected all).length) * c.shape.size.toNat ≤
      (extend data (c.endOfSlots (c.selected all).length)).length := by
    rw [hlength, zero_add]
    exact le_max_right ..
  obtain ⟨hfilled, hloop⟩ := filled_fillSlots (n := (c.selected all).length) (f := { data := extend data _ }) hdraw hroom
  rw [zero_mul, add_zero] at hfilled
  refine ⟨?_, c.fill face (c.selected all) data, hfilled.length_eq.trans hlength, hfilled, rfl, hloop.symm, ?_, ?_⟩
  · rcases hmode with ⟨hmode, offset, hoffset⟩ | ⟨hmode, hoffset⟩
    · exact .inl ⟨hmode, by rw [Config.base, hoffset]; rfl⟩
    · rw [startBytes, hmode, if_neg (by decide)] at hdata
      exact .inr ⟨hmode, by rw [Config.base, hoffset]; rfl, (yields_pure.mp hdata).1.symm⟩
  · intro ws' h
    obtain ⟨-, _, hwrite, rfl⟩ := (hperform ws').mp h
    exact readBytes_printed o (readBytes_of_writeBytes hwrite)
  · simp only [hperform]
    exact ⟨fun ⟨_, hfits, ws₁, hwrite, _⟩ => ⟨hfits, ws₁, hwrite⟩, fun ⟨hfits, ws₁, hwrite⟩ => ⟨_, hfits, ws₁, hwrite, rfl⟩⟩

def dotIni : Ini where
  sections := ["write", "paths", "font", "tile"]
  values := [(("write", "offset"), ["2"]), (("paths", "input"), ["a"]), (("paths", "output"), ["b"]),
    (("paths", "codetable"), ["c"]), (("paths", "font"), ["f"]), (("font", "size_px"), ["1"]), (("tile", "width"), ["2"]),
    (("tile", "height"), ["1"])]

def dotConfig : Config where
  mode := .patch
  input := "/w/a"
  output := "/w/b"
  codeTable := "/w/c"
  font := "/w/f"
  fontIndex := 0
  fontSize := 1
  tileWidth := 2
  tileHeight := 1
  offset? := some 2
  maxTiles? := none
  leftHigh := false
  flipX := false
  flipY := false

theorem ofIni_dotIni : Config.ofIni dotIni "/w" = .ok dotConfig := by
  have hbasic : ∀ c ∈ ("patch" : Text), c.toNat < 0x41 ∨ 0x5A < c.toNat ∧ c.toNat < 0x80 := by simp
  have hlower : lower "patch" = "patch" := lowerAfter_eq_self fun c hc => staysLow_of_basic (hbasic c hc)
  have hmode : modeOf dotIni = .ok .patch := by
    unfold modeOf
    rw [show trim ((dotIni.get? "mode" "kind").getD "patch") = "patch" from rfl, hlower]
    rfl
  rw [Config.ofIni, hmode]
  rfl

/-- A face in which only `A` is drawn, as one pixel. -/
def dotFace : Face := { glyphs := [('A', ⟨1, 1, 0, 0, 1, [255]⟩)] }

def dotDesk : Workspace where
  cwd := "/w"
  files := [(["w", "a"], { data := [1, 2, 3] }), (["w", "c"], { data := [0x3D, 0, 0x41, 0, 0x0A, 0, 0x3D, 0, 0x42, 0] })]

theorem loadTexts_dotDesk : Yields (loadTexts "/w/c") dotDesk ["A", "B"] dotDesk := by
  have hbytes : Yields (readBytes "/w/c") dotDesk [0x3D, 0, 0x41, 0, 0x0A, 0, 0x3D, 0, 0x42, 0] dotDesk :=
    yields_readBytes.mpr ⟨_, rfl, rfl, rfl⟩
  exact hbytes.bind (.pure (by decide))

theorem perform_fills_slots_dot :
    ∃ ws', Yields (perform dotFace dotConfig) dotDesk () ws' ∧
      Yields (readBytes "/w/b") ws' [1, 2, 15, 0] ws' := by
  have hinput : Yields (startBytes dotConfig) dotDesk [1, 2, 3] dotDesk := yields_readBytes.mpr ⟨_, rfl, rfl, rfl⟩
  obtain ⟨-, filled, -, -, hfilled, -, hwritten, hends⟩ :=
    perform_fills_slots dotFace ofIni_dotIni loadTexts_dotDesk rfl hinput
  have hdata : filled.data = [1, 2, 15, 0] := by
    rw [← hfilled]
    decide
  rw [hdata] at hwritten hends
  obtain ⟨ws', h⟩ := hends.mpr ⟨by decide, _, yields_writeFile.mpr ⟨["w", "b"], rfl, rfl, by decide, rfl⟩⟩
  exact ⟨ws', h, hwritten ws' h⟩

end Localizer.Font
