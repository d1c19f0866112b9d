import MacXterm.Connect.PlainDecode

namespace Connect.Rfb

open Qt Picture

variable {rest : QByteArray}

section Reader

theorem u8_cons (b : UInt8) (rest : QByteArray) (bad : Bool) :
    TileReader.u8 ⟨b :: rest, bad⟩ = (b, ⟨rest, bad⟩) := rfl

theorem cpixel_bytes (c : CPixel) (rest : QByteArray) (bad : Bool) :
    TileReader.cpixel ⟨c.bytes ++ rest, bad⟩ = (c.argb, ⟨rest, bad⟩) := rfl

theorem palette_bytes {size : Nat} (palette : Fin size → CPixel) (rest : QByteArray) :
    TileReader.palette size ⟨paletteBytes palette ++ rest, false⟩ =
      ((List.ofFn palette).map CPixel.argb, ⟨rest, false⟩) := by
  unfold paletteBytes
  induction size with
  | zero => rfl
  | succ size ih =>
    rw [List.ofFn_succ, List.flatMap_cons, List.append_assoc]
    simp only [TileReader.palette, cpixel_bytes, ih, List.map_cons]

theorem sumBytes_run (k m : Nat) (hm : m < 255) (rest : QByteArray) :
    TileReader.sumBytes (List.replicate k 255 ++ [.ofNat m] ++ rest) =
      (((k * 255 + m : Nat) : Int), ⟨rest, false⟩) := by
  induction k with
  | zero =>
    have hbyte : (UInt8.ofNat m).toNat = m := by
      rw [UInt8.toNat_ofNat', Nat.mod_eq_of_lt (by omega)]
    have hne : UInt8.ofNat m ≠ 255 := by
      intro heq
      have hmax : (255 : UInt8).toNat = 255 := rfl
      rw [heq, hmax] at hbyte
      omega
    rw [List.replicate_zero, List.nil_append, List.singleton_append, TileReader.sumBytes,
      if_neg hne, hbyte, Nat.zero_mul, Nat.zero_add]
  | succ k ih =>
    have hnext : (255 : Int) + (k * 255 + m : Nat) = ((k + 1) * 255 + m : Nat) := by omega
    rw [List.replicate_succ, List.cons_append, List.cons_append, TileReader.sumBytes, if_pos rfl, ih,
      ← hnext]

theorem runLength_bytes {n : Nat} (hpos : 0 < n) (hn : n < 2 ^ 31) (rest : QByteArray) :
    TileReader.runLength ⟨runBytes n ++ rest, false⟩ = ((n : Int), ⟨rest, false⟩) := by
  have hsum := sumBytes_run ((n - 1) / 255) ((n - 1) % 255) (Nat.mod_lt _ (by decide)) rest
  have hdiv := Nat.div_add_mod (n - 1) 255
  have hcount : (n - 1) / 255 * 255 + (n - 1) % 255 = n - 1 := by omega
  rw [hcount] at hsum
  simp only [TileReader.runLength, runBytes, hsum, Bool.false_eq_true, if_false, Prod.mk.injEq,
    and_true]
  rw [int32_eq] <;> omega

end Reader

section Cells

variable {t : Tile} {f : Picture UInt32}

def Tile.painted (t : Tile) (f : Picture UInt32) (colours : List UInt32) : List UInt32 :=
  raster t.w t.h (written f t.tx t.ty t.tw colours)

theorem put_painted (htw : 0 < t.tw) (colours : List UInt32) (c : UInt32) :
    t.put (t.painted f colours) (colours.length % t.tw) (colours.length / t.tw) c =
      t.painted f (colours ++ [c]) := put_written f t.tx t.ty htw colours c

theorem put_at {x y : Nat} (hx : x < t.tw) {colours : List UInt32}
    (hlength : colours.length = y * t.tw + x) (c : UInt32) :
    t.put (t.painted f colours) x y c = t.painted f (colours ++ [c]) := by
  have htw : 0 < t.tw := by omega
  have hput := put_painted (f := f) htw colours c
  rwa [hlength, Nat.mul_comm, Nat.mul_add_mod, Nat.mod_eq_of_lt hx, Nat.mul_add_div htw,
    Nat.div_eq_of_lt hx, Nat.add_zero] at hput

theorem raw_tile (pixels : List CPixel) (hlength : pixels.length = t.tw * t.th) :
    t.raw ⟨t.painted f [], ⟨pixels.flatMap CPixel.bytes ++ rest, false⟩⟩ =
      ⟨t.painted f (pixels.map CPixel.argb), ⟨rest, false⟩⟩ := by
  let state (k : Nat) : TileState :=
    ⟨t.painted f ((pixels.take k).map CPixel.argb),
      ⟨(pixels.drop k).flatMap CPixel.bytes ++ rest, false⟩⟩
  let cell (y : Nat) (s : TileState) (x : Nat) : TileState :=
    ⟨t.put s.pixels x y s.reader.cpixel.1, s.reader.cpixel.2⟩
  have hrow : ∀ y < t.th,
      (List.range t.tw).foldl (cell y) (state (y * t.tw)) = state ((y + 1) * t.tw) := by
    intro y hy
    have hcells := foldl_steps (cell y) (fun x => state (y * t.tw + x)) (n := t.tw) ?_
    · rwa [← Nat.succ_mul] at hcells
    · intro x hx
      have hk : y * t.tw + x < pixels.length := by
        have hle := Nat.mul_le_mul_right t.tw (Nat.succ_le_of_lt hy)
        rw [Nat.succ_mul] at hle
        rw [hlength, Nat.mul_comm t.tw]
        omega
      have hsize : ((pixels.take (y * t.tw + x)).map CPixel.argb).length = y * t.tw + x := by
        rw [List.length_map, List.length_take, Nat.min_eq_left (Nat.le_of_lt hk)]
      simp only [cell, state, List.drop_eq_getElem_cons hk, List.flatMap_cons, List.append_assoc,
        cpixel_bytes, put_at hx hsize, ← Nat.add_assoc, List.take_succ_eq_append_getElem hk,
        List.map_append, List.map_cons, List.map_nil]
  have hrows := foldl_steps (fun s y => (List.range t.tw).foldl (cell y) s)
    (fun y => state (y * t.tw)) hrow
  have hfirst : state (0 * t.tw) =
      ⟨t.painted f [], ⟨pixels.flatMap CPixel.bytes ++ rest, false⟩⟩ := by
    simp [state]
  have hlast : state (t.th * t.tw) = ⟨t.painted f (pixels.map CPixel.argb), ⟨rest, false⟩⟩ := by
    have hall : t.th * t.tw = pixels.length := by rw [hlength, Nat.mul_comm]
    simp only [state, hall, List.take_length, List.drop_length]
    rfl
  rw [← hlast, ← hrows, ← hfirst]
  rfl

theorem painted_nil : t.painted f [] = raster t.w t.h f := by rw [Tile.painted, written_nil]

theorem solid_tile (c : CPixel) :
    t.solid ⟨t.painted f [], ⟨c.bytes ++ rest, false⟩⟩ =
      ⟨t.painted f (List.replicate (t.tw * t.th) c.argb), ⟨rest, false⟩⟩ := by
  simp only [Tile.solid, cpixel_bytes, fill_raster, Tile.painted, written_nil]
  rw [← written_raster, raster_const, Nat.mul_comm]

end Cells

section Packed

variable {t : Tile} {f : Picture UInt32} {bits : Nat}

def rowColours (palette : List UInt32) (bits tw : Nat) (row : QByteArray) : List UInt32 :=
  (List.range tw).map fun x => palette.getD (packedIndex bits row x) 0xFF000000

theorem bits_fresh (hbits : bits = 1 ∨ bits = 2 ∨ bits = 4) {x : Nat} (h : x * bits % 8 = 0) :
    (8 - x * bits % 8) % 8 = 0 ∧ (x * bits + 7) / 8 = x * bits / 8 ∧
      (8 - (x + 1) * bits % 8) % 8 = 8 - bits ∧ ((x + 1) * bits + 7) / 8 = x * bits / 8 + 1 ∧
      ((x + 1) * bits - 1) / 8 = x * bits / 8 := by
  rcases hbits with rfl | rfl | rfl
  · omega
  · omega
  · omega

theorem bits_left (hbits : bits = 1 ∨ bits = 2 ∨ bits = 4) {x : Nat} (h : x * bits % 8 ≠ 0) :
    (8 - x * bits % 8) % 8 = 8 - x * bits % 8 ∧ (x * bits - 1) / 8 = x * bits / 8 ∧
      (8 - (x + 1) * bits % 8) % 8 = 8 - bits - x * bits % 8 ∧
      8 - x * bits % 8 - bits = 8 - bits - x * bits % 8 ∧
      ((x + 1) * bits + 7) / 8 = (x * bits + 7) / 8 ∧
      ((x + 1) * bits - 1) / 8 = x * bits / 8 := by
  rcases hbits with rfl | rfl | rfl
  · omega
  · omega
  · omega

def packedState (t : Tile) (f : Picture UInt32) (palette : List UInt32) (bits : Nat)
    (row later : QByteArray) (before : List UInt32) (k : Nat) : Tile.PackedState :=
  ⟨(8 - k * bits % 8) % 8, if k = 0 then 0 else row.getD ((k * bits - 1) / 8) 0,
    ⟨t.painted f (before ++ rowColours palette bits k row),
      ⟨row.drop ((k * bits + 7) / 8) ++ later, false⟩⟩⟩

theorem rowColours_succ (palette : List UInt32) (k : Nat) (row : QByteArray) :
    rowColours palette bits (k + 1) row =
      rowColours palette bits k row ++ [palette.getD (packedIndex bits row k) 0xFF000000] := by
  rw [rowColours, List.range_succ, List.map_append]
  rfl

theorem packedPixel_state (hbits : bits = 1 ∨ bits = 2 ∨ bits = 4) (palette : List UInt32)
    {row : QByteArray} (hrow : row.length = (t.tw * bits + 7) / 8) (later : QByteArray)
    {before : List UInt32} {x y : Nat} (hbefore : before.length = y * t.tw) (hx : x < t.tw) :
    t.packedPixel palette bits y (packedState t f palette bits row later before x) x =
      packedState t f palette bits row later before (x + 1) := by
  have hput : ∀ c, t.put (t.painted f (before ++ rowColours palette bits x row)) x y c =
      t.painted f (before ++ rowColours palette bits x row ++ [c]) := by
    refine put_at hx ?_
    simp [rowColours, hbefore]
  have hindex (byte : UInt8) (shift : Nat) : byte.toNat >>> shift &&& 2 ^ bits - 1 =
      byte.toNat / 2 ^ shift % 2 ^ bits := by
    rw [Nat.and_two_pow_sub_one_eq_mod, Nat.shiftRight_eq_div_pow]
  have hnext : ¬ x + 1 = 0 := by omega
  by_cases hzero : x * bits % 8 = 0
  · obtain ⟨hbit, hat, hbit', hat', hcur⟩ := bits_fresh hbits hzero
    have hj : x * bits / 8 < row.length := by
      rw [hrow]
      rcases hbits with rfl | rfl | rfl
      · omega
      · omega
      · omega
    simp only [packedState, Tile.packedPixel, hat, hbit', hat', hcur, if_true, if_neg hnext,
      List.drop_eq_getElem_cons hj, List.cons_append, u8_cons, hput, hindex, rowColours_succ,
      packedIndex, hzero, Nat.sub_zero, List.getD_eq_getElem?_getD, List.getElem?_eq_getElem hj,
      Option.getD_some, List.append_assoc]
  · obtain ⟨hbit, hcur, hbit', hshift, hat, hcur'⟩ := bits_left hbits hzero
    have hx0 : x ≠ 0 := by
      rintro rfl
      simp at hzero
    have hleft : 8 - x * bits % 8 ≠ 0 := Nat.sub_ne_zero_of_lt (Nat.mod_lt _ (by decide))
    simp only [packedState, Tile.packedPixel, hbit, hbit', hat, hcur, hcur', hshift, if_neg hnext,
      if_neg hx0, if_neg hleft, hput, hindex, rowColours_succ, packedIndex, List.append_assoc]

theorem packed_row (hbits : bits = 1 ∨ bits = 2 ∨ bits = 4) (palette : List UInt32)
    {row : QByteArray} (hrow : row.length = (t.tw * bits + 7) / 8) (later : QByteArray)
    {before : List UInt32} {y : Nat} (hbefore : before.length = y * t.tw) :
    ((List.range t.tw).foldl (t.packedPixel palette bits y)
        ⟨0, 0, ⟨t.painted f before, ⟨row ++ later, false⟩⟩⟩).state =
      ⟨t.painted f (before ++ rowColours palette bits t.tw row), ⟨later, false⟩⟩ := by
  have hcells := foldl_steps (t.packedPixel palette bits y)
    (packedState t f palette bits row later before) (n := t.tw)
    (fun x hx => packedPixel_state hbits palette hrow later hbefore hx)
  have hfirst : packedState t f palette bits row later before 0 =
      ⟨0, 0, ⟨t.painted f before, ⟨row ++ later, false⟩⟩⟩ := by
    simp [packedState, rowColours]
  rw [← hfirst, hcells, packedState, ← hrow, List.drop_length]
  rfl

theorem packed_tile {size : Nat} (palette : Fin size → CPixel) (rows : List QByteArray)
    (hth : rows.length = t.th)
    (hrows : ∀ row ∈ rows, row.length = (t.tw * indexBits size + 7) / 8) :
    t.packed size ⟨t.painted f [], ⟨paletteBytes palette ++ rows.flatten ++ rest, false⟩⟩ =
      ⟨t.painted f (rows.flatMap
        (rowColours ((List.ofFn palette).map CPixel.argb) (indexBits size) t.tw)),
        ⟨rest, false⟩⟩ := by
  have hbits : indexBits size = 1 ∨ indexBits size = 2 ∨ indexBits size = 4 := by
    unfold indexBits
    split
    · exact .inl rfl
    · split
      · exact .inr (.inl rfl)
      · exact .inr (.inr rfl)
  let colours := rowColours ((List.ofFn palette).map CPixel.argb) (indexBits size) t.tw
  let state (y : Nat) : TileState :=
    ⟨t.painted f ((rows.take y).flatMap colours), ⟨(rows.drop y).flatten ++ rest, false⟩⟩
  let line (s : TileState) (y : Nat) : TileState :=
    if s.reader.bad then s
    else ((List.range t.tw).foldl (t.packedPixel ((List.ofFn palette).map CPixel.argb)
      (indexBits size) y) ⟨0, 0, s⟩).state
  have hlines := foldl_steps line state (n := t.th) ?_
  · have hfirst : state 0 = ⟨t.painted f [], ⟨rows.flatten ++ rest, false⟩⟩ := by simp [state]
    have hlast : state t.th = ⟨t.painted f (rows.flatMap colours), ⟨rest, false⟩⟩ := by
      simp only [state, ← hth, List.take_length, List.drop_length]
      rfl
    rw [hlast, hfirst] at hlines
    rw [← hlines, List.append_assoc]
    simp only [Tile.packed, palette_bytes]
    rfl
  · intro y hy
    have hy : y < rows.length := by omega
    have hbefore : ((rows.take y).flatMap colours).length = y * t.tw := by
      have hall : ∀ row, (colours row).length = t.tw := by simp [colours, rowColours]
      simp [List.length_flatMap, hall, Nat.min_eq_left (Nat.le_of_lt hy)]
    have hline := packed_row (f := f) hbits ((List.ofFn palette).map CPixel.argb)
      (hrows _ (List.getElem_mem hy)) ((rows.drop (y + 1)).flatten ++ rest) hbefore
    simp only [line, state, Bool.false_eq_true, if_false, List.drop_eq_getElem_cons hy,
      List.flatten_cons, List.append_assoc, hline, List.take_succ_eq_append_getElem hy,
      List.flatMap_append, List.flatMap_cons, List.flatMap_nil, List.append_nil]
    rfl

end Packed

section Runs

variable {t : Tile} {f : Picture UInt32}

theorem advance {width k : Nat} (hwidth : 0 < width) :
    (width ≤ k % width + 1 → (k + 1) % width = 0 ∧ (k + 1) / width = k / width + 1) ∧
      (¬ width ≤ k % width + 1 →
        (k + 1) % width = k % width + 1 ∧ (k + 1) / width = k / width) := by
  have hdiv := Nat.div_add_mod k width
  have hmod := Nat.mod_lt k hwidth
  constructor
  · intro hend
    have hnext : k + 1 = width * (k / width + 1) := by
      rw [Nat.mul_add, Nat.mul_one]
      omega
    rw [hnext, Nat.mul_mod_right, Nat.mul_div_cancel_left _ hwidth]
    exact ⟨rfl, rfl⟩
  · intro hend
    have hnext : k + 1 = width * (k / width) + (k % width + 1) := by omega
    have hlt : k % width + 1 < width := by omega
    rw [hnext, Nat.mul_add_mod, Nat.mod_eq_of_lt hlt, Nat.mul_add_div hwidth,
      Nat.div_eq_of_lt hlt, Nat.add_zero]
    exact ⟨rfl, rfl⟩

theorem spread_run (htw : 0 < t.tw) (c : UInt32) {run : Nat} {colours : List UInt32}
    (hroom : colours.length + run ≤ t.tw * t.th) :
    t.spread c run ⟨colours.length % t.tw, colours.length / t.tw, t.painted f colours⟩ =
      ⟨(colours.length + run) % t.tw, (colours.length + run) / t.tw,
        t.painted f (colours ++ List.replicate run c)⟩ := by
  induction run generalizing colours with
  | zero => rw [Tile.spread, Nat.add_zero, List.replicate_zero, List.append_nil]
  | succ run ih =>
    have hy : colours.length / t.tw < t.th := Nat.div_lt_of_lt_mul (by omega)
    have hlength : (colours ++ [c]).length = colours.length + 1 := by simp
    have hnext := @ih (colours ++ [c]) (by omega)
    obtain ⟨hwrap, hstay⟩ := advance (k := colours.length) htw
    rw [hlength, Nat.add_right_comm, List.append_assoc] at hnext
    rw [Tile.spread]
    simp only [if_pos hy, put_painted htw]
    by_cases hend : t.tw ≤ colours.length % t.tw + 1
    · obtain ⟨hx, hline⟩ := hwrap hend
      rw [hx, hline] at hnext
      rw [if_pos hend, hnext]
      rfl
    · obtain ⟨hx, hline⟩ := hstay hend
      rw [hx, hline] at hnext
      rw [if_neg hend, hnext]
      rfl

variable {δ : Type} {next : TileReader → UInt32 × Int × TileReader} {bytes : δ → QByteArray}
  {colour : δ → UInt32} {len : δ → Nat}

theorem runs_all (htw : 0 < t.tw) (xs : List δ)
    (hnext : ∀ a ∈ xs, ∀ rest, next ⟨bytes a ++ rest, false⟩ =
      (colour a, (len a : Int), ⟨rest, false⟩))
    (hpos : ∀ a ∈ xs, 0 < len a) (before : List UInt32)
    (hlength : before.length + (xs.flatMap fun a => List.replicate (len a) (colour a)).length =
      t.tw * t.th)
    (fuel : Nat) (hfuel : xs.length < fuel) (rest : QByteArray) :
    t.runs next fuel ⟨before.length % t.tw, before.length / t.tw, t.painted f before⟩
        ⟨xs.flatMap bytes ++ rest, false⟩ =
      ⟨t.painted f (before ++ xs.flatMap fun a => List.replicate (len a) (colour a)),
        ⟨rest, false⟩⟩ := by
  induction xs generalizing before fuel with
  | nil =>
    obtain ⟨fuel, rfl⟩ := Nat.exists_eq_succ_of_ne_zero (Nat.ne_of_gt hfuel)
    have hdone : ¬ before.length / t.tw < t.th := by
      rw [List.flatMap_nil, List.length_nil, Nat.add_zero] at hlength
      rw [hlength, Nat.mul_div_cancel_left _ htw]
      omega
    rw [Tile.runs, if_neg (fun h => hdone h.1)]
    simp
  | cons a xs ih =>
    obtain ⟨fuel, rfl⟩ := Nat.exists_eq_succ_of_ne_zero (Nat.ne_of_gt (Nat.zero_lt_of_lt hfuel))
    rw [List.length_cons] at hfuel
    rw [List.flatMap_cons, List.length_append, List.length_replicate] at hlength
    have ha := hpos a List.mem_cons_self
    have hy : before.length / t.tw < t.th := Nat.div_lt_of_lt_mul (by omega)
    have hrun := hnext a List.mem_cons_self (xs.flatMap bytes ++ rest)
    have hsize : (before ++ List.replicate (len a) (colour a)).length = before.length + len a := by
      simp
    have hrest := ih (fun b hb => hnext b (List.mem_cons_of_mem _ hb))
      (fun b hb => hpos b (List.mem_cons_of_mem _ hb))
      (before ++ List.replicate (len a) (colour a)) (by omega) fuel (by omega)
    rw [hsize, List.append_assoc] at hrest
    rw [Tile.runs, if_pos ⟨hy, rfl⟩, List.flatMap_cons, List.append_assoc, List.flatMap_cons]
    simp only [hrun, Int.toNat_natCast]
    rw [spread_run htw (colour a) (by omega)]
    exact hrest

theorem length_le_flatMap (xs : List δ) (hbytes : ∀ a ∈ xs, bytes a ≠ []) :
    xs.length ≤ (xs.flatMap bytes).length := by
  induction xs with
  | nil => exact Nat.le_refl _
  | cons a xs ih =>
    have ha := List.length_pos_of_ne_nil (hbytes a List.mem_cons_self)
    have hxs := ih fun b hb => hbytes b (List.mem_cons_of_mem _ hb)
    rw [List.flatMap_cons, List.length_append, List.length_cons]
    omega

theorem runs_tile (htw : 0 < t.tw) (xs : List δ)
    (hnext : ∀ a ∈ xs, ∀ rest, next ⟨bytes a ++ rest, false⟩ =
      (colour a, (len a : Int), ⟨rest, false⟩))
    (hpos : ∀ a ∈ xs, 0 < len a) (hbytes : ∀ a ∈ xs, bytes a ≠ [])
    (hlength : (xs.flatMap fun a => List.replicate (len a) (colour a)).length = t.tw * t.th) :
    t.runs next ((xs.flatMap bytes ++ rest).length + 1) ⟨0, 0, t.painted f []⟩
        ⟨xs.flatMap bytes ++ rest, false⟩ =
      ⟨t.painted f (xs.flatMap fun a => List.replicate (len a) (colour a)), ⟨rest, false⟩⟩ := by
  have hsize := length_le_flatMap xs hbytes
  have hall := runs_all (f := f) htw xs hnext hpos []
    (by rw [List.length_nil, Nat.zero_add, hlength]) ((xs.flatMap bytes ++ rest).length + 1)
    (by rw [List.length_append]; omega) rest
  rw [List.length_nil, Nat.zero_mod, Nat.zero_div] at hall
  exact hall

end Runs

section RleTiles

variable {t : Tile} {f : Picture UInt32}

theorem length_le_of_mem {α β : Type} {g : α → List β} {xs : List α} {a : α} (ha : a ∈ xs) :
    (g a).length ≤ (xs.flatMap g).length := by
  obtain ⟨before, after, rfl⟩ := List.append_of_mem ha
  rw [List.flatMap_append, List.flatMap_cons, List.length_append, List.length_append]
  omega

theorem plainRle_tile (htw : 0 < t.tw) (hsize : t.tw * t.th < 2 ^ 31) (runs : List Run)
    (hlength : (runs.flatMap Run.colours).length = t.tw * t.th) :
    t.plainRle ⟨t.painted f [], ⟨runs.flatMap Run.bytes ++ rest, false⟩⟩ =
      ⟨t.painted f (runs.flatMap Run.colours), ⟨rest, false⟩⟩ := by
  refine runs_tile htw runs ?_ (fun r _ => r.positive) (fun r _ => nofun) hlength
  intro r hr rest
  have hlong := length_le_of_mem (g := Run.colours) hr
  rw [Run.colours, List.length_replicate] at hlong
  simp only [Tile.plainRun, Run.bytes, List.append_assoc, cpixel_bytes,
    runLength_bytes r.positive (by omega) rest]

namespace PaletteRun

variable {size : Nat}

def count : PaletteRun size → Nat
  | .single _ => 1
  | .run _ length _ => length

def colour (palette : Fin size → CPixel) : PaletteRun size → UInt32
  | .single index => (palette index).argb
  | .run index _ _ => (palette index).argb

theorem colours_eq (palette : Fin size → CPixel) (r : PaletteRun size) :
    r.colours palette = List.replicate r.count (r.colour palette) := by
  cases r <;> rfl

theorem count_pos (r : PaletteRun size) : 0 < r.count := by
  cases r with
  | single index => exact Nat.one_pos
  | run index length positive => exact positive

end PaletteRun

theorem index_byte (i : Fin 128) :
    (UInt8.ofNat i.val &&& 0x7F).toNat = i.val ∧ UInt8.ofNat i.val &&& 0x80 = 0 ∧
      (UInt8.ofNat (i.val + 128) &&& 0x7F).toNat = i.val ∧
      UInt8.ofNat (i.val + 128) &&& 0x80 ≠ 0 := by
  revert i
  decide +kernel

theorem getD_palette {size : Nat} (palette : Fin size → CPixel) (index : Fin size)
    (d : UInt32) :
    ((List.ofFn palette).map CPixel.argb).getD index.val d = (palette index).argb := by
  rw [List.getD_eq_getElem?_getD, List.getElem?_map, List.getElem?_ofFn, dif_pos index.isLt]
  rfl

theorem paletteRun_bytes {size : Nat} (hsize : size ≤ 127) (palette : Fin size → CPixel)
    (r : PaletteRun size) (hcount : r.count < 2 ^ 31) (rest : QByteArray) :
    Tile.paletteRun ((List.ofFn palette).map CPixel.argb) ⟨r.bytes ++ rest, false⟩ =
      (r.colour palette, (r.count : Int), ⟨rest, false⟩) := by
  cases r with
  | single index =>
    obtain ⟨hindex, hsingle, -, -⟩ := index_byte ⟨index.val, by omega⟩
    simp only [Tile.paletteRun, PaletteRun.bytes, List.singleton_append, u8_cons, hindex, hsingle,
      getD_palette, ne_eq, not_true_eq_false, if_false]
    rfl
  | run index length positive =>
    obtain ⟨-, -, hindex, hrun⟩ := index_byte ⟨index.val, by omega⟩
    have hread : TileReader.u8 ⟨[.ofNat (index.val + 128)] ++ runBytes length ++ rest, false⟩ =
        (.ofNat (index.val + 128), ⟨runBytes length ++ rest, false⟩) := rfl
    have hlength : TileReader.runLength ⟨runBytes length ++ rest, false⟩ =
        ((length : Int), ⟨rest, false⟩) := runLength_bytes positive hcount rest
    simp only at hindex hrun
    simp only [Tile.paletteRun, PaletteRun.bytes, hread, hindex, if_pos hrun, hlength,
      getD_palette]
    rfl

theorem paletteRle_tile {size : Nat} (htw : 0 < t.tw) (harea : t.tw * t.th < 2 ^ 31)
    (hsize : size ≤ 127) (palette : Fin size → CPixel) (runs : List (PaletteRun size))
    (hlength : (runs.flatMap (PaletteRun.colours palette)).length = t.tw * t.th) :
    t.paletteRle size ⟨t.painted f [],
        ⟨paletteBytes palette ++ runs.flatMap PaletteRun.bytes ++ rest, false⟩⟩ =
      ⟨t.painted f (runs.flatMap (PaletteRun.colours palette)), ⟨rest, false⟩⟩ := by
  have hcolours : PaletteRun.colours palette =
      fun r => List.replicate r.count (r.colour palette) :=
    funext (PaletteRun.colours_eq palette)
  simp only [Tile.paletteRle, List.append_assoc, palette_bytes]
  rw [hcolours] at hlength ⊢
  refine runs_tile htw runs ?_ (fun r _ => r.count_pos) ?_ hlength
  · intro r hr rest
    have hlong := length_le_of_mem
      (g := fun r : PaletteRun size => List.replicate r.count (r.colour palette)) hr
    rw [List.length_replicate] at hlong
    exact paletteRun_bytes hsize palette r (by omega) rest
  · intro r _
    cases r <;> exact nofun

theorem packed_colours {size tw : Nat} (palette : Fin size → CPixel) {rows : List QByteArray}
    {indices : List (List (Fin size))}
    (hindices : indices.map (·.map Fin.val) =
      rows.map fun row => (List.range tw).map (packedIndex (indexBits size) row)) :
    rows.flatMap (rowColours ((List.ofFn palette).map CPixel.argb) (indexBits size) tw) =
      indices.flatten.map fun i => (palette i).argb := by
  have hrows : rows.map (rowColours ((List.ofFn palette).map CPixel.argb) (indexBits size) tw) =
      (rows.map fun row => (List.range tw).map (packedIndex (indexBits size) row)).map
        (·.map fun i => ((List.ofFn palette).map CPixel.argb).getD i 0xFF000000) := by
    rw [List.map_map]
    apply List.map_congr_left
    intro row _
    simp [rowColours]
  rw [List.flatMap_def, hrows, ← hindices, List.map_map, List.map_flatten]
  congr 1
  apply List.map_congr_left
  intro row _
  rw [Function.comp_apply, List.map_map]
  apply List.map_congr_left
  intro i _
  exact getD_palette palette i _

theorem decode_tile (rest : QByteArray) {bytes : QByteArray} {colours : List UInt32}
    (hb : ZrleTile t.tw t.th bytes colours) (htw : 0 < t.tw) (harea : t.tw * t.th < 2 ^ 31) :
    t.decode ⟨t.painted f [], ⟨bytes ++ rest, false⟩⟩ = ⟨t.painted f colours, ⟨rest, false⟩⟩ := by
  cases hb with
  | raw pixels hlength => exact raw_tile pixels hlength
  | solid c => exact solid_tile c
  | packed palette rows indices hlow hhigh hth hrows hindices =>
    rename_i size
    have hsub : (UInt8.ofNat size).toNat = size := by
      rw [UInt8.toNat_ofNat', Nat.mod_eq_of_lt (by omega)]
    have hzero : UInt8.ofNat size ≠ 0 := fun h => by simp [h] at hsub; omega
    have hone : UInt8.ofNat size ≠ 1 := fun h => by simp [h] at hsub; omega
    have hrange : (2 : UInt8) ≤ UInt8.ofNat size ∧ UInt8.ofNat size ≤ 16 := by
      rw [UInt8.le_iff_toNat_le, UInt8.le_iff_toNat_le, hsub]
      exact ⟨hlow, hhigh⟩
    rw [← packed_colours palette hindices]
    have hread : TileReader.u8 ⟨[.ofNat size] ++ paletteBytes palette ++ rows.flatten ++ rest,
        false⟩ = (.ofNat size, ⟨paletteBytes palette ++ rows.flatten ++ rest, false⟩) := rfl
    simp only [Tile.decode, hread, if_neg hzero, if_neg hone, if_pos hrange, hsub]
    exact packed_tile palette rows hth hrows
  | plainRle runs hlength => exact plainRle_tile htw harea runs hlength
  | paletteRle palette runs hlow hhigh hlength =>
    rename_i size
    have hsub : (UInt8.ofNat (size + 128)).toNat = size + 128 := by
      rw [UInt8.toNat_ofNat', Nat.mod_eq_of_lt (by omega)]
    have hzero : UInt8.ofNat (size + 128) ≠ 0 := fun h => by simp [h] at hsub
    have hone : UInt8.ofNat (size + 128) ≠ 1 := fun h => by simp [h] at hsub
    have hplain : UInt8.ofNat (size + 128) ≠ 128 := fun h => by simp [h] at hsub; omega
    have hpacked : ¬ ((2 : UInt8) ≤ UInt8.ofNat (size + 128) ∧ UInt8.ofNat (size + 128) ≤ 16) := by
      rw [UInt8.le_iff_toNat_le, UInt8.le_iff_toNat_le, hsub]
      rintro ⟨-, h⟩
      have h16 : (16 : UInt8).toNat = 16 := rfl
      omega
    have hpalette : (130 : UInt8) ≤ UInt8.ofNat (size + 128) := by
      rw [UInt8.le_iff_toNat_le, hsub]
      have h130 : (130 : UInt8).toNat = 130 := rfl
      omega
    have hread : TileReader.u8 ⟨[.ofNat (size + 128)] ++ paletteBytes palette ++
        runs.flatMap PaletteRun.bytes ++ rest, false⟩ = (.ofNat (size + 128),
          ⟨paletteBytes palette ++ runs.flatMap PaletteRun.bytes ++ rest, false⟩) := rfl
    simp only [Tile.decode, hread, if_neg hzero, if_neg hone, if_neg hpacked, if_neg hplain,
      if_pos hpalette, hsub, Nat.add_sub_cancel]
    exact paletteRle_tile htw harea hhigh palette runs hlength

end RleTiles

section Rectangle

variable {w h : Nat} {picture : Picture UInt32}

theorem mem_tileOrigins {step : Nat} {o : Nat × Nat} (hstep : 0 < step)
    (ho : o ∈ tileOrigins w h step) : o.1 < w ∧ o.2 < h := by
  have hbound {extent k : Nat} (hk : k ∈ origins extent step) : k < extent := by
    obtain ⟨i, hi, rfl⟩ := List.mem_map.mp hk
    have hi := List.mem_range.mp hi
    have hle := Nat.mul_le_of_le_div step (i + 1) (extent + step - 1) hi
    rw [Nat.succ_mul] at hle
    omega
  obtain ⟨ty, hty, hrow⟩ := List.mem_flatMap.mp ho
  obtain ⟨tx, htx, rfl⟩ := List.mem_map.mp hrow
  exact ⟨hbound htx, hbound hty⟩

def decodeTile (w h : Nat) (s : TileState) (origin : Nat × Nat) : TileState :=
  if s.reader.bad then s else Tile.decode ⟨w, h, origin.1, origin.2⟩ s

theorem decode_tiles (rest : QByteArray) {origins : List (Nat × Nat)} {bytes : QByteArray}
    (hb : ZrleTiles w h picture origins bytes) (horigins : ∀ o ∈ origins, o.1 < w ∧ o.2 < h)
    (f : Picture UInt32) :
    origins.foldl (decodeTile w h) ⟨raster w h f, ⟨bytes ++ rest, false⟩⟩ =
      ⟨raster w h (origins.foldl (paintTile w h 64 picture) f), ⟨rest, false⟩⟩ := by
  induction hb generalizing f with
  | nil => rfl
  | @cons tx ty origins tile later htile _ ih =>
    obtain ⟨hx, hy⟩ := horigins (tx, ty) List.mem_cons_self
    let t : Tile := ⟨w, h, tx, ty⟩
    have htw : 0 < t.tw := by
      simp only [t, Tile.tw]
      omega
    have harea : t.tw * t.th < 2 ^ 31 := by
      have hle : t.tw * t.th ≤ 64 * 64 :=
        Nat.mul_le_mul (Nat.min_le_left ..) (Nat.min_le_left ..)
      omega
    have hdecode := decode_tile (t := t) (f := f) (later ++ rest) htile htw harea
    have hpainted : t.painted f (raster t.tw t.th (shift picture tx ty)) =
        raster w h (paintTile w h 64 picture f (tx, ty)) := written_raster ..
    rw [painted_nil] at hdecode
    rw [List.foldl_cons, List.foldl_cons, decodeTile, if_neg Bool.false_ne_true, List.append_assoc]
    have hnext := ih (fun o ho => horigins o (List.mem_cons_of_mem _ ho))
      (paintTile w h 64 picture f (tx, ty))
    rw [← hnext, ← hpainted]
    exact congrArg (fun s => List.foldl (decodeTile w h) s origins) hdecode

theorem zrlePixels_tiles (rest : QByteArray) {tiles : QByteArray}
    (hb : ZrleTiles w h picture (tileOrigins w h 64) tiles) :
    zrlePixels w h (w * h) (tiles ++ rest) = raster w h picture := by
  have hall := decode_tiles rest hb (fun o ho => mem_tileOrigins (by decide) ho)
    fun _ _ => 0xFF000000
  rw [raster_const, Nat.mul_comm h, raster_tiles _ (tileOrigins_cover (by decide))] at hall
  unfold zrlePixels
  have hsame : (fun s (origin : Nat × Nat) =>
      if s.reader.bad then s else Tile.decode ⟨w, h, origin.1, origin.2⟩ s) = decodeTile w h := rfl
  rw [hsame, hall]
  rfl

end Rectangle

section Payload

variable {z : Zlib} {zlib zlib' : RfbZlibStream z} {r : Rectangle}

theorem decodeZRLERect_tiles (pre rest : QByteArray) {picture : Picture UInt32}
    {compressed tiles : QByteArray}
    (hb : ZrleTiles r.width.toNat r.height.toNat picture
      (tileOrigins r.width.toNat r.height.toNat 64) tiles)
    (hinflate : zlib.inflate compressed = (zlib', tiles)) (hok : zlib'.failed = false)
    (harea : r.width.toNat * r.height.toNat < 2 ^ 31)
    (hsize : pre.length + (4 + compressed.length) < 2 ^ 31) :
    decodeZRLERect zlib r
        (pre ++ (BigEndian.bytes32 (.ofNat compressed.length) ++ compressed) ++ rest) pre.length =
      (.drawn (4 + compressed.length : Nat) (raster r.width.toNat r.height.toNat picture),
        zlib') := by
  have hcount : (UInt32.ofNat compressed.length).toNat = compressed.length := by
    rw [UInt32.toNat_ofNat', Nat.mod_eq_of_lt]
    omega
  have hread : rd32be (pre ++ (BigEndian.bytes32 (.ofNat compressed.length) ++ compressed) ++ rest)
      pre.length = .ofNat compressed.length := by
    simp only [List.append_assoc]
    exact (rd32be_append_right pre _ 0).trans (BigEndian.word32_bytes32 _)
  have hlen := int32_eq (x := compressed.length) (by omega) (by omega)
  have hneed := int32_eq (x := (4 + compressed.length : Nat)) (by omega) (by omega)
  have hend := int32_eq (x := pre.length + (4 + compressed.length : Nat)) (by omega) (by omega)
  have hn : int32 (r.width.toNat * r.height.toNat) = (r.width.toNat * r.height.toNat : Nat) := by
    rw [← Int.natCast_mul, int32_eq] <;> omega
  have hpayload : mid (pre ++ (BigEndian.bytes32 (.ofNat compressed.length) ++ compressed) ++ rest)
      (pre.length + 4) compressed.length = compressed := by
    have hmid := mid_between (pre ++ BigEndian.bytes32 (.ofNat compressed.length)) compressed rest
    have hfour : ((4 : Nat) : Int) = 4 := rfl
    rw [List.length_append, BigEndian.length_bytes32, Int.natCast_add, hfour] at hmid
    simpa only [List.append_assoc] using hmid
  have hpixels := zrlePixels_tiles [] hb
  rw [List.append_nil] at hpixels
  rw [VncConnection.decodeZRLERect_eq (by omega) (by omega)
    (by simp only [List.length_append, BigEndian.length_bytes32]; omega), hread, hcount, hneed,
    hend, hlen, hpayload, if_neg (by simp only [List.length_append, BigEndian.length_bytes32]; omega)]
  simp only [VncConnection.zrleData, hinflate, hok, hn, Int.toNat_natCast, hpixels,
    Bool.false_eq_true, if_false]

-- Streams of one stored block a payload: the header of the stream, the length of the block, its
-- complement and the bytes themselves.
def storedZlib : Zlib :=
  ⟨Unit, (), true, fun _ input _ => (.ok, (), [], (input.drop 7).take (byteAt input 3).toNat),
    fun _ _ => 0⟩

def storedSolid : QByteArray := [0x78, 0x01, 0x00, 0x04, 0x00, 0xFB, 0xFF, 1, 0x30, 0x20, 0x10]

theorem inflate_storedSolid :
    (RfbZlibStream.init (z := storedZlib)).inflate storedSolid = (.init, [1, 0x30, 0x20, 0x10]) :=
  rfl

theorem solid_onePixel :
    ZrleTiles 1 1 (fun _ _ => 0xFF102030) (tileOrigins 1 1 64) [1, 0x30, 0x20, 0x10] := by
  have htile : ZrleTile 1 1 [1, 0x30, 0x20, 0x10] [0xFF102030] := .solid ⟨0x30, 0x20, 0x10⟩
  have horigins : tileOrigins 1 1 64 = [(0, 0)] := by decide
  rw [horigins]
  exact (ZrleTiles.cons htile .nil :
    ZrleTiles 1 1 (fun _ _ => 0xFF102030) [(0, 0)] ([1, 0x30, 0x20, 0x10] ++ []))

end Payload

end Connect.Rfb
