import MacXterm.Connect.Encodings
import MacXterm.Connect.Sizes

namespace Connect.Rfb

open Qt Picture

def Content.data (consumed : Nat) : Content → RectData
  | .pixels colours => .drawn consumed colours
  | .copied srcX srcY => .copied consumed srcX srcY

variable {r : Rectangle} {pre rest : QByteArray}

theorem length_pixel (p : Pixel) : p.bytes.length = 4 := rfl

theorem readPixel_at (pre rest : QByteArray) (p : Pixel) :
    readPixel (pre ++ (p.bytes ++ rest)) pre.length 4 = p.argb := by
  have h0 : byteAt (pre ++ (p.bytes ++ rest)) pre.length = p.blue :=
    byteAt_append_right pre (p.bytes ++ rest) 0
  have h1 : byteAt (pre ++ (p.bytes ++ rest)) (pre.length + 1) = p.green :=
    byteAt_append_right pre (p.bytes ++ rest) 1
  have h2 : byteAt (pre ++ (p.bytes ++ rest)) (pre.length + 2) = p.red :=
    byteAt_append_right pre (p.bytes ++ rest) 2
  simp only [readPixel, h0, h1, h2]
  rfl

section Raw

theorem decodeRawRect_pixels {pixels : List Pixel}
    (hcount : pixels.length = r.width.toNat * r.height.toNat) (hsize : pixels.length * 4 < 2 ^ 31) :
    decodeRawRect r (pixels.flatMap Pixel.bytes) 4 = pixels.map Pixel.argb := by
  have hn : int32 (r.width.toNat * r.height.toNat) = pixels.length := by
    rw [← Int.natCast_mul, ← hcount, int32_eq] <;> omega
  have hall : int32 ((pixels.length : Int) * (4 : Nat)) = pixels.length * 4 := by
    rw [int32_eq] <;> omega
  have hlength := length_flatMap_const length_pixel pixels
  simp only [decodeRawRect, hn, hall, Int.toNat_natCast]
  rw [if_neg (by omega)]
  apply List.ext_getElem
  · simp
  · intro i hi _
    have hi : i < pixels.length := by simpa using hi
    have ho : int32 ((i : Int) * (4 : Nat)) = ((i * 4 + 0 : Nat) : Int) := by
      rw [int32_eq] <;> omega
    have h1 : ((i * 4 + 0 : Nat) : Int) + 1 = ((i * 4 + 1 : Nat) : Int) := by omega
    have h2 : ((i * 4 + 0 : Nat) : Int) + 2 = ((i * 4 + 2 : Nat) : Int) := by omega
    simp only [List.getElem_map, List.getElem_range, ho, h1, h2]
    rw [byteAt_flatMap length_pixel pixels hi (by decide),
      byteAt_flatMap length_pixel pixels hi (by decide),
      byteAt_flatMap length_pixel pixels hi (by decide)]
    rfl

theorem decodeRaw_pixels {pixels : List Pixel}
    (hcount : pixels.length = r.width.toNat * r.height.toNat)
    (hsize : pre.length + (pixels.flatMap Pixel.bytes).length < 2 ^ 31) :
    decodeRaw r (pre ++ pixels.flatMap Pixel.bytes ++ rest) pre.length 4 =
      .drawn (pixels.flatMap Pixel.bytes).length (pixels.map Pixel.argb) := by
  have hlength := length_flatMap_const length_pixel pixels
  have hneed : r.width.toNat * r.height.toNat * 4 = (pixels.flatMap Pixel.bytes).length := by
    rw [hlength, hcount]
  have hn := int32_eq (x := (pixels.flatMap Pixel.bytes).length) (by omega) (by omega)
  have hend := int32_eq (x := pre.length + (pixels.flatMap Pixel.bytes).length)
    (by omega) (by omega)
  rw [decodeRaw_eq, hneed, hn, hend, if_neg (by simp only [List.length_append]; omega),
    mid_between, decodeRawRect_pixels hcount (by omega)]

end Raw

theorem decodeCopyRect_source (srcX srcY : UInt16) (hsize : pre.length + 4 < 2 ^ 31) :
    decodeCopyRect (pre ++ (BigEndian.bytes16 srcX ++ BigEndian.bytes16 srcY) ++ rest) pre.length =
      .copied 4 srcX srcY := by
  have hguard : int32 ((pre.length : Int) + 4) = pre.length + 4 := by
    rw [int32_eq] <;> omega
  have hx : rd16be (pre ++ (BigEndian.bytes16 srcX ++ BigEndian.bytes16 srcY) ++ rest) pre.length =
      srcX := by
    rw [List.append_assoc]
    exact (rd16be_append_right pre _ 0).trans (BigEndian.word16_bytes16 srcX)
  have hy : rd16be (pre ++ (BigEndian.bytes16 srcX ++ BigEndian.bytes16 srcY) ++ rest)
      (pre.length + 2) = srcY := by
    rw [List.append_assoc]
    exact (rd16be_append_right pre _ 2).trans (BigEndian.word16_bytes16 srcY)
  simp only [decodeCopyRect, hguard, hx, hy]
  rw [if_neg]
  simp only [List.length_append, BigEndian.length_bytes16]
  omega

section Rre

theorem length_subrect (s : Subrect) : s.bytes.length = 12 := rfl

theorem subrectangle_at (pre rest : QByteArray) (w h : Nat) (f : Picture UInt32) (s : Subrect) :
    subrectangle w h (pre ++ (s.bytes ++ rest)) 4 (raster w h f) pre.length =
      raster w h (s.paint f) := by
  have hcolour : readPixel (pre ++ (s.bytes ++ rest)) pre.length 4 = s.colour.argb :=
    readPixel_at pre (s.bytes.drop 4 ++ rest) s.colour
  have hx : rd16be (pre ++ (s.bytes ++ rest)) (pre.length + (4 : Nat)) = s.x :=
    (rd16be_append_right pre _ 4).trans (BigEndian.word16_bytes16 s.x)
  have hy : rd16be (pre ++ (s.bytes ++ rest)) (pre.length + (4 : Nat) + 2) = s.y :=
    (rd16be_append_right pre _ 6).trans (BigEndian.word16_bytes16 s.y)
  have hw : rd16be (pre ++ (s.bytes ++ rest)) (pre.length + (4 : Nat) + 4) = s.w :=
    (rd16be_append_right pre _ 8).trans (BigEndian.word16_bytes16 s.w)
  have hh : rd16be (pre ++ (s.bytes ++ rest)) (pre.length + (4 : Nat) + 6) = s.h :=
    (rd16be_append_right pre _ 10).trans (BigEndian.word16_bytes16 s.h)
  simp only [subrectangle, hcolour, hx, hy, hw, hh]
  exact fill_raster w h f _ _ _ _ _

theorem split_at {α : Type} (f : α → QByteArray) (xs : List α) {i : Nat} (hi : i < xs.length) :
    xs.flatMap f = (xs.take i).flatMap f ++ (f xs[i] ++ (xs.drop (i + 1)).flatMap f) := by
  conv_lhs => rw [← List.take_append_drop i xs, List.drop_eq_getElem_cons hi]
  rw [List.flatMap_append, List.flatMap_cons]

def rreHeader (ground : Pixel) (subrects : List Subrect) : QByteArray :=
  BigEndian.bytes32 (.ofNat subrects.length) ++ ground.bytes

theorem rre_count (ground : Pixel) {subrects : List Subrect} (hsize : subrects.length < 2 ^ 32) :
    (rd32be (pre ++ (rreHeader ground subrects ++ subrects.flatMap Subrect.bytes) ++ rest)
      pre.length).toNat = subrects.length := by
  have hread : rd32be (pre ++ (rreHeader ground subrects ++ subrects.flatMap Subrect.bytes) ++ rest)
      pre.length = .ofNat subrects.length := by
    simp only [rreHeader, List.append_assoc]
    exact (rd32be_append_right pre _ 0).trans (BigEndian.word32_bytes32 _)
  rw [hread, UInt32.toNat_ofNat', Nat.mod_eq_of_lt]
  omega

theorem rrePixels_subrects (ground : Pixel) (subrects : List Subrect)
    (harea : r.width.toNat * r.height.toNat < 2 ^ 31)
    (hsize : pre.length + (8 + subrects.length * 12) < 2 ^ 31) :
    rrePixels r (pre ++ (rreHeader ground subrects ++ subrects.flatMap Subrect.bytes) ++ rest)
        pre.length =
      raster r.width.toNat r.height.toNat
        (subrects.foldl Subrect.paint fun _ _ => ground.argb) := by
  have hground : readPixel (pre ++ (rreHeader ground subrects ++ subrects.flatMap Subrect.bytes) ++
      rest) (pre.length + 4) 4 = ground.argb := by
    have hat : (pre.length : Int) + 4 =
        (pre ++ BigEndian.bytes32 (.ofNat subrects.length)).length := by
      rw [List.length_append]
      rfl
    have h := readPixel_at (pre ++ BigEndian.bytes32 (.ofNat subrects.length))
      (subrects.flatMap Subrect.bytes ++ rest) ground
    rw [hat]
    simpa only [rreHeader, List.append_assoc] using h
  have hn : int32 (r.width.toNat * r.height.toNat) = (r.width.toNat * r.height.toNat : Nat) := by
    rw [← Int.natCast_mul, int32_eq] <;> omega
  rw [rrePixels, rre_count ground (by omega), hground, hn, Int.toNat_natCast,
    Nat.mul_comm r.width.toNat, ← raster_const]
  refine foldl_range (raster r.width.toNat r.height.toNat) subrects ?_ _
  intro f i hi
  have hat : int32 (pre.length + 4 + (4 : Nat) + i * (4 + 8 : Nat)) =
      (pre ++ rreHeader ground subrects ++ (subrects.take i).flatMap Subrect.bytes).length := by
    have htake := length_flatMap_const length_subrect (subrects.take i)
    rw [List.length_take, Nat.min_eq_left (by omega)] at htake
    simp only [rreHeader, List.length_append, BigEndian.length_bytes32, length_pixel, htake]
    rw [int32_eq] <;> omega
  have h := subrectangle_at
    (pre ++ rreHeader ground subrects ++ (subrects.take i).flatMap Subrect.bytes)
    ((subrects.drop (i + 1)).flatMap Subrect.bytes ++ rest)
    r.width.toNat r.height.toNat f subrects[i]
  rw [hat, split_at Subrect.bytes subrects hi]
  simpa only [List.append_assoc] using h

theorem decodeRRE_subrects (ground : Pixel) (subrects : List Subrect)
    (harea : r.width.toNat * r.height.toNat < 2 ^ 31)
    (hsize : pre.length + (8 + subrects.length * 12) < 2 ^ 31) :
    decodeRRE r (pre ++ (rreHeader ground subrects ++ subrects.flatMap Subrect.bytes) ++ rest)
        pre.length 4 =
      .drawn (8 + subrects.length * 12 : Nat)
        (raster r.width.toNat r.height.toNat
          (subrects.foldl Subrect.paint fun _ _ => ground.argb)) := by
  have hlength := length_flatMap_const length_subrect subrects
  have hheader : (rreHeader ground subrects).length = 8 := rfl
  have hneed := int32_eq (x := (8 + subrects.length * 12 : Nat)) (by omega) (by omega)
  have hend := int32_eq (x := pre.length + (8 + subrects.length * 12 : Nat)) (by omega) (by omega)
  rw [decodeRRE_eq (by omega) (by omega) (by simp only [List.length_append, hheader]; omega),
    rre_count ground (by omega), hneed, hend, rrePixels_subrects ground subrects harea hsize, if_neg]
  simp only [List.length_append, hheader, hlength]
  omega

end Rre

section Hextile

variable {w h : Nat}

theorem reads_byte (b : UInt8) : Parser.Reads byte [b] b := by
  intro rest
  rfl

theorem reads_pixel (p : Pixel) : Parser.Reads (pixel 4) p.bytes p.argb := by
  intro rest
  rfl

theorem nibbles (x y : Fin 16) :
    (UInt8.ofNat (x.val * 16 + y.val) >>> 4).toNat = x.val ∧
      (UInt8.ofNat (x.val * 16 + y.val) &&& 0x0F).toNat = y.val := by
  revert x y
  decide

theorem reads_block (tx ty : Nat) (k : Pixel × Block) {coloured : Bool} {used : QByteArray}
    {fg : UInt32} (hcolour : Parser.Reads (Parser.when coloured (pixel 4) fg) used k.1.argb)
    (f : Picture UInt32) :
    Parser.Reads (hextileSubrect w h 4 tx ty coloured fg (raster w h f)) (used ++ k.2.bytes)
      (raster w h (patch f (tx + k.2.x.val) (ty + k.2.y.val) (k.2.w.val + 1) (k.2.h.val + 1)
        fun _ _ => k.1.argb)) := by
  apply hcolour.bind
  intro rest
  obtain ⟨hx, hy⟩ := nibbles k.2.x k.2.y
  obtain ⟨hw, hh⟩ := nibbles k.2.w k.2.h
  have htake : Parser.take 2 (k.2.bytes ++ rest) = some (k.2.bytes, rest) :=
    Parser.reads_take k.2.bytes rest
  rw [Parser.bind_eq, htake, Option.bind_some]
  have h0 : byteAt k.2.bytes 0 = .ofNat (k.2.x.val * 16 + k.2.y.val) := rfl
  have h1 : byteAt k.2.bytes 1 = .ofNat (k.2.w.val * 16 + k.2.h.val) := rfl
  simp only [h0, h1, hx, hy, hw, hh, fill_raster]
  rfl

-- The colour that the tiles before have left, where they have left one.
def Carried (colour : Option Pixel) (v : UInt32) : Prop := ∀ p, colour = some p → v = p.argb

theorem carried_or {own carried : Option Pixel} {v : UInt32} (h : Carried carried v) :
    Carried (own.or carried) (own.elim v Pixel.argb) := by
  cases own with
  | none => exact h
  | some p =>
    rintro q hq
    obtain rfl := Option.some.inj hq
    rfl

theorem painted_plain {fg : Option Pixel} {plain : List Block} {blocks : List (Pixel × Block)}
    (h : plain.mapM (fun k => fg.map (·, k)) = some blocks) :
    (∀ k ∈ blocks, fg = some k.1) ∧ blocks.map Prod.snd = plain := by
  induction plain generalizing blocks with
  | nil =>
    obtain rfl : [] = blocks := by simpa using h
    simp
  | cons k plain ih =>
    cases fg with
    | none => simp at h
    | some p =>
      rw [List.mapM_cons] at h
      obtain ⟨later, hlater, hall⟩ : ∃ later, plain.mapM (fun k => (some p).map (·, k)) = some later ∧
          (p, k) :: later = blocks := by simpa [Option.bind_eq_some_iff] using h
      obtain ⟨hcolours, hblocks⟩ := ih hlater
      subst hall
      refine ⟨?_, ?_⟩
      · intro b hb
        rcases List.mem_cons.mp hb with rfl | hb
        · rfl
        · exact hcolours b hb
      · rw [List.map_cons, hblocks]

theorem reads_optional {own : Option Pixel} {c : Bool} {v : UInt32} (hc : c = own.isSome) :
    Parser.Reads (Parser.when c (pixel 4) v) (own.elim [] Pixel.bytes) (own.elim v Pixel.argb) := by
  subst hc
  cases own with
  | none => exact Parser.reads_pure v
  | some p => exact reads_pixel p

section Tile

variable {tx ty tw th : Nat} {f : Picture UInt32}

theorem patch_block {g : Picture UInt32} {k : Pixel × Block} (hfits : k.2.Fits tw th) :
    patch (patch f tx ty tw th g) (tx + k.2.x.val) (ty + k.2.y.val) (k.2.w.val + 1)
        (k.2.h.val + 1) (fun _ _ => k.1.argb) =
      patch f tx ty tw th (Block.paint g k) :=
  patch_patch f g _ hfits.1 hfits.2

theorem reads_blocks {blocks : List (Pixel × Block)} {coloured : Bool} {fg : UInt32}
    {used : Pixel × Block → QByteArray} (hfits : ∀ k ∈ blocks, k.2.Fits tw th)
    (hcolour : ∀ k ∈ blocks, Parser.Reads (Parser.when coloured (pixel 4) fg) (used k) k.1.argb)
    (g : Picture UInt32) :
    Parser.Reads ((List.range blocks.length).foldlM
        (fun pixels _ => hextileSubrect w h 4 tx ty coloured fg pixels)
        (raster w h (patch f tx ty tw th g)))
      (blocks.flatMap fun k => used k ++ k.2.bytes)
      (raster w h (patch f tx ty tw th (blocks.foldl Block.paint g))) := by
  refine Parser.reads_repeat (fun g => raster w h (patch f tx ty tw th g)) blocks ?_ g
  intro g k hk
  have hr := reads_block (w := w) (h := h) tx ty k (hcolour k hk) (patch f tx ty tw th g)
  rwa [patch_block (hfits k hk)] at hr

theorem reads_hextileRaw {s : HextileState} {sub : UInt8} {pixels : List Pixel} {g : Picture UInt32}
    (hsub : sub &&& 0x01 ≠ 0) (hs : s.pixels = raster w h f)
    (hpixels : pixels.map Pixel.argb = raster (min 16 (w - tx)) (min 16 (h - ty)) g) :
    Parser.Reads (hextileTile w h 4 s (tx, ty)) ([sub] ++ pixels.flatMap Pixel.bytes)
      { s with pixels := raster w h (patch f tx ty (min 16 (w - tx)) (min 16 (h - ty)) g) } := by
  apply (reads_byte sub).bind
  have hcount : pixels.length = min 16 (w - tx) * min 16 (h - ty) := by
    have hlength := congrArg List.length hpixels
    rwa [List.length_map, length_raster, Nat.mul_comm] at hlength
  have hneed : (pixels.flatMap Pixel.bytes).length = min 16 (w - tx) * min 16 (h - ty) * 4 := by
    rw [length_flatMap_const length_pixel, hcount]
  have hraw : (raster (min 16 (w - tx)) (min 16 (h - ty)) fun xx yy =>
      readPixel (pixels.flatMap Pixel.bytes)
        (((yy * min 16 (w - tx) + xx) * 4 : Nat) : Int) 4) =
      raster (min 16 (w - tx)) (min 16 (h - ty)) g := by
    rw [← hpixels]
    symm
    apply ext_raster
    · rw [List.length_map, hcount, Nat.mul_comm]
    · intro x hx y hy
      have hi : y * min 16 (w - tx) + x < pixels.length := by
        have hle := Nat.mul_le_mul_right (min 16 (w - tx)) (Nat.succ_le_of_lt hy)
        rw [Nat.succ_mul] at hle
        rw [hcount, Nat.mul_comm (min 16 (w - tx)) (min 16 (h - ty))]
        omega
      have hat := readPixel_at ((pixels.take (y * min 16 (w - tx) + x)).flatMap Pixel.bytes)
        ((pixels.drop (y * min 16 (w - tx) + x + 1)).flatMap Pixel.bytes)
        pixels[y * min 16 (w - tx) + x]
      rw [length_flatMap_const length_pixel, List.length_take, Nat.min_eq_left (Nat.le_of_lt hi),
        ← split_at Pixel.bytes pixels hi] at hat
      rw [List.getElem?_map, List.getElem?_eq_getElem hi, hat]
      rfl
  have htake : Parser.Reads (Parser.take (min 16 (w - tx) * min 16 (h - ty) * 4))
      (pixels.flatMap Pixel.bytes) (pixels.flatMap Pixel.bytes) := by
    rw [← hneed]
    exact Parser.reads_take _
  simp only [if_pos hsub]
  rw [← List.append_nil (pixels.flatMap Pixel.bytes)]
  apply htake.bind
  rw [hs, fill_raster, raster_patch_congr w h f tx ty hraw]
  exact Parser.reads_pure _

theorem flags_spec (t : PaintedTile) :
    t.flags &&& 0x01 = 0 ∧ decide (t.flags &&& 0x02 ≠ 0) = t.background.isSome ∧
      decide (t.flags &&& 0x04 ≠ 0) = t.foreground.isSome ∧
      match t.subrects with
      | .absent => t.flags &&& 0x08 = 0
      | .plain _ => t.flags &&& 0x08 ≠ 0 ∧ decide (t.flags &&& 0x10 ≠ 0) = false
      | .coloured _ => t.flags &&& 0x08 ≠ 0 ∧ decide (t.flags &&& 0x10 ≠ 0) = true := by
  obtain ⟨background, foreground, subrects⟩ := t
  cases background <;> cases foreground <;> cases subrects <;>
    simp [PaintedTile.flags, Subrects.flags] <;> decide

theorem reads_counted {blocks : List (Pixel × Block)} {coloured : Bool} {bg fg : UInt32}
    {used : Pixel × Block → QByteArray} (hcount : blocks.length < 256)
    (hfits : ∀ k ∈ blocks, k.2.Fits tw th)
    (hcolour : ∀ k ∈ blocks, Parser.Reads (Parser.when coloured (pixel 4) fg) (used k) k.1.argb)
    (g : Picture UInt32) :
    Parser.Reads (do
        let ns ← byte
        let pixels ← (List.range ns.toNat).foldlM
          (fun pixels _ => hextileSubrect w h 4 tx ty coloured fg pixels)
          (raster w h (patch f tx ty tw th g))
        pure (⟨pixels, bg, fg⟩ : HextileState))
      ([.ofNat blocks.length] ++ blocks.flatMap fun k => used k ++ k.2.bytes)
      ⟨raster w h (patch f tx ty tw th (blocks.foldl Block.paint g)), bg, fg⟩ := by
  have hlength : (UInt8.ofNat blocks.length).toNat = blocks.length := by
    rw [UInt8.toNat_ofNat', Nat.mod_eq_of_lt hcount]
  rw [← List.append_nil (blocks.flatMap _)]
  apply (reads_byte _).bind
  rw [hlength]
  exact (reads_blocks hfits hcolour g).bind (Parser.reads_pure _)

theorem reads_painted {s : HextileState} {bg fg : Option Pixel} (tile : PaintedTile)
    {ground : Pixel} {blocks : List (Pixel × Block)} (hs : s.pixels = raster w h f)
    (hbg : Carried bg s.bg) (hfg : Carried fg s.fg)
    (hground : tile.background.or bg = some ground)
    (hblocks : tile.subrects.painted (tile.foreground.or fg) = some blocks)
    (hcount : tile.subrects.count < 256)
    (hfits : ∀ k ∈ blocks, k.2.Fits (min 16 (w - tx)) (min 16 (h - ty))) :
    Parser.Reads (hextileTile w h 4 s (tx, ty)) tile.bytes
      ⟨raster w h (patch f tx ty (min 16 (w - tx)) (min 16 (h - ty))
        (blocks.foldl Block.paint fun _ _ => ground.argb)), tile.background.elim s.bg Pixel.argb,
        tile.foreground.elim s.fg Pixel.argb⟩ := by
  obtain ⟨hraw, hback, hfore, hsub⟩ := flags_spec tile
  have hbackground : Carried (tile.background.or bg) (tile.background.elim s.bg Pixel.argb) :=
    carried_or hbg
  have hforeground : Carried (tile.foreground.or fg) (tile.foreground.elim s.fg Pixel.argb) :=
    carried_or hfg
  have hcolour := hbackground ground hground
  rw [PaintedTile.bytes, List.append_assoc, List.append_assoc]
  apply (reads_byte tile.flags).bind
  simp only [hraw, ne_eq, not_true_eq_false, if_false]
  apply (reads_optional (v := s.bg) hback).bind
  apply (reads_optional (v := s.fg) hfore).bind
  rw [hs, hcolour, fill_raster]
  cases hsubrects : tile.subrects with
  | absent =>
    rw [hsubrects] at hsub hblocks
    obtain rfl := Option.some.inj hblocks
    simp only [hsub, not_true_eq_false, if_false]
    exact Parser.reads_pure _
  | plain plain =>
    rw [hsubrects] at hsub hblocks hcount
    obtain ⟨hany, hnone⟩ := hsub
    obtain ⟨hcolours, rfl⟩ := painted_plain hblocks
    have hbytes : (Subrects.plain (blocks.map Prod.snd)).bytes =
        [.ofNat blocks.length] ++ blocks.flatMap fun k => [] ++ k.2.bytes := by
      simp [Subrects.bytes, List.flatMap_map]
    rw [Subrects.count, List.length_map] at hcount
    simp only [hany, not_false_eq_true, if_true]
    rw [hbytes, hnone]
    refine reads_counted hcount hfits (fun k hk => ?_) _
    rw [hforeground k.1 (hcolours k hk)]
    exact Parser.reads_pure _
  | coloured coloured =>
    rw [hsubrects] at hsub hblocks hcount
    obtain ⟨hany, hall⟩ := hsub
    obtain rfl := Option.some.inj hblocks
    have hbytes : (Subrects.coloured coloured).bytes =
        [.ofNat coloured.length] ++ coloured.flatMap fun k => k.1.bytes ++ k.2.bytes := by
      simp [Subrects.bytes]
    simp only [hany, not_false_eq_true, if_true]
    rw [hbytes, hall]
    refine reads_counted hcount hfits (fun k _ => ?_) _
    exact reads_pixel k.1

end Tile

theorem reads_hextileTiles {picture f : Picture UInt32} {origins : List (Nat × Nat)}
    {bg fg : Option Pixel} {bytes : QByteArray} {s : HextileState}
    (hb : HextileTiles w h picture origins bg fg bytes) (hs : s.pixels = raster w h f)
    (hbg : Carried bg s.bg) (hfg : Carried fg s.fg) :
    ∃ t, Parser.Reads (origins.foldlM (hextileTile w h 4) s) bytes t ∧
      t.pixels = raster w h (origins.foldl (paintTile w h 16 picture) f) := by
  induction hb generalizing f s with
  | nil bg fg => exact ⟨s, Parser.reads_pure s, hs⟩
  | @raw tx ty _ _ _ _ sub pixels hsub hpixels _ ih =>
    have hr := reads_hextileRaw hsub hs hpixels
    have hpicture : ({ s with pixels := raster w h (paintTile w h 16 picture f (tx, ty)) } :
        HextileState).pixels = raster w h (paintTile w h 16 picture f (tx, ty)) := rfl
    obtain ⟨t, ht, hpixels⟩ := ih hpicture hbg hfg
    rw [List.foldlM_cons, List.foldl_cons]
    exact ⟨t, hr.bind ht, hpixels⟩
  | @painted tx ty _ bg fg _ tile ground blocks hground hblocks hcount hfits hpicture _ ih =>
    have hr := reads_painted tile hs hbg hfg hground hblocks hcount hfits
    have hcarried : Carried (some ground) (tile.background.elim s.bg Pixel.argb) := by
      rw [← hground]
      exact carried_or hbg
    rw [raster_patch_congr w h f tx ty hpicture] at hr
    have hnext : (⟨raster w h (paintTile w h 16 picture f (tx, ty)),
        tile.background.elim s.bg Pixel.argb, tile.foreground.elim s.fg Pixel.argb⟩ :
        HextileState).pixels = raster w h (paintTile w h 16 picture f (tx, ty)) := rfl
    obtain ⟨t, ht, hpixels⟩ := ih hnext hcarried (carried_or hfg)
    rw [List.foldlM_cons, List.foldl_cons]
    exact ⟨t, hr.bind ht, hpixels⟩

theorem mem_origins {extent step x : Nat} (hstep : 0 < step) (hx : x < extent) :
    x / step * step ∈ origins extent step := by
  refine List.mem_map.mpr ⟨x / step, List.mem_range.mpr ?_, rfl⟩
  rw [Nat.div_lt_iff_lt_mul hstep]
  have hdiv := Nat.div_add_mod (extent + step - 1) step
  have hmod := Nat.mod_lt (extent + step - 1) hstep
  rw [Nat.mul_comm] at hdiv
  omega

theorem tileOrigins_cover {step : Nat} (hstep : 0 < step) :
    ∀ x < w, ∀ y < h, ∃ o ∈ tileOrigins w h step,
      o.1 ≤ x ∧ x < o.1 + step ∧ o.2 ≤ y ∧ y < o.2 + step := by
  intro x hx y hy
  refine ⟨(x / step * step, y / step * step), ?_, ?_⟩
  · refine List.mem_flatMap.mpr ⟨y / step * step, mem_origins hstep hy, ?_⟩
    exact List.mem_map.mpr ⟨x / step * step, mem_origins hstep hx, rfl⟩
  · have hdivx := Nat.div_add_mod x step
    have hdivy := Nat.div_add_mod y step
    have hmodx := Nat.mod_lt x hstep
    have hmody := Nat.mod_lt y hstep
    rw [Nat.mul_comm] at hdivx hdivy
    simp only
    omega

theorem reads_hextile {picture : Picture UInt32} {bytes : QByteArray}
    (hb : HextileTiles w h picture (tileOrigins w h 16) none none bytes) :
    ∃ t, Parser.Reads (hextile w h 4 (w * h)) bytes t ∧ t.pixels = raster w h picture := by
  have hblack : (⟨List.replicate (w * h) 0xFF000000, 0xFF000000, 0xFFFFFFFF⟩ :
      HextileState).pixels = raster w h fun _ _ => 0xFF000000 := by
    rw [raster_const, Nat.mul_comm]
  obtain ⟨t, hreads, hpixels⟩ := reads_hextileTiles hb hblack nofun nofun
  rw [raster_tiles _ (tileOrigins_cover (by decide))] at hpixels
  exact ⟨t, hreads, hpixels⟩

theorem decodeHextile_tiles {picture : Picture UInt32} {bytes : QByteArray}
    (hb : HextileTiles r.width.toNat r.height.toNat picture
      (tileOrigins r.width.toNat r.height.toNat 16) none none bytes)
    (harea : r.width.toNat * r.height.toNat < 2 ^ 31) :
    decodeHextile r (pre ++ bytes ++ rest) pre.length 4 =
      .drawn bytes.length (raster r.width.toNat r.height.toNat picture) := by
  have hn : int32 (r.width.toNat * r.height.toNat) = (r.width.toNat * r.height.toNat : Nat) := by
    rw [← Int.natCast_mul, int32_eq] <;> omega
  have hwindow : window (pre ++ bytes ++ rest) pre.length = bytes ++ rest := by
    rw [window_eq (by omega), Int.toNat_natCast, List.append_assoc, List.drop_left]
  obtain ⟨t, hreads, hpixels⟩ := reads_hextile hb
  have hparse := hreads rest
  simp only [decodeHextile, hn, hwindow, Int.toNat_natCast, hparse, hpixels]
  rw [List.length_append, Nat.add_sub_cancel]

end Hextile

theorem decodeRect_encoding (pre rest : QByteArray) {bytes : QByteArray} {content : Content}
    (he : Encodes r.width.toNat r.height.toNat r.encoding bytes content)
    (harea : r.width.toNat * r.height.toNat < 2 ^ 31) (hsize : pre.length + bytes.length < 2 ^ 31) :
    decodeRect r (pre ++ bytes ++ rest) pre.length 4 = content.data bytes.length := by
  generalize hencoding : r.encoding = encoding at he
  cases he with
  | raw pixels hcount =>
    rw [VncConnection.decodeRect_raw hencoding]
    exact decodeRaw_pixels hcount hsize
  | copyRect srcX srcY =>
    rw [VncConnection.decodeRect_copyRect hencoding]
    exact decodeCopyRect_source srcX srcY hsize
  | rre ground subrects hcount =>
    have hlength := length_flatMap_const length_subrect subrects
    have hbytes : (BigEndian.bytes32 (.ofNat subrects.length) ++ ground.bytes ++
        subrects.flatMap Subrect.bytes).length = 8 + subrects.length * 12 := by
      rw [List.length_append, hlength]
      rfl
    rw [VncConnection.decodeRect_rre hencoding, hbytes]
    exact decodeRRE_subrects ground subrects harea (hbytes ▸ hsize)
  | hextile picture htiles =>
    rw [VncConnection.decodeRect_hextile hencoding]
    exact decodeHextile_tiles htiles harea

end Connect.Rfb
