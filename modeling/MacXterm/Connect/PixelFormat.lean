import MacXterm.Connect.Framing
import MacXterm.Lib.MachineInt

namespace Connect.Rfb

open Qt Picture

structure PixelFormat where
  bitsPerPixel : UInt8
  depth : UInt8
  bigEndian : UInt8
  trueColour : UInt8
  redMax : UInt16
  greenMax : UInt16
  blueMax : UInt16
  redShift : UInt8
  greenShift : UInt8
  blueShift : UInt8
  padding : UInt8 × UInt8 × UInt8
  sized : bitsPerPixel = 8 ∨ bitsPerPixel = 16 ∨ bitsPerPixel = 32
  maxima : trueColour ≠ 0 → ∀ m ∈ [redMax, greenMax, blueMax], ∃ n, m.toNat = 2 ^ n - 1

abbrev Palette := Nat → Colour

def scaled (v max : Nat) : UInt8 := .ofNat (v * 255 / max)

namespace PixelFormat

variable (f : PixelFormat)

def bytes : QByteArray :=
  [f.bitsPerPixel, f.depth, f.bigEndian, f.trueColour] ++ BigEndian.bytes16 f.redMax ++
    BigEndian.bytes16 f.greenMax ++ BigEndian.bytes16 f.blueMax ++
    [f.redShift, f.greenShift, f.blueShift, f.padding.1, f.padding.2.1, f.padding.2.2]

abbrev Value := Fin (2 ^ f.bitsPerPixel.toNat)

def code (v : f.Value) : QByteArray :=
  let little := (List.range (f.bitsPerPixel.toNat / 8)).map fun i => UInt8.ofNat (v.val / 256 ^ i)
  if f.bigEndian = 0 then little else little.reverse

def component (max : UInt16) (shift : UInt8) (v : Nat) : UInt8 :=
  scaled (v / 2 ^ shift.toNat &&& max.toNat) max.toNat

def colour (palette : Palette) (v : f.Value) : UInt32 :=
  if f.trueColour = 0 then
    let c := palette v.val
    argb (scaled c.red.toNat 65535) (scaled c.green.toNat 65535) (scaled c.blue.toNat 65535)
  else
    argb (component f.redMax f.redShift v.val) (component f.greenMax f.greenShift v.val)
      (component f.blueMax f.blueShift v.val)

-- The bytes of a pixel are its blue, green and red components and one byte more.
structure Bgrx : Prop where
  trueColour : f.trueColour ≠ 0
  red : f.redMax = 255 ∧ f.redShift = if f.bigEndian = 0 then 16 else 8
  green : f.greenMax = 255 ∧ f.greenShift = if f.bigEndian = 0 then 8 else 16
  blue : f.blueMax = 255 ∧ f.blueShift = if f.bigEndian = 0 then 0 else 24

end PixelFormat

-- The encodings once more, with any type of pixel values in the place of Pixel.
namespace Coded

variable {ι : Type}

structure Subrect (ι : Type) where
  value : ι
  x : UInt16
  y : UInt16
  w : UInt16
  h : UInt16

inductive Subrects (ι : Type) where
  | absent
  | plain (blocks : List Block)
  | coloured (blocks : List (ι × Block))

structure PaintedTile (ι : Type) where
  background : Option ι
  foreground : Option ι
  subrects : Subrects ι

def Subrects.flags : Subrects ι → UInt8
  | .absent => 0
  | .plain _ => 8
  | .coloured _ => 24

def Subrects.count : Subrects ι → Nat
  | .absent => 0
  | .plain blocks => blocks.length
  | .coloured blocks => blocks.length

def Subrects.painted (fg : Option ι) : Subrects ι → Option (List (ι × Block))
  | .absent => some []
  | .plain blocks => blocks.mapM fun k => fg.map (·, k)
  | .coloured blocks => some blocks

def PaintedTile.flags (t : PaintedTile ι) : UInt8 :=
  (if t.background.isSome then 2 else 0) ||| (if t.foreground.isSome then 4 else 0) |||
    t.subrects.flags

section Format

variable (code : ι → QByteArray) (colour : ι → UInt32)

def Subrect.bytes (s : Subrect ι) : QByteArray :=
  code s.value ++ BigEndian.bytes16 s.x ++ BigEndian.bytes16 s.y ++ BigEndian.bytes16 s.w ++
    BigEndian.bytes16 s.h

def Subrect.paint (f : Picture UInt32) (s : Subrect ι) : Picture UInt32 :=
  patch f s.x.toNat s.y.toNat s.w.toNat s.h.toNat fun _ _ => colour s.value

def Subrects.bytes : Subrects ι → QByteArray
  | .absent => []
  | .plain blocks => UInt8.ofNat blocks.length :: blocks.flatMap Block.bytes
  | .coloured blocks =>
      UInt8.ofNat blocks.length :: blocks.flatMap fun k => code k.1 ++ k.2.bytes

def PaintedTile.bytes (t : PaintedTile ι) : QByteArray :=
  [t.flags] ++ t.background.elim [] code ++ t.foreground.elim [] code ++ t.subrects.bytes code

def paintBlock (f : Picture UInt32) (k : ι × Block) : Picture UInt32 :=
  patch f k.2.x.val k.2.y.val (k.2.w.val + 1) (k.2.h.val + 1) fun _ _ => colour k.1

inductive HextileTiles (w h : Nat) (picture : Picture UInt32) :
    List (Nat × Nat) → Option ι → Option ι → QByteArray → Prop
  | nil (bg fg : Option ι) : HextileTiles w h picture [] bg fg []
  | raw {tx ty : Nat} {origins : List (Nat × Nat)} {bg fg : Option ι} {rest : QByteArray}
      (sub : UInt8) (values : List ι) : sub &&& 0x01 ≠ 0 →
      values.map colour = raster (min 16 (w - tx)) (min 16 (h - ty)) (shift picture tx ty) →
      HextileTiles w h picture origins bg fg rest →
      HextileTiles w h picture ((tx, ty) :: origins) bg fg ([sub] ++ values.flatMap code ++ rest)
  | painted {tx ty : Nat} {origins : List (Nat × Nat)} {bg fg : Option ι}
      {rest : QByteArray} (tile : PaintedTile ι) (ground : ι) (blocks : List (ι × Block)) :
      tile.background.or bg = some ground →
      tile.subrects.painted (tile.foreground.or fg) = some blocks →
      tile.subrects.count < 256 →
      (∀ k ∈ blocks, k.2.Fits (min 16 (w - tx)) (min 16 (h - ty))) →
      raster (min 16 (w - tx)) (min 16 (h - ty))
          (blocks.foldl (paintBlock colour) fun _ _ => colour ground) =
        raster (min 16 (w - tx)) (min 16 (h - ty)) (shift picture tx ty) →
      HextileTiles w h picture origins (some ground) (tile.foreground.or fg) rest →
      HextileTiles w h picture ((tx, ty) :: origins) bg fg (tile.bytes code ++ rest)

inductive Encodes (w h : Nat) : Int32 → QByteArray → List UInt32 → Prop
  | raw (values : List ι) : values.length = w * h →
      Encodes w h EncRaw (values.flatMap code) (values.map colour)
  | rre (ground : ι) (subrects : List (Subrect ι)) : subrects.length < 2 ^ 32 →
      Encodes w h EncRRE
        (BigEndian.bytes32 (.ofNat subrects.length) ++ code ground ++
          subrects.flatMap (Subrect.bytes code))
        (raster w h (subrects.foldl (Subrect.paint colour) fun _ _ => colour ground))
  | hextile (picture : Picture UInt32) {bytes : QByteArray} :
      HextileTiles code colour w h picture (tileOrigins w h 16) none none bytes →
      Encodes w h EncHextile bytes (raster w h picture)

end Format

section Recode

variable (φ : ι → Pixel)

def Subrect.recode (s : Subrect ι) : Rfb.Subrect := ⟨φ s.value, s.x, s.y, s.w, s.h⟩

def Subrects.recode : Subrects ι → Rfb.Subrects
  | .absent => .absent
  | .plain blocks => .plain blocks
  | .coloured blocks => .coloured (blocks.map (Prod.map φ id))

def PaintedTile.recode (t : PaintedTile ι) : Rfb.PaintedTile :=
  ⟨t.background.map φ, t.foreground.map φ, t.subrects.recode φ⟩

theorem painted_recode (s : Subrects ι) (fg : Option ι) :
    (s.recode φ).painted (fg.map φ) = (s.painted fg).map (List.map (Prod.map φ id)) := by
  cases s with
  | absent => rfl
  | coloured blocks => rfl
  | plain blocks =>
    simp only [Subrects.recode, Rfb.Subrects.painted, Subrects.painted]
    induction blocks with
    | nil => rfl
    | cons k blocks ih =>
      rw [List.mapM_cons, List.mapM_cons, ih]
      cases fg with
      | none => rfl
      | some v =>
        cases blocks.mapM fun k => (some v).map (·, k) with
        | none => rfl
        | some blocks => rfl

theorem flags_recode (t : PaintedTile ι) : (t.recode φ).flags = t.flags := by
  obtain ⟨background, foreground, subrects⟩ := t
  cases background <;> cases foreground <;> cases subrects <;> rfl

theorem count_recode (s : Subrects ι) : (s.recode φ).count = s.count := by
  cases s with
  | absent => rfl
  | plain blocks => rfl
  | coloured blocks => exact List.length_map _

variable {φ} {code : ι → QByteArray} {colour : ι → UInt32}

section Bytes

variable (hcode : ∀ v, (φ v).bytes = code v)

include hcode

theorem subrect_bytes_recode (s : Subrect ι) : (s.recode φ).bytes = s.bytes code := by
  rw [Rfb.Subrect.bytes, Subrect.bytes, ← hcode]
  rfl

theorem elim_recode (v : Option ι) : (v.map φ).elim [] Pixel.bytes = v.elim [] code := by
  cases v with
  | none => rfl
  | some v => exact hcode v

theorem subrects_bytes_recode (s : Subrects ι) : (s.recode φ).bytes = s.bytes code := by
  cases s with
  | absent => rfl
  | plain blocks => rfl
  | coloured blocks =>
    simp only [Subrects.recode, Rfb.Subrects.bytes, Subrects.bytes, List.length_map,
      List.flatMap_map, Prod.map, hcode, id]

theorem tile_bytes_recode (t : PaintedTile ι) : (t.recode φ).bytes = t.bytes code := by
  rw [Rfb.PaintedTile.bytes, PaintedTile.bytes, flags_recode, ← elim_recode hcode,
    ← elim_recode hcode, ← subrects_bytes_recode hcode]
  rfl

end Bytes

section Colours

variable (hcolour : ∀ v, (φ v).argb = colour v)

include hcolour

theorem foldl_paintBlock_recode (blocks : List (ι × Block)) (f : Picture UInt32) :
    (blocks.map (Prod.map φ id)).foldl Block.paint f = blocks.foldl (paintBlock colour) f := by
  induction blocks generalizing f with
  | nil => rfl
  | cons k blocks ih =>
    rw [List.map_cons, List.foldl_cons, List.foldl_cons, ih, Block.paint, paintBlock, ← hcolour]
    rfl

theorem foldl_paint_recode (subrects : List (Subrect ι)) (f : Picture UInt32) :
    (subrects.map (Subrect.recode φ)).foldl Rfb.Subrect.paint f =
      subrects.foldl (Subrect.paint colour) f := by
  induction subrects generalizing f with
  | nil => rfl
  | cons s subrects ih =>
    rw [List.map_cons, List.foldl_cons, List.foldl_cons, ih, Rfb.Subrect.paint, Subrect.paint,
      ← hcolour]
    rfl

theorem map_colour_recode (values : List ι) :
    (values.map φ).map Pixel.argb = values.map colour := by
  rw [List.map_map]
  exact List.map_congr_left fun v _ => hcolour v

end Colours

section Encodings

variable (hcode : ∀ v, (φ v).bytes = code v) (hcolour : ∀ v, (φ v).argb = colour v)

include hcode hcolour

theorem hextile_recode {w h : Nat} {picture : Picture UInt32} {origins : List (Nat × Nat)}
    {bg fg : Option ι} {bytes : QByteArray}
    (hb : HextileTiles code colour w h picture origins bg fg bytes) :
    Rfb.HextileTiles w h picture origins (bg.map φ) (fg.map φ) bytes := by
  induction hb with
  | nil bg fg => exact .nil _ _
  | raw sub values hsub hvalues _ ih =>
    have hbytes : (values.map φ).flatMap Pixel.bytes = values.flatMap code := by
      simp only [List.flatMap_map, hcode]
    rw [← hbytes]
    exact .raw sub (values.map φ) hsub ((map_colour_recode hcolour values).trans hvalues) ih
  | @painted tx ty origins bg fg rest tile ground blocks hground hblocks hcount hfits hpicture _
      ih =>
    rw [← tile_bytes_recode hcode]
    rw [Option.map_or] at ih
    refine .painted (tile.recode φ) (φ ground) (blocks.map (Prod.map φ id)) ?_ ?_ ?_ ?_ ?_ ih
    · rw [PaintedTile.recode, ← Option.map_or, hground]
      rfl
    · rw [PaintedTile.recode, ← Option.map_or, painted_recode, hblocks]
      rfl
    · rwa [PaintedTile.recode, count_recode]
    · intro k hk
      obtain ⟨j, hj, rfl⟩ := List.mem_map.mp hk
      exact hfits j hj
    · rw [foldl_paintBlock_recode hcolour, hcolour]
      exact hpicture

theorem encodes_recode {w h : Nat} {encoding : Int32} {bytes : QByteArray}
    {colours : List UInt32} (he : Encodes code colour w h encoding bytes colours) :
    Rfb.Encodes w h encoding bytes (.pixels colours) := by
  cases he with
  | raw values hcount =>
    have hbytes : (values.map φ).flatMap Pixel.bytes = values.flatMap code := by
      simp only [List.flatMap_map, hcode]
    rw [← hbytes, ← map_colour_recode hcolour]
    exact .raw (values.map φ) ((List.length_map φ).trans hcount)
  | rre ground subrects hcount =>
    have hbytes : (subrects.map (Subrect.recode φ)).flatMap Rfb.Subrect.bytes =
        subrects.flatMap (Subrect.bytes code) := by
      rw [List.flatMap_map]
      exact List.flatMap_congr fun s _ => subrect_bytes_recode hcode s
    have hlength : (subrects.map (Subrect.recode φ)).length = subrects.length := List.length_map _
    rw [← hbytes, ← hcode, ← foldl_paint_recode hcolour, ← hcolour, ← hlength]
    exact .rre (φ ground) _ (by rwa [hlength])
  | hextile picture htiles => exact .hextile picture (hextile_recode hcode hcolour htiles)

end Encodings

end Recode

end Coded

end Connect.Rfb
