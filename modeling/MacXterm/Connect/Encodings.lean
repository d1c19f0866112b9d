import MacXterm.Connect.RfbProtocol

namespace Connect.Rfb

open Qt Picture

structure Pixel where
  blue : UInt8
  green : UInt8
  red : UInt8
  pad : UInt8

namespace Pixel

def bytes (p : Pixel) : QByteArray := [p.blue, p.green, p.red, p.pad]

def argb (p : Pixel) : UInt32 := Rfb.argb p.red p.green p.blue

end Pixel

structure CPixel where
  blue : UInt8
  green : UInt8
  red : UInt8

namespace CPixel

def bytes (p : CPixel) : QByteArray := [p.blue, p.green, p.red]

def argb (p : CPixel) : UInt32 := Rfb.argb p.red p.green p.blue

end CPixel

structure Subrect where
  colour : Pixel
  x : UInt16
  y : UInt16
  w : UInt16
  h : UInt16

namespace Subrect

def bytes (s : Subrect) : QByteArray :=
  s.colour.bytes ++ BigEndian.bytes16 s.x ++ BigEndian.bytes16 s.y ++ BigEndian.bytes16 s.w ++
    BigEndian.bytes16 s.h

def paint (f : Picture UInt32) (s : Subrect) : Picture UInt32 :=
  patch f s.x.toNat s.y.toNat s.w.toNat s.h.toNat fun _ _ => s.colour.argb

end Subrect

-- Width and height are one less than the extents.
structure Block where
  x : Fin 16
  y : Fin 16
  w : Fin 16
  h : Fin 16

namespace Block

def bytes (k : Block) : QByteArray :=
  [.ofNat (k.x.val * 16 + k.y.val), .ofNat (k.w.val * 16 + k.h.val)]

def Fits (k : Block) (tw th : Nat) : Prop :=
  k.x.val + (k.w.val + 1) ≤ tw ∧ k.y.val + (k.h.val + 1) ≤ th

def paint (f : Picture UInt32) (k : Pixel × Block) : Picture UInt32 :=
  patch f k.2.x.val k.2.y.val (k.2.w.val + 1) (k.2.h.val + 1) fun _ _ => k.1.argb

end Block

inductive Subrects where
  | absent
  | plain (blocks : List Block)
  | coloured (blocks : List (Pixel × Block))

namespace Subrects

def flags : Subrects → UInt8
  | .absent => 0
  | .plain _ => 8
  | .coloured _ => 24

def count : Subrects → Nat
  | .absent => 0
  | .plain blocks => blocks.length
  | .coloured blocks => blocks.length

def bytes : Subrects → QByteArray
  | .absent => []
  | .plain blocks => UInt8.ofNat blocks.length :: blocks.flatMap Block.bytes
  | .coloured blocks =>
      UInt8.ofNat blocks.length :: blocks.flatMap fun k => k.1.bytes ++ k.2.bytes

def painted (fg : Option Pixel) : Subrects → Option (List (Pixel × Block))
  | .absent => some []
  | .plain blocks => blocks.mapM fun k => fg.map (·, k)
  | .coloured blocks => some blocks

end Subrects

structure PaintedTile where
  background : Option Pixel
  foreground : Option Pixel
  subrects : Subrects

namespace PaintedTile

def flags (t : PaintedTile) : UInt8 :=
  (if t.background.isSome then 2 else 0) ||| (if t.foreground.isSome then 4 else 0) |||
    t.subrects.flags

def bytes (t : PaintedTile) : QByteArray :=
  [t.flags] ++ t.background.elim [] Pixel.bytes ++ t.foreground.elim [] Pixel.bytes ++
    t.subrects.bytes

end PaintedTile

-- The bytes of the tiles at these origins of a picture; bg and fg are the colours that the tiles
-- before have left.
inductive HextileTiles (w h : Nat) (picture : Picture UInt32) :
    List (Nat × Nat) → Option Pixel → Option Pixel → QByteArray → Prop
  | nil (bg fg : Option Pixel) : HextileTiles w h picture [] bg fg []
  | raw {tx ty : Nat} {origins : List (Nat × Nat)} {bg fg : Option Pixel} {rest : QByteArray}
      (sub : UInt8) (pixels : List Pixel) : sub &&& 0x01 ≠ 0 →
      pixels.map Pixel.argb = raster (min 16 (w - tx)) (min 16 (h - ty)) (shift picture tx ty) →
      HextileTiles w h picture origins bg fg rest →
      HextileTiles w h picture ((tx, ty) :: origins) bg fg
        ([sub] ++ pixels.flatMap Pixel.bytes ++ rest)
  | painted {tx ty : Nat} {origins : List (Nat × Nat)} {bg fg : Option Pixel}
      {rest : QByteArray} (tile : PaintedTile) (ground : Pixel) (blocks : List (Pixel × Block)) :
      tile.background.or bg = some ground →
      tile.subrects.painted (tile.foreground.or fg) = some blocks →
      tile.subrects.count < 256 →
      (∀ k ∈ blocks, k.2.Fits (min 16 (w - tx)) (min 16 (h - ty))) →
      raster (min 16 (w - tx)) (min 16 (h - ty))
          (blocks.foldl Block.paint fun _ _ => ground.argb) =
        raster (min 16 (w - tx)) (min 16 (h - ty)) (shift picture tx ty) →
      HextileTiles w h picture origins (some ground) (tile.foreground.or fg) rest →
      HextileTiles w h picture ((tx, ty) :: origins) bg fg (tile.bytes ++ rest)

def runBytes (n : Nat) : QByteArray :=
  List.replicate ((n - 1) / 255) 255 ++ [.ofNat ((n - 1) % 255)]

structure Run where
  colour : CPixel
  length : Nat
  positive : 0 < length

namespace Run

def bytes (r : Run) : QByteArray := r.colour.bytes ++ runBytes r.length

def colours (r : Run) : List UInt32 := List.replicate r.length r.colour.argb

end Run

inductive PaletteRun (size : Nat) where
  | single (index : Fin size)
  | run (index : Fin size) (length : Nat) (positive : 0 < length)

namespace PaletteRun

variable {size : Nat}

def bytes : PaletteRun size → QByteArray
  | .single index => [.ofNat index.val]
  | .run index length _ => [.ofNat (index.val + 128)] ++ runBytes length

def colours (palette : Fin size → CPixel) : PaletteRun size → List UInt32
  | .single index => [(palette index).argb]
  | .run index length _ => List.replicate length (palette index).argb

end PaletteRun

def indexBits (size : Nat) : Nat := if size ≤ 2 then 1 else if size ≤ 4 then 2 else 4

-- The x-th of the indices of this many bits that a row is cut into, from the high bits on.
def packedIndex (bits : Nat) (row : QByteArray) (x : Nat) : Nat :=
  (row.getD (x * bits / 8) 0).toNat / 2 ^ (8 - bits - x * bits % 8) % 2 ^ bits

def paletteBytes {size : Nat} (palette : Fin size → CPixel) : QByteArray :=
  (List.ofFn palette).flatMap CPixel.bytes

inductive ZrleTile (tw th : Nat) : QByteArray → List UInt32 → Prop
  | raw (pixels : List CPixel) : pixels.length = tw * th →
      ZrleTile tw th ([0] ++ pixels.flatMap CPixel.bytes) (pixels.map CPixel.argb)
  | solid (c : CPixel) : ZrleTile tw th ([1] ++ c.bytes) (List.replicate (tw * th) c.argb)
  | packed {size : Nat} (palette : Fin size → CPixel) (rows : List QByteArray)
      (indices : List (List (Fin size))) : 2 ≤ size → size ≤ 16 → rows.length = th →
      (∀ row ∈ rows, row.length = (tw * indexBits size + 7) / 8) →
      indices.map (·.map Fin.val) =
        rows.map (fun row => (List.range tw).map (packedIndex (indexBits size) row)) →
      ZrleTile tw th ([.ofNat size] ++ paletteBytes palette ++ rows.flatten)
        (indices.flatten.map fun i => (palette i).argb)
  | plainRle (runs : List Run) : (runs.flatMap Run.colours).length = tw * th →
      ZrleTile tw th ([128] ++ runs.flatMap Run.bytes) (runs.flatMap Run.colours)
  | paletteRle {size : Nat} (palette : Fin size → CPixel) (runs : List (PaletteRun size)) :
      2 ≤ size → size ≤ 127 → (runs.flatMap (PaletteRun.colours palette)).length = tw * th →
      ZrleTile tw th ([.ofNat (size + 128)] ++ paletteBytes palette ++ runs.flatMap PaletteRun.bytes)
        (runs.flatMap (PaletteRun.colours palette))

inductive ZrleTiles (w h : Nat) (picture : Picture UInt32) : List (Nat × Nat) → QByteArray → Prop
  | nil : ZrleTiles w h picture [] []
  | cons {tx ty : Nat} {origins : List (Nat × Nat)} {tile rest : QByteArray} :
      ZrleTile (min 64 (w - tx)) (min 64 (h - ty)) tile
        (raster (min 64 (w - tx)) (min 64 (h - ty)) (shift picture tx ty)) →
      ZrleTiles w h picture origins rest →
      ZrleTiles w h picture ((tx, ty) :: origins) (tile ++ rest)

inductive Content where
  | pixels (colours : List UInt32)
  | copied (srcX srcY : UInt16)

-- The payloads that stand for themselves in the stream.
inductive Encodes (w h : Nat) : Int32 → QByteArray → Content → Prop
  | raw (pixels : List Pixel) : pixels.length = w * h →
      Encodes w h EncRaw (pixels.flatMap Pixel.bytes) (.pixels (pixels.map Pixel.argb))
  | copyRect (srcX srcY : UInt16) :
      Encodes w h EncCopyRect (BigEndian.bytes16 srcX ++ BigEndian.bytes16 srcY)
        (.copied srcX srcY)
  | rre (ground : Pixel) (subrects : List Subrect) : subrects.length < 2 ^ 32 →
      Encodes w h EncRRE
        (BigEndian.bytes32 (.ofNat subrects.length) ++ ground.bytes ++
          subrects.flatMap Subrect.bytes)
        (.pixels (raster w h (subrects.foldl Subrect.paint fun _ _ => ground.argb)))
  | hextile (picture : Picture UInt32) {bytes : QByteArray} :
      HextileTiles w h picture (tileOrigins w h 16) none none bytes →
      Encodes w h EncHextile bytes (.pixels (raster w h picture))

end Connect.Rfb
