import MacXterm.Connect.RfbProtocol

namespace Connect.Rfb

open Qt Picture

inductive ReturnCode where
  | ok
  | streamEnd
  | bufError
  | error
  deriving DecidableEq

-- The zlib calls: what one inflate with this much input and this much room for output returns,
-- the stream after it, the input left over and the output; calls bounds how often in a row it can
-- fill its output.
structure Zlib where
  Stream : Type
  initial : Stream
  inflateInit : Bool
  inflate : Stream → QByteArray → Nat → ReturnCode × Stream × QByteArray × QByteArray
  calls : Stream → QByteArray → Nat

structure RfbZlibStream (z : Zlib) where
  zs : z.Stream
  failed : Bool

namespace RfbZlibStream

variable {z : Zlib}

def init : RfbZlibStream z := ⟨z.initial, !z.inflateInit⟩

def drain : Nat → z.Stream → QByteArray → QByteArray → RfbZlibStream z × QByteArray
  | 0, zs, _, out => (⟨zs, false⟩, out)
  | fuel + 1, zs, input, out =>
      match z.inflate zs input 16384 with
      | (.error, zs, _, _) => (⟨zs, true⟩, out)
      | (.ok, zs, input, produced) =>
          if produced.length = 16384 then drain fuel zs input (out ++ produced)
          else (⟨zs, false⟩, out ++ produced)
      | (_, zs, _, produced) => (⟨zs, false⟩, out ++ produced)

def inflate (s : RfbZlibStream z) (compressed : QByteArray) : RfbZlibStream z × QByteArray :=
  if s.failed ∨ compressed = [] then (s, [])
  else drain (z.calls s.zs compressed + 1) s.zs compressed []

end RfbZlibStream

-- The cursor of the source is kept as the bytes from it on.
structure TileReader where
  rest : QByteArray
  bad : Bool

namespace TileReader

def u8 (t : TileReader) : UInt8 × TileReader :=
  match t.rest with
  | c :: cs => (c, ⟨cs, t.bad⟩)
  | [] => (0, ⟨[], true⟩)

def cpixel (t : TileReader) : UInt32 × TileReader :=
  match t.rest with
  | blue :: green :: red :: cs => (argb red green blue, ⟨cs, t.bad⟩)
  | cs => (0xFF000000, ⟨cs, true⟩)

def sumBytes : QByteArray → Int × TileReader
  | [] => (0, ⟨[], true⟩)
  | c :: cs =>
      if c = 255 then
        let (sum, t) := sumBytes cs
        (255 + sum, t)
      else (c.toNat, ⟨cs, false⟩)

def runLength (t : TileReader) : Int × TileReader :=
  if t.bad then
    let (c, t) := t.u8
    (c.toNat + 1, t)
  else
    let (sum, t) := sumBytes t.rest
    (int32 (sum + 1), t)

def palette : Nat → TileReader → List UInt32 × TileReader
  | 0, t => ([], t)
  | n + 1, t =>
      let (c, t) := t.cpixel
      let (cs, t) := palette n t
      (c :: cs, t)

end TileReader

structure TileState where
  pixels : List UInt32
  reader : TileReader

structure Tile where
  w : Nat
  h : Nat
  tx : Nat
  ty : Nat

namespace Tile

def tw (t : Tile) : Nat := min 64 (t.w - t.tx)

def th (t : Tile) : Nat := min 64 (t.h - t.ty)

def put (t : Tile) (pixels : List UInt32) (lx ly : Nat) (c : UInt32) : List UInt32 :=
  Picture.put t.w t.h pixels (t.tx + lx) (t.ty + ly) c

def raw (t : Tile) (s : TileState) : TileState :=
  (List.range t.th).foldl (fun s y =>
    (List.range t.tw).foldl (fun s x =>
      let (c, reader) := s.reader.cpixel
      ⟨t.put s.pixels x y c, reader⟩) s) s

def solid (t : Tile) (s : TileState) : TileState :=
  let (c, reader) := s.reader.cpixel
  ⟨fill t.w t.h s.pixels t.tx t.ty t.tw t.th fun _ _ => c, reader⟩

structure PackedState where
  bit : Nat
  cur : UInt8
  state : TileState

def packedPixel (t : Tile) (pal : List UInt32) (bpp y : Nat) (s : PackedState) (x : Nat) :
    PackedState :=
  let (cur, bit, reader) :=
    if s.bit = 0 then
      let (cur, reader) := s.state.reader.u8
      (cur, 8, reader)
    else (s.cur, s.bit, s.state.reader)
  let bit := bit - bpp
  let idx := (cur.toNat >>> bit) &&& (2 ^ bpp - 1)
  ⟨bit, cur, ⟨t.put s.state.pixels x y (pal.getD idx 0xFF000000), reader⟩⟩

def packed (t : Tile) (palSize : Nat) (s : TileState) : TileState :=
  let (pal, reader) := s.reader.palette palSize
  let bpp := if palSize ≤ 2 then 1 else if palSize ≤ 4 then 2 else 4
  (List.range t.th).foldl (fun s y =>
    if s.reader.bad then s
    else ((List.range t.tw).foldl (t.packedPixel pal bpp y) ⟨0, 0, s⟩).state) ⟨s.pixels, reader⟩

structure Cursor where
  x : Nat
  y : Nat
  pixels : List UInt32

def spread (t : Tile) (c : UInt32) : Nat → Cursor → Cursor
  | 0, s => s
  | run + 1, s =>
      if s.y < t.th then
        let pixels := t.put s.pixels s.x s.y c
        t.spread c run
          (if t.tw ≤ s.x + 1 then ⟨0, s.y + 1, pixels⟩ else ⟨s.x + 1, s.y, pixels⟩)
      else s

-- Every turn of the two run-length loops reads a byte or latches bad, so the bytes bound the turns.
def runs (t : Tile) (next : TileReader → UInt32 × Int × TileReader) :
    Nat → Cursor → TileReader → TileState
  | 0, s, reader => ⟨s.pixels, reader⟩
  | fuel + 1, s, reader =>
      if s.y < t.th ∧ !reader.bad then
        let (c, run, reader) := next reader
        t.runs next fuel (t.spread c run.toNat s) reader
      else ⟨s.pixels, reader⟩

def plainRun (reader : TileReader) : UInt32 × Int × TileReader :=
  let (c, reader) := reader.cpixel
  let (run, reader) := reader.runLength
  (c, run, reader)

def plainRle (t : Tile) (s : TileState) : TileState :=
  t.runs plainRun (s.reader.rest.length + 1) ⟨0, 0, s.pixels⟩ s.reader

def paletteRun (pal : List UInt32) (reader : TileReader) : UInt32 × Int × TileReader :=
  let (idxByte, reader) := reader.u8
  let idx := (idxByte &&& 0x7F).toNat
  let (run, reader) := if idxByte &&& 0x80 ≠ 0 then reader.runLength else (1, reader)
  (pal.getD idx 0xFF000000, run, reader)

def paletteRle (t : Tile) (palSize : Nat) (s : TileState) : TileState :=
  let (pal, reader) := s.reader.palette palSize
  t.runs (paletteRun pal) (reader.rest.length + 1) ⟨0, 0, s.pixels⟩ reader

def decode (t : Tile) (s : TileState) : TileState :=
  let (sub, reader) := s.reader.u8
  let s : TileState := ⟨s.pixels, reader⟩
  if sub = 0 then t.raw s
  else if sub = 1 then t.solid s
  else if 2 ≤ sub ∧ sub ≤ 16 then t.packed sub.toNat s
  else if sub = 128 then t.plainRle s
  else if 130 ≤ sub then t.paletteRle (sub.toNat - 128) s
  else ⟨s.pixels, ⟨s.reader.rest, true⟩⟩

end Tile

def zrlePixels (w h n : Nat) (tiles : QByteArray) : List UInt32 :=
  let s := (tileOrigins w h 64).foldl
    (fun s origin => if s.reader.bad then s else Tile.decode ⟨w, h, origin.1, origin.2⟩ s)
    (⟨List.replicate n 0xFF000000, ⟨tiles, false⟩⟩ : TileState)
  if s.reader.bad then [] else s.pixels

def decodeZRLERect {z : Zlib} (zlib : RfbZlibStream z) (r : Rectangle) (buf : QByteArray)
    (off : Int) : RectData × RfbZlibStream z :=
  if buf.length < int32 (off + 4) then (.waiting, zlib)
  else
    let len := int32 (rd32be buf off).toNat
    if buf.length < int32 (off + 4 + len) then (.waiting, zlib)
    else
      let (zlib, tiles) := zlib.inflate (mid buf (int32 (off + 4)) len)
      let consumed := int32 (4 + len)
      if zlib.failed then (.drawn consumed [], zlib)
      else
        let w := r.width.toNat
        let h := r.height.toNat
        (.drawn consumed (zrlePixels w h (int32 (w * h)).toNat tiles), zlib)

end Connect.Rfb
