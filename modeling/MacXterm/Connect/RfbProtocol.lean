import MacXterm.Lib.MachineInt
import MacXterm.Lib.Parser
import MacXterm.Lib.Picture
import MacXterm.Qt.ByteArray

namespace Connect.Rfb

open Qt Picture

structure Version where
  major : Int
  minor : Int
  deriving DecidableEq

-- QByteArray::toInt stops at a zero byte and takes ASCII only.
def bytesToInt (b : QByteArray) : Option Int :=
  toInt ((b.takeWhile (· != 0)).map fun c => if c < 0x80 then .ofNat c.toNat else '\uFFFD')

def parseVersion (bytes : QByteArray) : Option Version :=
  if bytes.length < 12 ∨ bytes.take 4 ≠ toUtf8 "RFB " ∨ byteAt bytes 11 ≠ 0x0A then none
  else
    match bytesToInt (mid bytes 4 3), bytesToInt (mid bytes 8 3) with
    | some major, some minor => some ⟨major, minor⟩
    | _, _ => none

def rightJustified (b : QByteArray) (width : Nat) (fill : UInt8) : QByteArray :=
  List.replicate (width - b.length) fill ++ b

def formatVersion (v : Version) : QByteArray :=
  toUtf8 "RFB " ++ rightJustified (toUtf8 (number v.major)) 3 0x30 ++ toUtf8 "." ++
    rightJustified (toUtf8 (number v.minor)) 3 0x30 ++ toUtf8 "\n"

structure ServerInit where
  width : UInt16
  height : UInt16
  bitsPerPixel : UInt8
  depth : UInt8
  name : QString
  valid : Bool
  deriving DecidableEq

def parseServerInit (b : QByteArray) : ServerInit :=
  if b.length < 24 then ⟨0, 0, 0, 0, [], false⟩
  else
    let nameLen := (rd32be b 20).toNat
    let s : ServerInit := ⟨rd16be b 0, rd16be b 2, byteAt b 4, byteAt b 5, [], false⟩
    if b.length < int32 (24 + nameLen) then s
    else { s with name := fromUtf8 (mid b 24 nameLen), valid := true }

structure Rectangle where
  x : UInt16
  y : UInt16
  width : UInt16
  height : UInt16
  encoding : Int32
  deriving DecidableEq

def rectangleAt (b : QByteArray) (off : Int) : Rectangle :=
  ⟨rd16be b off, rd16be b (off + 2), rd16be b (off + 4), rd16be b (off + 6),
    (rd32be b (off + 8)).toInt32⟩

def parseRects (b : QByteArray) : Nat → Int → Option (List Rectangle)
  | 0, _ => some []
  | n + 1, off =>
      if b.length < off + 12 then none
      else (parseRects b n (off + 12)).map (rectangleAt b off :: ·)

def parseFramebufferUpdate (b : QByteArray) : Option (List Rectangle) :=
  if b.length < 4 ∨ byteAt b 0 ≠ 0 then none else parseRects b (rd16be b 2).toNat 4

def argb (red green blue : UInt8) : UInt32 :=
  (0xFF000000 : UInt32) ||| red.toUInt32 <<< 16 ||| green.toUInt32 <<< 8 ||| blue.toUInt32

def decodeRawRect (r : Rectangle) (pixelData : QByteArray) (bpp : Nat) : List UInt32 :=
  let count := int32 (r.width.toNat * r.height.toNat)
  if pixelData.length < int32 (count * bpp) then []
  else
    (List.range count.toNat).map fun (i : Nat) =>
      let o := int32 (i * bpp)
      argb (byteAt pixelData (o + 2)) (byteAt pixelData (o + 1)) (byteAt pixelData o)

def readPixel (b : QByteArray) (off : Int) (bpp : Nat) : UInt32 :=
  let blue := byteAt b off
  let green := if bpp > 1 then byteAt b (off + 1) else 0
  let red := if bpp > 2 then byteAt b (off + 2) else 0
  argb red green blue

def EncRaw : Int32 := 0
def EncCopyRect : Int32 := 1
def EncRRE : Int32 := 2
def EncHextile : Int32 := 5
def EncZRLE : Int32 := 16

structure RectData where
  complete : Bool
  consumed : Int
  pixels : List UInt32
  isCopy : Bool
  srcX : UInt16
  srcY : UInt16
  deriving DecidableEq

namespace RectData

def waiting : RectData := ⟨false, 0, [], false, 0, 0⟩

def drawn (consumed : Int) (pixels : List UInt32) : RectData := ⟨true, consumed, pixels, false, 0, 0⟩

def copied (consumed : Int) (srcX srcY : UInt16) : RectData := ⟨true, consumed, [], true, srcX, srcY⟩

end RectData

def decodeRaw (r : Rectangle) (buf : QByteArray) (off : Int) (bpp : Nat) : RectData :=
  let n := int32 (r.width.toNat * r.height.toNat)
  let need := int32 (n * bpp)
  if buf.length < int32 (off + need) then .waiting
  else .drawn need (decodeRawRect r (mid buf off need) bpp)

def decodeCopyRect (buf : QByteArray) (off : Int) : RectData :=
  if buf.length < int32 (off + 4) then .waiting
  else .copied 4 (rd16be buf off) (rd16be buf (off + 2))

def subrectangle (w h : Nat) (buf : QByteArray) (bpp : Nat) (pixels : List UInt32) (p : Int) :
    List UInt32 :=
  let color := readPixel buf p bpp
  let sx := rd16be buf (p + bpp)
  let sy := rd16be buf (p + bpp + 2)
  let sw := rd16be buf (p + bpp + 4)
  let sh := rd16be buf (p + bpp + 6)
  fill w h pixels sx.toNat sy.toNat sw.toNat sh.toNat fun _ _ => color

def decodeRRE (r : Rectangle) (buf : QByteArray) (off : Int) (bpp : Nat) : RectData :=
  let w := r.width.toNat
  let h := r.height.toNat
  let n := int32 (w * h)
  if buf.length < int32 (off + 4 + bpp) then .waiting
  else
    let nsub := (rd32be buf off).toNat
    let subSize := bpp + 8
    let need := int32 (4 + bpp + int32 nsub * subSize)
    if buf.length < int32 (off + need) then .waiting
    else
      let bg := readPixel buf (off + 4) bpp
      .drawn need ((List.range nsub).foldl
        (fun pixels (s : Nat) =>
          subrectangle w h buf bpp pixels (int32 (off + 4 + bpp + s * subSize)))
        (List.replicate n.toNat bg))

-- The loops of the source in their order: rows of tiles from the top, each from the left.
def origins (extent step : Nat) : List Nat :=
  (List.range ((extent + step - 1) / step)).map (· * step)

def tileOrigins (w h step : Nat) : List (Nat × Nat) :=
  (origins h step).flatMap fun ty => (origins w step).map fun tx => (tx, ty)

structure HextileState where
  pixels : List UInt32
  bg : UInt32
  fg : UInt32

-- The cursor p of the source is kept as the bytes from p on; take n is its guard together with
-- the n bytes read after it.
def byte : Parser UInt8 := do
  let b ← Parser.take 1
  pure (byteAt b 0)

def pixel (bpp : Nat) : Parser UInt32 := do
  let b ← Parser.take bpp
  pure (readPixel b 0 bpp)

def hextileSubrect (w h bpp tx ty : Nat) (coloured : Bool) (fg : UInt32)
    (pixels : List UInt32) : Parser (List UInt32) := do
  let c ← Parser.when coloured (pixel bpp) fg
  let b ← Parser.take 2
  let xy := byteAt b 0
  let wh := byteAt b 1
  pure (fill w h pixels (tx + (xy >>> 4).toNat) (ty + (xy &&& 0x0F).toNat)
    ((wh >>> 4).toNat + 1) ((wh &&& 0x0F).toNat + 1) fun _ _ => c)

def hextileTile (w h bpp : Nat) (s : HextileState) (origin : Nat × Nat) :
    Parser HextileState := do
  let (tx, ty) := origin
  let tw := min 16 (w - tx)
  let th := min 16 (h - ty)
  let sub ← byte
  if sub &&& 0x01 ≠ 0 then
    let raw ← Parser.take (tw * th * bpp)
    pure { s with
      pixels := fill w h s.pixels tx ty tw th fun xx yy =>
        readPixel raw (((yy * tw + xx) * bpp : Nat) : Int) bpp }
  else
    let bg ← Parser.when (sub &&& 0x02 ≠ 0) (pixel bpp) s.bg
    let fg ← Parser.when (sub &&& 0x04 ≠ 0) (pixel bpp) s.fg
    let pixels := fill w h s.pixels tx ty tw th fun _ _ => bg
    if sub &&& 0x08 ≠ 0 then
      let ns ← byte
      let pixels ← (List.range ns.toNat).foldlM
        (fun pixels _ => hextileSubrect w h bpp tx ty (sub &&& 0x10 ≠ 0) fg pixels) pixels
      pure ⟨pixels, bg, fg⟩
    else pure ⟨pixels, bg, fg⟩

def hextile (w h bpp n : Nat) : Parser HextileState :=
  (tileOrigins w h 16).foldlM (hextileTile w h bpp)
    ⟨List.replicate n 0xFF000000, 0xFF000000, 0xFFFFFFFF⟩

def window (buf : QByteArray) (off : Int) : QByteArray :=
  if 0 ≤ off then buf.drop off.toNat else List.replicate (-off).toNat 0 ++ buf

def decodeHextile (r : Rectangle) (buf : QByteArray) (off : Int) (bpp : Nat) : RectData :=
  let w := r.width.toNat
  let h := r.height.toNat
  let n := int32 (w * h)
  let bytes := window buf off
  match hextile w h bpp n.toNat bytes with
  | none => .waiting
  | some (s, rest) => .drawn ((bytes.length - rest.length : Nat) : Int) s.pixels

def decodeRect (r : Rectangle) (buf : QByteArray) (off : Int) (bpp : Nat) : RectData :=
  if r.encoding = EncRaw then decodeRaw r buf off bpp
  else if r.encoding = EncCopyRect then decodeCopyRect buf off
  else if r.encoding = EncRRE then decodeRRE r buf off bpp
  else if r.encoding = EncHextile then decodeHextile r buf off bpp
  else .waiting

def encodeSetEncodings (encodings : List Int32) : QByteArray :=
  [2, 0] ++ BigEndian.bytes16 (.ofNat encodings.length) ++
    encodings.flatMap fun e => BigEndian.bytes32 e.toUInt32

def coordinate (v : Int) : UInt16 := .ofInt (if v < 0 then 0 else v)

def encodePointerEvent (x y buttonMask : Int) : QByteArray :=
  [5, .ofInt buttonMask] ++ BigEndian.bytes16 (coordinate x) ++ BigEndian.bytes16 (coordinate y)

def encodeKeyEvent (keysym : UInt32) (down : Bool) : QByteArray :=
  [4, if down then 1 else 0, 0, 0] ++ BigEndian.bytes32 keysym

end Connect.Rfb
