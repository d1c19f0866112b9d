import MacXterm.Connect.Chunking
import MacXterm.Connect.ZrleDecode

namespace Connect

open Qt Rfb Reactor

namespace Rfb

inductive Body (w h : Nat) where
  | plain (encoding : Int32) (bytes : QByteArray) (content : Content)
      (encodes : Encodes w h encoding bytes content)
  | zrle (picture : Picture UInt32) (tiles compressed : QByteArray)
      (encodes : ZrleTiles w h picture (tileOrigins w h 64) tiles)
      (short : compressed.length < 2 ^ 32)

structure EncodedRect where
  x : UInt16
  y : UInt16
  width : UInt16
  height : UInt16
  body : Body width.toNat height.toNat

namespace EncodedRect

def encoding (r : EncodedRect) : Int32 :=
  match r.body with
  | .plain encoding _ _ _ => encoding
  | .zrle .. => EncZRLE

def header (r : EncodedRect) : Rectangle := ⟨r.x, r.y, r.width, r.height, r.encoding⟩

def payload (r : EncodedRect) : QByteArray :=
  match r.body with
  | .plain _ bytes _ _ => bytes
  | .zrle _ _ compressed _ _ => BigEndian.bytes32 (.ofNat compressed.length) ++ compressed

def content (r : EncodedRect) : Content :=
  match r.body with
  | .plain _ _ content _ => content
  | .zrle picture _ _ _ _ => .pixels (Picture.raster r.width.toNat r.height.toNat picture)

def data (r : EncodedRect) : RectData := r.content.data r.payload.length

end EncodedRect

def headerBytes (r : Rectangle) : QByteArray :=
  BigEndian.bytes16 r.x ++ BigEndian.bytes16 r.y ++ BigEndian.bytes16 r.width ++
    BigEndian.bytes16 r.height ++ BigEndian.bytes32 r.encoding.toUInt32

def EncodedRect.bytes (r : EncodedRect) : QByteArray := headerBytes r.header ++ r.payload

structure FramebufferUpdate where
  pad : UInt8
  rects : List EncodedRect
  short : rects.length < 2 ^ 16

namespace FramebufferUpdate

def bytes (u : FramebufferUpdate) : QByteArray :=
  [0, u.pad] ++ BigEndian.bytes16 (.ofNat u.rects.length) ++ u.rects.flatMap EncodedRect.bytes

-- Every header stands where the client looks for it, right behind the header before it.
def HeadersTogether (u : FramebufferUpdate) : Prop :=
  ∀ (i : Nat) (hi : i < u.rects.length),
    (u.bytes.drop (4 + 12 * i)).take 12 = headerBytes u.rects[i].header

def Fits (u : FramebufferUpdate) : Prop :=
  u.bytes.length < 2 ^ 31 ∧ ∀ r ∈ u.rects, r.width.toNat * r.height.toNat < 2 ^ 31

def decoded (u : FramebufferUpdate) : List (Rectangle × RectData) :=
  u.rects.map fun r => (r.header, r.data)

end FramebufferUpdate

-- Zlib gives the tiles of every ZRLE rectangle back, from the stream the ones before have left.
def Inflates {z : Zlib} : RfbZlibStream z → List EncodedRect → RfbZlibStream z → Prop
  | zlib, [], zlib' => zlib = zlib'
  | zlib, r :: rects, zlib' =>
      match r.body with
      | .plain .. => Inflates zlib rects zlib'
      | .zrle _ tiles compressed _ _ =>
          ∃ next, zlib.inflate compressed = (next, tiles) ∧ next.failed = false ∧
            Inflates next rects zlib'

theorem length_headerBytes (r : Rectangle) : (headerBytes r).length = 12 := rfl

theorem rectangleAt_headerBytes (pre rest : QByteArray) (r : Rectangle) :
    rectangleAt (pre ++ (headerBytes r ++ rest)) pre.length = r := by
  have hx : rd16be (pre ++ (headerBytes r ++ rest)) pre.length = r.x :=
    (rd16be_append_right pre _ 0).trans (BigEndian.word16_bytes16 r.x)
  have hy : rd16be (pre ++ (headerBytes r ++ rest)) (pre.length + 2) = r.y :=
    (rd16be_append_right pre _ 2).trans (BigEndian.word16_bytes16 r.y)
  have hw : rd16be (pre ++ (headerBytes r ++ rest)) (pre.length + 4) = r.width :=
    (rd16be_append_right pre _ 4).trans (BigEndian.word16_bytes16 r.width)
  have hh : rd16be (pre ++ (headerBytes r ++ rest)) (pre.length + 6) = r.height :=
    (rd16be_append_right pre _ 6).trans (BigEndian.word16_bytes16 r.height)
  have he : rd32be (pre ++ (headerBytes r ++ rest)) (pre.length + 8) = r.encoding.toUInt32 :=
    (rd32be_append_right pre _ 8).trans (BigEndian.word32_bytes32 r.encoding.toUInt32)
  rw [rectangleAt, hx, hy, hw, hh, he]
  rfl

theorem headerBytes_injective {r s : Rectangle} (h : headerBytes r = headerBytes s) : r = s := by
  have hr := rectangleAt_headerBytes [] [] r
  rw [h] at hr
  exact hr.symm.trans (rectangleAt_headerBytes [] [] s)

theorem headerBytes_rectangleAt {b : QByteArray} {off : Nat} (h : off + 12 ≤ b.length) :
    headerBytes (rectangleAt b off) = (b.drop off).take 12 := by
  have h2 : ((off : Int) + 2) = (off + 2 : Nat) := rfl
  have h4 : ((off : Int) + 4) = (off + 4 : Nat) := rfl
  have h6 : ((off : Int) + 6) = (off + 6 : Nat) := rfl
  have h8 : ((off : Int) + 8) = (off + 8 : Nat) := rfl
  have hencoding (v : UInt32) : v.toInt32.toUInt32 = v := rfl
  have hcut : (b.drop off).take 12 = (b.drop off).take 2 ++ (b.drop (off + 2)).take 2 ++
      (b.drop (off + 4)).take 2 ++ (b.drop (off + 6)).take 2 ++ (b.drop (off + 8)).take 4 := by
    have htake (l : QByteArray) : l.take 12 = l.take (2 + (2 + (2 + (2 + 4)))) := rfl
    rw [htake, List.take_add, List.take_add, List.take_add, List.take_add]
    simp only [List.drop_drop, List.append_assoc, Nat.add_assoc, Nat.reduceAdd]
  simp only [headerBytes, rectangleAt, h2, h4, h6, h8, hencoding]
  rw [hcut, bytes16_rd16be (by omega), bytes16_rd16be (by omega), bytes16_rd16be (by omega),
    bytes16_rd16be (by omega), bytes32_rd32be (by omega)]

theorem parseRects_eq {b : QByteArray} {n : Nat} (off : Nat) (h : off + 12 * n ≤ b.length) :
    parseRects b n off = some ((List.range n).map fun i => rectangleAt b (off + 12 * i : Nat)) := by
  induction n generalizing off with
  | zero => rfl
  | succ n ih =>
    have hnext : ((off : Int) + 12) = (off + 12 : Nat) := rfl
    rw [parseRects, if_neg (by omega), hnext, ih (off + 12) (by omega), List.range_succ_eq_map]
    rw [Option.map_some, List.map_cons, List.map_map, Nat.mul_zero, Nat.add_zero]
    refine congrArg (fun rects => some (rectangleAt b off :: rects)) (List.map_congr_left ?_)
    intro i _
    have hi : off + 12 + 12 * i = off + 12 * (i + 1) := by omega
    rw [Function.comp_apply, hi]

theorem length_bytes_ge (rects : List EncodedRect) :
    12 * rects.length ≤ (rects.flatMap EncodedRect.bytes).length := by
  induction rects with
  | nil => exact Nat.le_refl _
  | cons r rects ih =>
    rw [List.flatMap_cons, List.length_append, EncodedRect.bytes, List.length_append,
      length_headerBytes, List.length_cons]
    omega

theorem content_consumed (content : Content) (n : Nat) :
    (content.data n).complete = true ∧ (content.data n).consumed = n := by
  cases content <;> exact ⟨rfl, rfl⟩

end Rfb

namespace VncConnection

variable {z : Zlib} {zlib zlib' : RfbZlibStream z} {pre rest : QByteArray}

theorem decode_encoded (pre rest : QByteArray) (r : EncodedRect) (rects : List EncodedRect)
    (hz : Inflates zlib (r :: rects) zlib')
    (harea : r.width.toNat * r.height.toNat < 2 ^ 31)
    (hsize : pre.length + r.payload.length < 2 ^ 31) :
    ∃ next, decode zlib r.header (pre ++ r.payload ++ rest) pre.length = (r.data, next) ∧
      Inflates next rects zlib' := by
  obtain ⟨x, y, width, height, body⟩ := r
  cases body with
  | plain encoding bytes content encodes =>
    have hzrle : encoding ≠ EncZRLE := by cases encodes <;> decide
    have hdecode := decodeRect_encoding (r := ⟨x, y, width, height, encoding⟩) pre rest encodes
      harea hsize
    refine ⟨zlib, ?_, hz⟩
    rw [decode_plain hzrle]
    exact Prod.ext hdecode rfl
  | zrle picture tiles compressed encodes short =>
    obtain ⟨next, hinflate, hok, hnext⟩ := hz
    refine ⟨next, ?_, hnext⟩
    rw [decode_zrle rfl]
    have hlength : (BigEndian.bytes32 (.ofNat compressed.length) ++ compressed).length =
        4 + compressed.length := by
      rw [List.length_append, BigEndian.length_bytes32]
    have hdecode := decodeZRLERect_tiles (r := ⟨x, y, width, height, EncZRLE⟩) pre rest
      encodes hinflate hok harea (hlength ▸ hsize)
    rw [← hlength] at hdecode
    exact hdecode

theorem decodeRects_encoded (pre rest : QByteArray) (rects : List EncodedRect)
    (hz : Inflates zlib rects zlib')
    (harea : ∀ r ∈ rects, r.width.toNat * r.height.toNat < 2 ^ 31)
    (hsize : pre.length + (rects.flatMap EncodedRect.bytes).length < 2 ^ 31) :
    decodeRects (pre ++ rects.flatMap EncodedRect.bytes ++ rest) (rects.map EncodedRect.header)
        pre.length zlib =
      ⟨rects.map fun r => (r.header, r.data),
        (pre ++ rects.flatMap EncodedRect.bytes).length, zlib', true⟩ := by
  induction rects generalizing zlib pre with
  | nil =>
    rw [List.flatMap_nil, List.append_nil]
    exact congrArg (fun zlib => (⟨[], pre.length, zlib, true⟩ : Update z)) hz
  | cons r rects ih =>
    rw [List.flatMap_cons, List.length_append, EncodedRect.bytes, List.length_append,
      length_headerBytes] at hsize
    have hskip : int32 ((pre.length : Int) + 12) = (pre ++ headerBytes r.header).length := by
      rw [List.length_append, length_headerBytes, int32_eq] <;> omega
    have hend : int32 (((pre ++ headerBytes r.header).length : Int) + r.payload.length) =
        (pre ++ headerBytes r.header ++ r.payload).length := by
      simp only [List.length_append, length_headerBytes]
      rw [int32_eq] <;> omega
    obtain ⟨next, hdecode, hnext⟩ := decode_encoded (pre ++ headerBytes r.header)
      (rects.flatMap EncodedRect.bytes ++ rest) r rects hz (harea r List.mem_cons_self)
      (by rw [List.length_append, length_headerBytes]; omega)
    have hrest := ih (pre ++ headerBytes r.header ++ r.payload) hnext
      (fun s hs => harea s (List.mem_cons_of_mem _ hs))
      (by simp only [List.length_append, length_headerBytes]; omega)
    have hbuf : pre ++ (r :: rects).flatMap EncodedRect.bytes ++ rest =
        pre ++ headerBytes r.header ++ r.payload ++ (rects.flatMap EncodedRect.bytes ++ rest) := by
      simp only [List.flatMap_cons, EncodedRect.bytes, List.append_assoc]
    obtain ⟨hcomplete, hconsumed⟩ : r.data.complete = true ∧ r.data.consumed = r.payload.length :=
      content_consumed r.content r.payload.length
    rw [hbuf, List.map_cons, decodeRects, hskip]
    simp only [hdecode, hcomplete, hconsumed, hend, Bool.not_true, Bool.false_eq_true, if_false]
    rw [List.append_assoc] at hrest
    rw [← List.append_assoc, List.append_assoc (pre ++ headerBytes r.header ++ r.payload), hrest]
    simp only [List.map_cons, List.flatMap_cons, EncodedRect.bytes, List.append_assoc]

section Update

variable {c : VncConnection z} {u : FramebufferUpdate}

theorem update_headers (hbuf : c.buf = u.bytes ++ rest) :
    c.update = some ((List.range u.rects.length).map fun i =>
      rectangleAt c.buf (4 + 12 * i : Nat)) := by
  have hcount : (UInt16.ofNat u.rects.length).toNat = u.rects.length := by
    rw [UInt16.toNat_ofNat', Nat.mod_eq_of_lt u.short]
  have hlength := length_bytes_ge u.rects
  have hread : rd16be c.buf 2 = .ofNat u.rects.length := by
    rw [hbuf, FramebufferUpdate.bytes, List.append_assoc, List.append_assoc]
    exact (rd16be_append_right [0, u.pad] _ 0).trans (BigEndian.word16_bytes16 _)
  have hsize : 4 + 12 * u.rects.length ≤ c.buf.length := by
    rw [hbuf, FramebufferUpdate.bytes]
    simp only [List.length_append, BigEndian.length_bytes16, List.length_cons, List.length_nil]
    omega
  have hfirst : byteAt c.buf 0 = 0 := by
    rw [hbuf]
    rfl
  have hsome : c.buf ≠ [] := List.ne_nil_of_length_pos (by omega)
  rw [update, if_neg (not_or.mpr ⟨hsome, not_not.mpr hfirst⟩), parseFramebufferUpdate,
    if_neg (not_or.mpr ⟨by omega, not_not.mpr hfirst⟩), hread, hcount]
  exact parseRects_eq 4 hsize

theorem headers_iff (hbuf : c.buf = u.bytes ++ rest) :
    c.update = some (u.rects.map EncodedRect.header) ↔ u.HeadersTogether := by
  have hlength := length_bytes_ge u.rects
  have hsize : 4 + 12 * u.rects.length ≤ u.bytes.length := by
    rw [FramebufferUpdate.bytes]
    simp only [List.length_append, BigEndian.length_bytes16, List.length_cons, List.length_nil]
    omega
  have hat (i : Nat) (hi : i < u.rects.length) :
      headerBytes (rectangleAt c.buf (4 + 12 * i : Nat)) = (u.bytes.drop (4 + 12 * i)).take 12 := by
    rw [headerBytes_rectangleAt (by rw [hbuf, List.length_append]; omega), hbuf,
      List.drop_append_of_le_length (by omega), List.take_append_of_le_length]
    rw [List.length_drop]
    omega
  rw [update_headers hbuf, Option.some.injEq]
  constructor
  · intro heq i hi
    have hi' := congrArg (·[i]?) heq
    simp only [List.getElem?_map, List.getElem?_range hi, List.getElem?_eq_getElem hi,
      Option.map_some, Option.some.injEq] at hi'
    rw [← hat i hi, hi']
  · intro htogether
    apply List.ext_getElem
    · simp
    · intro i hi _
      have hi : i < u.rects.length := by simpa using hi
      simp only [List.getElem_map, List.getElem_range]
      exact headerBytes_injective ((hat i hi).trans (htogether i hi))

theorem decodeRects_together (hbuf : c.buf = u.bytes ++ rest) (hfits : u.Fits)
    (hz : Inflates c.zlib u.rects zlib') :
    decodeRects c.buf (u.rects.map EncodedRect.header) 4 c.zlib =
      ⟨u.decoded, u.bytes.length, zlib', true⟩ := by
  have hsplit : u.bytes = [0, u.pad] ++ BigEndian.bytes16 (.ofNat u.rects.length) ++
      u.rects.flatMap EncodedRect.bytes := rfl
  have hsize := hfits.1
  rw [hsplit, List.length_append] at hsize
  have hdecoded := decodeRects_encoded ([0, u.pad] ++ BigEndian.bytes16 (.ofNat u.rects.length))
    rest u.rects hz hfits.2 (by exact_mod_cast hsize)
  rw [← hsplit, ← hbuf] at hdecoded
  exact hdecoded

theorem readUpdate_together (hbuf : c.buf = u.bytes ++ rest) (hfits : u.Fits)
    (hz : Inflates c.zlib u.rects zlib') (htogether : u.HeadersTogether) :
    c.readUpdate = .go { c with buf := rest, zlib := zlib' } (u.decoded.map signal) := by
  have hremove : removeFront c.buf u.bytes.length = rest := by
    rw [hbuf, removeFront_append_left]
  rw [readUpdate_eq, (headers_iff hbuf).mpr htogether]
  simp only [decodeRects_together hbuf hfits hz, hremove]
  rfl

end Update

theorem update_decoded_iff (c : VncConnection z) (hphase : c.phase = .running)
    (u : FramebufferUpdate) (rest : QByteArray) (hbuf : c.buf = u.bytes ++ rest) (hfits : u.Fits)
    (zlib' : RfbZlibStream z) (hz : Inflates c.zlib u.rects zlib') :
    (c.update = some (u.rects.map EncodedRect.header) ∧
      c.turn = .go { c with buf := rest, zlib := zlib' } (u.decoded.map signal)) ↔
      u.HeadersTogether := by
  constructor
  · rintro ⟨hupdate, -⟩
    exact (headers_iff hbuf).mp hupdate
  · intro htogether
    refine ⟨(headers_iff hbuf).mpr htogether, ?_⟩
    rw [turn_running hphase]
    exact readUpdate_together hbuf hfits hz htogether

def onePixelUpdate : FramebufferUpdate :=
  ⟨0, [⟨0, 0, 1, 1, .plain EncRaw _ _ (.raw [⟨1, 2, 3, 0⟩] rfl)⟩], by decide⟩

theorem onePixelUpdate_decoded :
    ((running onePixel).update = some (onePixelUpdate.rects.map EncodedRect.header) ∧
      (running onePixel).turn = .go { running onePixel with buf := [], zlib := .init }
        (onePixelUpdate.decoded.map signal)) ↔ onePixelUpdate.HeadersTogether :=
  update_decoded_iff (running onePixel) rfl onePixelUpdate [] rfl ⟨by decide, by decide⟩ .init rfl

def twoPixelsUpdate : FramebufferUpdate :=
  ⟨0, [⟨0, 0, 1, 1, .plain EncRaw _ _ (.raw [⟨1, 2, 3, 0⟩] rfl)⟩,
    ⟨1, 0, 1, 1, .plain EncRaw _ _ (.raw [⟨4, 5, 6, 0⟩] rfl)⟩], by decide⟩

theorem twoPixels_not_decoded :
    twoPixelsUpdate.bytes = twoPixels ∧
    twoPixelsUpdate.decoded.map signal =
      [.rectDecoded 0 0 1 1 [0xFF030201], .rectDecoded 1 0 1 1 [0xFF060504]] ∧
    ((running []).onReadyRead twoPixels).map (fun r => (r.1.buf, r.2)) =
      some (twoPixels, [.rectDecoded 0 0 1 1 [0xFF030201]]) := by
  refine ⟨by decide, by decide, by decide +kernel⟩

end VncConnection

end Connect
