import MacXterm.Connect.VncConnection

namespace Connect

open Qt Rfb

namespace Rfb

-- The length in bytes that the payload at off has by its header, where the header and the size
-- field at off say so.
def announced (r : Rectangle) (buf : QByteArray) (off : Int) : Option Nat :=
  if r.encoding = EncRaw then some (r.width.toNat * r.height.toNat * 4)
  else if r.encoding = EncRRE then
    if buf.length < off + 8 then none else some (8 + (rd32be buf off).toNat * 12)
  else if r.encoding = EncZRLE then
    if buf.length < off + 4 then none else some (4 + (rd32be buf off).toNat)
  else none

def NoArea (r : Rectangle) : Prop := r.width.toNat = 0 ∨ r.height.toNat = 0

-- Taken as an int the announced length is not negative and the payload ends below 2 ^ 31, or it is
-- negative and the payload nevertheless seems to end behind the buffer; and an empty Hextile
-- rectangle starts within the buffer.
def CallFits (r : Rectangle) (buf : QByteArray) (off : Int) : Prop :=
  (∀ n, announced r buf off = some n →
    0 ≤ int32 n ∧ off + int32 n < 2 ^ 31 ∨ int32 n < 0 ∧ buf.length < off + int32 n) ∧
  (r.encoding = EncHextile → NoArea r → off ≤ buf.length)

def CallExact (r : Rectangle) (buf : QByteArray) (off : Int) : Prop :=
  (∀ n, announced r buf off = some n → off + n < 2 ^ 31) ∧
  (r.encoding = EncHextile → NoArea r → off ≤ buf.length)

-- So far below 2 ^ 31 that every offset formed while reading within the array is an int.
def Addressable (buf : QByteArray) : Prop := (buf.length : Int) + 2048 ≤ 2 ^ 31

def InBounds (d : RectData) (buf : QByteArray) (off : Int) : Prop :=
  d.complete = true → off ≤ int32 (off + d.consumed) ∧ int32 (off + d.consumed) ≤ buf.length

theorem CallExact.fits {r : Rectangle} {buf : QByteArray} {off : Int} (hoff : 0 ≤ off)
    (h : CallExact r buf off) : CallFits r buf off := by
  refine ⟨?_, h.2⟩
  intro n hn
  have hlt := h.1 n hn
  rw [int32_eq (by omega) (by omega)]
  omega

theorem decodeRaw_eq (r : Rectangle) (buf : QByteArray) (off : Int) :
    decodeRaw r buf off 4 =
      if buf.length < int32 (off + (r.width.toNat * r.height.toNat * 4 : Nat)) then .waiting
      else .drawn (int32 (r.width.toNat * r.height.toNat * 4 : Nat))
        (decodeRawRect r (mid buf off (int32 (r.width.toNat * r.height.toNat * 4 : Nat))) 4) := by
  have hneed : int32 (int32 (r.width.toNat * r.height.toNat) * (4 : Nat)) =
      int32 (r.width.toNat * r.height.toNat * 4 : Nat) := by
    rw [int32_int32_mul]
    push_cast
    rfl
  simp only [decodeRaw, hneed, int32_add_int32]

section Pixels

variable {w h bpp : Nat}

theorem exact_byte : Parser.Exact byte := (Parser.exact_take 1).bind fun _ => Parser.exact_pure _

theorem exact_pixel : Parser.Exact (pixel bpp) :=
  (Parser.exact_take bpp).bind fun _ => Parser.exact_pure _

theorem exact_hextileSubrect (tx ty : Nat) (coloured : Bool) (fg : UInt32)
    (pixels : List UInt32) :
    Parser.Exact (hextileSubrect w h bpp tx ty coloured fg pixels) := by
  apply (Parser.exact_when exact_pixel coloured fg).bind
  intro c
  exact (Parser.exact_take 2).bind fun _ => Parser.exact_pure _

theorem exact_hextileTile (s : HextileState) (origin : Nat × Nat) :
    Parser.Exact (hextileTile w h bpp s origin) := by
  apply exact_byte.bind
  intro sub
  apply Parser.exact_ite
  · exact (Parser.exact_take _).bind fun _ => Parser.exact_pure _
  · apply (Parser.exact_when exact_pixel _ _).bind
    intro bg
    apply (Parser.exact_when exact_pixel _ _).bind
    intro fg
    apply Parser.exact_ite
    · apply exact_byte.bind
      intro ns
      apply Parser.Exact.bind
      · exact Parser.exact_foldlM (fun _ _ => exact_hextileSubrect _ _ _ _ _) _ _
      · intro pixels
        exact Parser.exact_pure _
    · exact Parser.exact_pure _

theorem exact_hextile (n : Nat) : Parser.Exact (hextile w h bpp n) :=
  Parser.exact_foldlM exact_hextileTile _ _

end Pixels

theorem origins_pos {extent step : Nat} (hstep : 0 < step) (hextent : 0 < extent) :
    ∃ rest, origins extent step = 0 :: rest := by
  have hcount : 0 < (extent + step - 1) / step := Nat.div_pos (by omega) hstep
  obtain ⟨k, hk⟩ := Nat.exists_eq_succ_of_ne_zero (Nat.ne_of_gt hcount)
  rw [origins, hk, List.range_succ_eq_map]
  exact ⟨_, by rw [List.map_cons, Nat.zero_mul]⟩

theorem tileOrigins_empty {w h step : Nat} (hstep : 0 < step) (harea : w = 0 ∨ h = 0) :
    tileOrigins w h step = [] := by
  have hnone : origins 0 step = [] := by
    rw [origins, Nat.zero_add, Nat.div_eq_of_lt (by omega)]
    rfl
  rcases harea with rfl | rfl
  · simp [tileOrigins, hnone]
  · simp [tileOrigins, hnone]

theorem window_eq {buf : QByteArray} {off : Int} (hoff : 0 ≤ off) :
    window buf off = buf.drop off.toNat := if_pos hoff

theorem hextile_nil {w h n : Nat} (hw : 0 < w) (hh : 0 < h) : hextile w h 4 n [] = none := by
  obtain ⟨xs, hx⟩ := origins_pos (by decide : 0 < 16) hw
  obtain ⟨ys, hy⟩ := origins_pos (by decide : 0 < 16) hh
  rw [hextile, tileOrigins, hx, hy, List.flatMap_cons, List.map_cons, List.cons_append,
    List.foldlM_cons]
  rfl

theorem inBounds_waiting (buf : QByteArray) (off : Int) : InBounds .waiting buf off := by
  intro h
  exact absurd h (by decide)

section Calls

variable {r : Rectangle} {buf : QByteArray} {off : Int}

theorem inBounds_announced {n : Nat} {pixels : List UInt32} (ha : Addressable buf)
    (hoff : 0 ≤ off) (hend : off ≤ buf.length + 12) :
    InBounds (if buf.length < int32 (off + n) then .waiting else .drawn (int32 n) pixels) buf off ↔
      (0 ≤ int32 n ∧ off + int32 n < 2 ^ 31 ∨ int32 n < 0 ∧ buf.length < off + int32 n) := by
  unfold Addressable at ha
  have hlt := int32_lt n
  have hge := le_int32 n
  have hcases := int32_cases (x := off + int32 n) (by omega) (by omega)
  rw [← int32_add_int32]
  split
  · rename_i hwait
    refine ⟨fun _ => by omega, fun _ => inBounds_waiting buf off⟩
  · rename_i hwait
    constructor
    · intro h
      have hbounds := h rfl
      simp only [RectData.drawn] at hbounds
      omega
    · intro h _
      simp only [RectData.drawn]
      omega

def rrePixels (r : Rectangle) (buf : QByteArray) (off : Int) : List UInt32 :=
  (List.range (rd32be buf off).toNat).foldl
    (fun pixels (s : Nat) => subrectangle r.width.toNat r.height.toNat buf 4 pixels
      (int32 (off + 4 + (4 : Nat) + s * (4 + 8 : Nat))))
    (List.replicate (int32 (r.width.toNat * r.height.toNat)).toNat (readPixel buf (off + 4) 4))

theorem decodeRRE_eq (hoff : 0 ≤ off) (hlow : off + 8 < 2 ^ 31)
    (hsize : ¬ (buf.length : Int) < off + 8) :
    decodeRRE r buf off 4 =
      if buf.length < int32 (off + (8 + (rd32be buf off).toNat * 12 : Nat)) then .waiting
      else .drawn (int32 (8 + (rd32be buf off).toNat * 12 : Nat)) (rrePixels r buf off) := by
  have hguard : int32 (off + 4 + (4 : Nat)) = off + 8 := by
    rw [int32_eq] <;> omega
  have hneed : int32 (4 + (4 : Nat) + int32 (rd32be buf off).toNat * ((4 + 8 : Nat) : Int)) =
      int32 (8 + (rd32be buf off).toNat * 12 : Nat) := by
    rw [← int32_add_int32, int32_int32_mul, int32_add_int32]
    congr 1
  simp only [decodeRRE, hguard, if_neg hsize, hneed, int32_add_int32, rrePixels]

theorem decodeRRE_short (hoff : 0 ≤ off) (hlow : off + 8 < 2 ^ 31)
    (hsize : (buf.length : Int) < off + 8) : decodeRRE r buf off 4 = .waiting := by
  have hguard : int32 (off + 4 + (4 : Nat)) = off + 8 := by
    rw [int32_eq] <;> omega
  simp only [decodeRRE, hguard, if_pos hsize]

theorem decodeHextile_inBounds (ha : Addressable buf) (hoff : 0 ≤ off)
    (hend : off ≤ buf.length + 12) :
    InBounds (decodeHextile r buf off 4) buf off ↔ (NoArea r → off ≤ buf.length) := by
  unfold Addressable at ha
  simp only [decodeHextile, window_eq hoff]
  by_cases hle : off ≤ buf.length
  · refine ⟨fun _ _ => hle, fun _ => ?_⟩
    split
    · exact inBounds_waiting buf off
    · rename_i s rest hparse
      have hlength := (exact_hextile _).length_le hparse
      rw [List.length_drop] at hlength ⊢
      intro _
      simp only [RectData.drawn]
      rw [int32_eq] <;> omega
  · have hnil : buf.drop off.toNat = [] := List.drop_of_length_le (by omega)
    rw [hnil]
    by_cases harea : NoArea r
    · rw [hextile, tileOrigins_empty (by decide) harea]
      refine ⟨fun h => ?_, fun h => absurd (h harea) hle⟩
      have hbounds := h rfl
      simp only [RectData.drawn, List.length_nil] at hbounds
      rw [int32_eq] at hbounds <;> omega
    · unfold NoArea at harea
      rw [hextile_nil (by omega) (by omega)]
      exact ⟨fun _ h => absurd h harea, fun _ => inBounds_waiting buf off⟩

end Calls

end Rfb

namespace VncConnection

variable {z : Zlib} {zlib : RfbZlibStream z} {r : Rectangle} {buf : QByteArray} {off : Int}

def zrleData (zlib : RfbZlibStream z) (r : Rectangle) (payload : QByteArray) :
    List UInt32 × RfbZlibStream z :=
  let (zlib, tiles) := zlib.inflate payload
  (if zlib.failed then []
    else zrlePixels r.width.toNat r.height.toNat
      (int32 (r.width.toNat * r.height.toNat)).toNat tiles, zlib)

theorem decodeZRLERect_eq (hoff : 0 ≤ off) (hlow : off + 4 < 2 ^ 31)
    (hsize : ¬ (buf.length : Int) < off + 4) :
    decodeZRLERect zlib r buf off =
      if buf.length < int32 (off + (4 + (rd32be buf off).toNat : Nat)) then (.waiting, zlib)
      else
        let data := zrleData zlib r (mid buf (off + 4) (int32 (rd32be buf off).toNat))
        (.drawn (int32 (4 + (rd32be buf off).toNat : Nat)) data.1, data.2) := by
  have hguard : int32 (off + 4) = off + 4 := by
    rw [int32_eq] <;> omega
  have hneed : int32 (off + 4 + int32 (rd32be buf off).toNat) =
      int32 (off + (4 + (rd32be buf off).toNat : Nat)) := by
    rw [int32_add_int32]
    congr 1
    omega
  have hconsumed : int32 (4 + int32 (rd32be buf off).toNat) =
      int32 (4 + (rd32be buf off).toNat : Nat) := by
    rw [int32_add_int32]
    congr 1
  simp only [decodeZRLERect, hguard, if_neg hsize, hneed, hconsumed, zrleData]
  split
  · rfl
  · split
    · rfl
    · rfl

theorem decodeZRLERect_short (hoff : 0 ≤ off) (hlow : off + 4 < 2 ^ 31)
    (hsize : (buf.length : Int) < off + 4) :
    decodeZRLERect zlib r buf off = (.waiting, zlib) := by
  have hguard : int32 (off + 4) = off + 4 := by
    rw [int32_eq] <;> omega
  simp only [decodeZRLERect, hguard, if_pos hsize]

section Encodings

theorem decode_zrle (h : r.encoding = EncZRLE) :
    decode zlib r buf off = decodeZRLERect zlib r buf off := if_pos h

theorem decode_plain (h : r.encoding ≠ EncZRLE) :
    decode zlib r buf off = (decodeRect r buf off 4, zlib) := if_neg h

theorem decodeRect_raw (h : r.encoding = EncRaw) :
    decodeRect r buf off 4 = decodeRaw r buf off 4 := if_pos h

theorem decodeRect_copyRect (h : r.encoding = EncCopyRect) :
    decodeRect r buf off 4 = decodeCopyRect buf off := by
  have hraw : r.encoding ≠ EncRaw := by rw [h]; decide
  rw [decodeRect, if_neg hraw, if_pos h]

theorem decodeRect_rre (h : r.encoding = EncRRE) :
    decodeRect r buf off 4 = decodeRRE r buf off 4 := by
  have hraw : r.encoding ≠ EncRaw := by rw [h]; decide
  have hcopy : r.encoding ≠ EncCopyRect := by rw [h]; decide
  rw [decodeRect, if_neg hraw, if_neg hcopy, if_pos h]

theorem decodeRect_hextile (h : r.encoding = EncHextile) :
    decodeRect r buf off 4 = decodeHextile r buf off 4 := by
  have hraw : r.encoding ≠ EncRaw := by rw [h]; decide
  have hcopy : r.encoding ≠ EncCopyRect := by rw [h]; decide
  have hrre : r.encoding ≠ EncRRE := by rw [h]; decide
  rw [decodeRect, if_neg hraw, if_neg hcopy, if_neg hrre, if_pos h]

theorem announced_raw (h : r.encoding = EncRaw) :
    announced r buf off = some (r.width.toNat * r.height.toNat * 4) := if_pos h

theorem announced_rre (h : r.encoding = EncRRE) :
    announced r buf off =
      if buf.length < off + 8 then none else some (8 + (rd32be buf off).toNat * 12) := by
  have hraw : r.encoding ≠ EncRaw := by rw [h]; decide
  rw [announced, if_neg hraw, if_pos h]

theorem announced_zrle (h : r.encoding = EncZRLE) :
    announced r buf off =
      if buf.length < off + 4 then none else some (4 + (rd32be buf off).toNat) := by
  have hraw : r.encoding ≠ EncRaw := by rw [h]; decide
  have hrre : r.encoding ≠ EncRRE := by rw [h]; decide
  rw [announced, if_neg hraw, if_neg hrre, if_pos h]

theorem announced_none (hraw : r.encoding ≠ EncRaw) (hrre : r.encoding ≠ EncRRE)
    (hzrle : r.encoding ≠ EncZRLE) : announced r buf off = none := by
  simp only [announced, if_neg hraw, if_neg hrre, if_neg hzrle]

theorem callFits_announced {n : Nat} (hn : announced r buf off = some n)
    (hhextile : r.encoding ≠ EncHextile) :
    CallFits r buf off ↔
      (0 ≤ int32 n ∧ off + int32 n < 2 ^ 31 ∨ int32 n < 0 ∧ buf.length < off + int32 n) := by
  unfold CallFits
  rw [hn]
  constructor
  · intro h
    exact h.1 n rfl
  · intro h
    refine ⟨?_, fun heq => absurd heq hhextile⟩
    rintro m hm
    obtain rfl : n = m := by simpa using hm
    exact h

theorem callFits_none (hn : announced r buf off = none) (hhextile : r.encoding ≠ EncHextile) :
    CallFits r buf off := by
  refine ⟨?_, fun heq => absurd heq hhextile⟩
  intro m hm
  rw [hn] at hm
  simp at hm

end Encodings

-- What the decompressor returns decides the pixels, never where the rectangle ends.
theorem decode_extent (zlib zlib' : RfbZlibStream z) (r : Rectangle) (buf : QByteArray)
    (off : Int) :
    (decode zlib r buf off).1.complete = (decode zlib' r buf off).1.complete ∧
      (decode zlib r buf off).1.consumed = (decode zlib' r buf off).1.consumed := by
  unfold decode decodeZRLERect
  split
  · simp only
    split
    · exact ⟨rfl, rfl⟩
    · split
      · exact ⟨rfl, rfl⟩
      · split
        · split
          · exact ⟨rfl, rfl⟩
          · exact ⟨rfl, rfl⟩
        · split
          · exact ⟨rfl, rfl⟩
          · exact ⟨rfl, rfl⟩
  · exact ⟨rfl, rfl⟩

theorem zrle_inBounds_iff (zlib : RfbZlibStream z) (ha : Addressable buf) (hoff : 0 ≤ off)
    (hend : off ≤ buf.length + 12) (hzrle : r.encoding = EncZRLE) :
    InBounds (decode zlib r buf off).1 buf off ↔ CallFits r buf off := by
  have hbound := ha
  unfold Addressable at hbound
  have hhextile : r.encoding ≠ EncHextile := by
    rw [hzrle]
    decide
  have hannounced : announced r buf off = _ := announced_zrle hzrle
  rw [decode_zrle hzrle]
  by_cases hsize : (buf.length : Int) < off + 4
  · rw [if_pos hsize] at hannounced
    rw [decodeZRLERect_short hoff (by omega) hsize]
    exact iff_of_true (inBounds_waiting buf off) (callFits_none hannounced hhextile)
  · rw [if_neg hsize] at hannounced
    rw [decodeZRLERect_eq hoff (by omega) hsize, apply_ite Prod.fst,
      inBounds_announced ha hoff hend, callFits_announced hannounced hhextile]

theorem raw_inBounds_iff (ha : Addressable buf) (hoff : 0 ≤ off) (hend : off ≤ buf.length + 12)
    (hraw : r.encoding = EncRaw) :
    InBounds (decodeRect r buf off 4) buf off ↔ CallFits r buf off := by
  have hhextile : r.encoding ≠ EncHextile := by
    rw [hraw]
    decide
  rw [decodeRect_raw hraw, decodeRaw_eq, inBounds_announced ha hoff hend,
    callFits_announced (announced_raw hraw) hhextile]

theorem rre_inBounds_iff (ha : Addressable buf) (hoff : 0 ≤ off) (hend : off ≤ buf.length + 12)
    (hrre : r.encoding = EncRRE) :
    InBounds (decodeRect r buf off 4) buf off ↔ CallFits r buf off := by
  have hbound := ha
  unfold Addressable at hbound
  have hhextile : r.encoding ≠ EncHextile := by
    rw [hrre]
    decide
  have hannounced : announced r buf off = _ := announced_rre hrre
  rw [decodeRect_rre hrre]
  by_cases hsize : (buf.length : Int) < off + 8
  · rw [if_pos hsize] at hannounced
    rw [decodeRRE_short hoff (by omega) hsize]
    exact iff_of_true (inBounds_waiting buf off) (callFits_none hannounced hhextile)
  · rw [if_neg hsize] at hannounced
    rw [decodeRRE_eq hoff (by omega) hsize, inBounds_announced ha hoff hend,
      callFits_announced hannounced hhextile]

theorem inBounds_iff (zlib : RfbZlibStream z) (ha : Addressable buf) (hoff : 0 ≤ off)
    (hend : off ≤ buf.length + 12) :
    InBounds (decode zlib r buf off).1 buf off ↔ CallFits r buf off := by
  have hbound := ha
  unfold Addressable at hbound
  by_cases hzrle : r.encoding = EncZRLE
  · exact zrle_inBounds_iff zlib ha hoff hend hzrle
  rw [decode_plain hzrle]
  by_cases hraw : r.encoding = EncRaw
  · exact raw_inBounds_iff ha hoff hend hraw
  by_cases hrre : r.encoding = EncRRE
  · exact rre_inBounds_iff ha hoff hend hrre
  have hannounced : announced r buf off = none := announced_none hraw hrre hzrle
  by_cases hhextile : r.encoding = EncHextile
  · rw [decodeRect_hextile hhextile, decodeHextile_inBounds ha hoff hend]
    unfold CallFits
    rw [hannounced]
    simp [hhextile]
  have hfits := callFits_none hannounced hhextile
  by_cases hcopy : r.encoding = EncCopyRect
  · rw [decodeRect_copyRect hcopy]
    have hguard : int32 (off + 4) = off + 4 := by
      rw [int32_eq] <;> omega
    refine iff_of_true ?_ hfits
    simp only [decodeCopyRect, hguard]
    split
    · exact inBounds_waiting buf off
    · intro _
      simp only [RectData.copied, hguard]
      omega
  · have hwait : decodeRect r buf off 4 = .waiting := by
      simp only [decodeRect, if_neg hraw, if_neg hcopy, if_neg hrre, if_neg hhextile]
    rw [hwait]
    exact iff_of_true (inBounds_waiting buf off) hfits

end VncConnection

end Connect
