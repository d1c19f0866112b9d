import MacXterm.Connect.Progress

namespace Connect

open Qt Rfb

namespace Rfb

theorem readPixel_append {buf : QByteArray} {p : Int} (h : p + 4 ≤ buf.length)
    (more : QByteArray) : readPixel (buf ++ more) p 4 = readPixel buf p 4 := by
  unfold readPixel
  rw [byteAt_append_left (by omega), byteAt_append_left (by omega), byteAt_append_left (by omega)]

theorem subrectangle_append {buf : QByteArray} {p : Int} (h : p + 12 ≤ buf.length) (w h' : Nat)
    (pixels : List UInt32) (more : QByteArray) :
    subrectangle w h' (buf ++ more) 4 pixels p = subrectangle w h' buf 4 pixels p := by
  unfold subrectangle
  have hsize : ((4 : Nat) : Int) = 4 := rfl
  rw [readPixel_append (by omega), hsize, rd16be_append_left (by omega),
    rd16be_append_left (by omega), rd16be_append_left (by omega), rd16be_append_left (by omega)]

theorem rectangleAt_append {buf : QByteArray} {off : Int} (h : off + 12 ≤ buf.length)
    (more : QByteArray) : rectangleAt (buf ++ more) off = rectangleAt buf off := by
  unfold rectangleAt
  rw [rd16be_append_left (by omega), rd16be_append_left (by omega), rd16be_append_left (by omega),
    rd16be_append_left (by omega), rd32be_append_left (by omega)]

theorem parseRects_append {buf : QByteArray} {n : Nat} {off : Int} {rects : List Rectangle}
    (h : parseRects buf n off = some rects) (more : QByteArray) :
    parseRects (buf ++ more) n off = some rects := by
  induction n generalizing off rects with
  | zero => exact h
  | succ n ih =>
    unfold parseRects at h ⊢
    rw [List.length_append]
    split at h
    · simp at h
    · obtain ⟨rest, hrest, rfl⟩ := Option.map_eq_some_iff.mp h
      rw [if_neg (by omega), ih hrest, rectangleAt_append (by omega)]
      rfl

theorem parseFramebufferUpdate_append {buf : QByteArray} {rects : List Rectangle}
    (h : parseFramebufferUpdate buf = some rects) (more : QByteArray) :
    parseFramebufferUpdate (buf ++ more) = some rects := by
  unfold parseFramebufferUpdate at h ⊢
  split at h
  · simp at h
  · rename_i hstart
    obtain ⟨hlength, hfirst⟩ := not_or.mp hstart
    have hnext : ¬ ((buf ++ more).length < 4 ∨ byteAt (buf ++ more) 0 ≠ 0) := by
      rw [byteAt_append_left (by omega), List.length_append]
      rintro (hshort | hne)
      · omega
      · exact hfirst hne
    rw [if_neg hnext, rd16be_append_left (by omega)]
    exact parseRects_append h more

section Calls

variable {r : Rectangle} {buf : QByteArray} {off : Int}

theorem decodeRaw_append (hoff : 0 ≤ off)
    (hexact : off + (r.width.toNat * r.height.toNat * 4 : Nat) < 2 ^ 31)
    (hc : (decodeRaw r buf off 4).complete = true) (more : QByteArray) :
    decodeRaw r (buf ++ more) off 4 = decodeRaw r buf off 4 := by
  have hend := int32_eq (x := off + (r.width.toNat * r.height.toNat * 4 : Nat)) (by omega) hexact
  have hneed := int32_eq (x := (r.width.toNat * r.height.toNat * 4 : Nat)) (by omega) (by omega)
  rw [decodeRaw_eq, hend, hneed] at hc ⊢
  rw [decodeRaw_eq, hend, hneed]
  split at hc
  · simp [RectData.waiting] at hc
  · rename_i hsize
    rw [if_neg hsize, if_neg (by rw [List.length_append]; omega),
      mid_append_left hoff (by omega) (by omega)]

theorem decodeCopyRect_append (hoff : 0 ≤ off) (hlow : off + 4 < 2 ^ 31)
    (hc : (decodeCopyRect buf off).complete = true) (more : QByteArray) :
    decodeCopyRect (buf ++ more) off = decodeCopyRect buf off := by
  have hguard : int32 (off + 4) = off + 4 := by
    rw [int32_eq] <;> omega
  unfold decodeCopyRect at hc ⊢
  rw [hguard] at hc ⊢
  split at hc
  · simp [RectData.waiting] at hc
  · rename_i hsize
    rw [if_neg hsize, if_neg (by rw [List.length_append]; omega), rd16be_append_left (by omega),
      rd16be_append_left (by omega)]

theorem rrePixels_append (hoff : 0 ≤ off)
    (hexact : off + (8 + (rd32be buf off).toNat * 12 : Nat) < 2 ^ 31)
    (hend : off + (8 + (rd32be buf off).toNat * 12 : Nat) ≤ buf.length) (more : QByteArray) :
    rrePixels r (buf ++ more) off = rrePixels r buf off := by
  unfold rrePixels
  rw [rd32be_append_left (by omega), readPixel_append (by omega)]
  apply List.foldl_ext
  intro pixels s hs
  have hs := List.mem_range.mp hs
  have hat : int32 (off + 4 + (4 : Nat) + s * (4 + 8 : Nat)) = off + 8 + s * 12 := by
    rw [int32_eq] <;> omega
  rw [hat, subrectangle_append (by omega)]

theorem decodeRRE_append (hoff : 0 ≤ off) (hlow : off + 8 < 2 ^ 31)
    (hexact : ∀ n, announced r buf off = some n → off + n < 2 ^ 31) (hr : r.encoding = EncRRE)
    (hc : (decodeRRE r buf off 4).complete = true) (more : QByteArray) :
    decodeRRE r (buf ++ more) off 4 = decodeRRE r buf off 4 := by
  by_cases hsize : (buf.length : Int) < off + 8
  · rw [decodeRRE_short hoff hlow hsize] at hc
    simp [RectData.waiting] at hc
  rw [VncConnection.announced_rre hr, if_neg hsize] at hexact
  have hlast := int32_eq (by omega) (hexact _ rfl)
  rw [decodeRRE_eq hoff hlow hsize, hlast] at hc
  split at hc
  · simp [RectData.waiting] at hc
  rename_i hall
  rw [decodeRRE_eq hoff hlow hsize, decodeRRE_eq hoff hlow (by rw [List.length_append]; omega),
    rd32be_append_left (by omega), hlast, if_neg hall, if_neg (by rw [List.length_append]; omega),
    rrePixels_append hoff (hexact _ rfl) (by omega)]

theorem window_append (hoff : 0 ≤ off) (hend : off ≤ buf.length) (more : QByteArray) :
    window (buf ++ more) off = window buf off ++ more := by
  rw [window_eq hoff, window_eq hoff, List.drop_append_of_le_length (by omega)]

theorem decodeHextile_append (hoff : 0 ≤ off) (hexact : NoArea r → off ≤ buf.length)
    (hc : (decodeHextile r buf off 4).complete = true) (more : QByteArray) :
    decodeHextile r (buf ++ more) off 4 = decodeHextile r buf off 4 := by
  unfold decodeHextile at hc ⊢
  simp only at hc ⊢
  by_cases hend : off ≤ buf.length
  · rw [window_append hoff hend]
    split at hc
    · simp [RectData.waiting] at hc
    · rename_i s rest hparse
      simp only [(exact_hextile _).extend hparse, List.length_append]
      rw [Nat.add_sub_add_right]
  · have harea : ¬ NoArea r := fun h => hend (hexact h)
    have hnil : window buf off = [] := by
      rw [window_eq hoff, List.drop_of_length_le (by omega)]
    unfold NoArea at harea
    rw [hnil, hextile_nil (by omega) (by omega)] at hc
    simp [RectData.waiting] at hc

end Calls

end Rfb

namespace VncConnection

variable {z : Zlib} {zlib : RfbZlibStream z} {r : Rectangle} {buf : QByteArray} {off : Int}

theorem decodeZRLERect_append (hoff : 0 ≤ off) (hlow : off + 4 < 2 ^ 31)
    (hexact : ∀ n, announced r buf off = some n → off + n < 2 ^ 31) (hr : r.encoding = EncZRLE)
    (hc : (decodeZRLERect zlib r buf off).1.complete = true) (more : QByteArray) :
    decodeZRLERect zlib r (buf ++ more) off = decodeZRLERect zlib r buf off := by
  by_cases hsize : (buf.length : Int) < off + 4
  · rw [decodeZRLERect_short hoff hlow hsize] at hc
    simp [RectData.waiting] at hc
  rw [announced_zrle hr, if_neg hsize] at hexact
  have hlast := int32_eq (by omega) (hexact _ rfl)
  have hlen := hexact _ rfl
  have hpayload : int32 (rd32be buf off).toNat = (rd32be buf off).toNat := by
    rw [int32_eq] <;> omega
  rw [decodeZRLERect_eq hoff hlow hsize, hlast] at hc
  split at hc
  · simp [RectData.waiting] at hc
  rename_i hall
  rw [decodeZRLERect_eq hoff hlow hsize,
    decodeZRLERect_eq hoff hlow (by rw [List.length_append]; omega),
    rd32be_append_left (by omega), hlast, if_neg hall, if_neg (by rw [List.length_append]; omega),
    hpayload, mid_append_left (by omega) (by omega) (by omega)]

theorem decode_append (ha : Addressable buf) (hoff : 0 ≤ off) (hend : off ≤ buf.length + 12)
    (hexact : CallExact r buf off) (hc : (decode zlib r buf off).1.complete = true)
    (more : QByteArray) : decode zlib r (buf ++ more) off = decode zlib r buf off := by
  obtain ⟨hlength, harea⟩ := hexact
  unfold Addressable at ha
  by_cases hzrle : r.encoding = EncZRLE
  · rw [decode_zrle hzrle] at hc ⊢
    rw [decode_zrle hzrle]
    exact decodeZRLERect_append hoff (by omega) hlength hzrle hc more
  rw [decode_plain hzrle] at hc ⊢
  rw [decode_plain hzrle]
  congr 1
  by_cases hraw : r.encoding = EncRaw
  · rw [decodeRect_raw hraw] at hc ⊢
    rw [decodeRect_raw hraw]
    exact decodeRaw_append hoff (hlength _ (announced_raw hraw)) hc more
  by_cases hcopy : r.encoding = EncCopyRect
  · rw [decodeRect_copyRect hcopy] at hc ⊢
    rw [decodeRect_copyRect hcopy]
    exact decodeCopyRect_append hoff (by omega) hc more
  by_cases hrre : r.encoding = EncRRE
  · rw [decodeRect_rre hrre] at hc ⊢
    rw [decodeRect_rre hrre]
    exact decodeRRE_append hoff (by omega) hlength hrre hc more
  by_cases hhextile : r.encoding = EncHextile
  · rw [decodeRect_hextile hhextile] at hc ⊢
    rw [decodeRect_hextile hhextile]
    exact decodeHextile_append hoff (harea hhextile) hc more
  · simp only [decodeRect, if_neg hraw, if_neg hcopy, if_neg hrre, if_neg hhextile]

theorem decode_waiting (h : (decode zlib r buf off).1.complete = false) :
    (decode zlib r buf off).2 = zlib := by
  unfold decode decodeZRLERect at h ⊢
  split at h
  · rename_i hzrle
    rw [if_pos hzrle]
    simp only at h ⊢
    split at h
    · rename_i hsize
      rw [if_pos hsize]
    · split at h
      · rename_i hsize hall
        rw [if_neg hsize, if_pos hall]
      · split at h
        · simp [RectData.drawn] at h
        · simp [RectData.drawn] at h
  · rename_i hzrle
    rw [if_neg hzrle]

def CallsExact (c : VncConnection z) : Prop := ∀ k ∈ c.calls, CallExact k.r c.buf k.off

theorem calls_fit (ha : Addressable buf) (rects : List Rectangle) (zlib : RfbZlibStream z)
    (hoff : 0 ≤ off) (hend : off ≤ buf.length)
    (hexact : ∀ k ∈ callsFrom buf rects off zlib, CallExact k.r buf k.off) :
    ∀ k ∈ callsFrom buf rects off zlib, CallFits k.r buf k.off := by
  induction rects generalizing off zlib with
  | nil => simp [callsFrom]
  | cons r rects ih =>
    rw [callsFrom_cons r rects zlib ha hoff hend, List.forall_mem_cons] at hexact ⊢
    obtain ⟨hfirst, hrest⟩ : CallExact r buf (off + 12) ∧ _ := hexact
    have hfits : CallFits r buf (off + 12) := CallExact.fits (by omega) hfirst
    refine ⟨hfits, ?_⟩
    cases hc : (decode zlib r buf (off + 12)).1.complete with
    | false => simp
    | true =>
      obtain ⟨hlow, hhigh⟩ := (inBounds_iff zlib ha (by omega) (by omega)).mpr hfits hc
      rw [hc, if_pos rfl] at hrest
      rw [if_pos rfl]
      exact ih _ (by omega) hhigh hrest

theorem decodeRects_append (ha : Addressable buf) (rects : List Rectangle)
    (zlib : RfbZlibStream z) (hoff : 0 ≤ off) (hend : off ≤ buf.length)
    (hexact : ∀ k ∈ callsFrom buf rects off zlib, CallExact k.r buf k.off)
    (hc : (decodeRects buf rects off zlib).complete = true) (more : QByteArray) :
    decodeRects (buf ++ more) rects off zlib = decodeRects buf rects off zlib := by
  induction rects generalizing off zlib with
  | nil => rfl
  | cons r rects ih =>
    rw [callsFrom_cons r rects zlib ha hoff hend, List.forall_mem_cons] at hexact
    obtain ⟨hfirst, hrest⟩ : CallExact r buf (off + 12) ∧ _ := hexact
    rw [decodeRects, skip_header ha hoff hend] at hc ⊢
    rw [decodeRects, skip_header ha hoff hend]
    simp only at hc ⊢
    cases hd : (decode zlib r buf (off + 12)).1.complete with
    | false => simp [hd] at hc
    | true =>
      have hfits : CallFits r buf (off + 12) := CallExact.fits (by omega) hfirst
      obtain ⟨hlow, hhigh⟩ := (inBounds_iff zlib ha (by omega) (by omega)).mpr hfits hd
      rw [decode_append ha (by omega) (by omega) hfirst hd]
      simp only [hd, Bool.not_true, Bool.false_eq_true, if_false, if_true] at hc hrest ⊢
      rw [ih _ (by omega) hhigh hrest hc]

theorem callsFit_of_exact {c : VncConnection z} (ha : Addressable c.buf) (h : c.CallsExact) :
    c.CallsFit := by
  unfold CallsExact calls at h
  unfold CallsFit calls
  cases hu : c.update with
  | none => simp
  | some rects =>
    have hlength := length_of_update hu
    simp only [hu] at h ⊢
    exact calls_fit ha rects c.zlib (by decide) (by omega) h

end VncConnection

end Connect
