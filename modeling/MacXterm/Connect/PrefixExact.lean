import MacXterm.Connect.PlainDecode

namespace Connect.Rfb

open Qt Picture

variable {r : Rectangle} {buf used more : QByteArray} {off : Nat}

theorem length_of_drop (hdrop : buf.drop off = used) : buf.length ≤ off + used.length := by
  have hlength := congrArg List.length hdrop
  rw [List.length_drop] at hlength
  omega

theorem decodeRaw_truncated {pixels : List Pixel}
    (hcount : pixels.length = r.width.toNat * r.height.toNat)
    (hsize : off + (pixels.flatMap Pixel.bytes).length < 2 ^ 31) (hdrop : buf.drop off = used)
    (hused : pixels.flatMap Pixel.bytes = used ++ more) (hmore : more ≠ []) :
    decodeRaw r buf off 4 = .waiting := by
  have hlength := length_flatMap_const length_pixel pixels
  have hneed : r.width.toNat * r.height.toNat * 4 = (pixels.flatMap Pixel.bytes).length := by
    rw [hlength, hcount]
  have hend := int32_eq (x := off + (pixels.flatMap Pixel.bytes).length) (by omega) (by omega)
  have hshort := length_of_drop hdrop
  have hparts := congrArg List.length hused
  have hpos := List.length_pos_of_ne_nil hmore
  rw [List.length_append] at hparts
  rw [decodeRaw_eq, hneed, hend, if_pos (by omega)]

theorem rd32be_drop {n : Nat} (hn : n ≤ buf.length) : rd32be (buf.drop n) 0 = rd32be buf n := by
  have hread := rd32be_append_right (buf.take n) (buf.drop n) 0
  rw [List.take_append_drop, List.length_take, Nat.min_eq_left hn] at hread
  exact hread.symm

theorem decodeRRE_truncated {ground : Pixel} {subrects : List Subrect}
    (hsize : off + (8 + subrects.length * 12) < 2 ^ 31) (hdrop : buf.drop off = used)
    (hused : rreHeader ground subrects ++ subrects.flatMap Subrect.bytes = used ++ more)
    (hmore : more ≠ []) : decodeRRE r buf off 4 = .waiting := by
  have hlength := length_flatMap_const length_subrect subrects
  have hheader : (rreHeader ground subrects).length = 8 := rfl
  have hshort := length_of_drop hdrop
  have hparts := congrArg List.length hused
  have hpos := List.length_pos_of_ne_nil hmore
  rw [List.length_append, List.length_append, hheader, hlength] at hparts
  by_cases hlow : (buf.length : Int) < off + 8
  · exact decodeRRE_short (by omega) (by omega) hlow
  have hcount : (rd32be buf off).toNat = subrects.length := by
    have hsize : subrects.length < 2 ^ 32 := by omega
    have hread := @rre_count [] [] ground subrects hsize
    rw [List.nil_append, List.append_nil, hused, ← hdrop] at hread
    have hleft := rd32be_append_left (b := buf.drop off) (i := 0)
      (by rw [List.length_drop]; omega) more
    have hat : rd32be (buf.drop off ++ more) ([] : QByteArray).length =
        rd32be (buf.drop off ++ more) 0 := rfl
    rw [hat, hleft, rd32be_drop (by omega)] at hread
    exact hread
  have hend := int32_eq (x := off + (8 + subrects.length * 12 : Nat)) (by omega) (by omega)
  rw [decodeRRE_eq (by omega) (by omega) hlow, hcount, hend, if_pos (by omega)]

theorem decodeHextile_truncated {picture : Picture UInt32} {bytes : QByteArray}
    (hb : HextileTiles r.width.toNat r.height.toNat picture
      (tileOrigins r.width.toNat r.height.toNat 16) none none bytes)
    (harea : r.width.toNat * r.height.toNat < 2 ^ 31) (hdrop : buf.drop off = used)
    (hused : bytes = used ++ more) (hmore : more ≠ []) :
    decodeHextile r buf off 4 = .waiting := by
  have hn : int32 (r.width.toNat * r.height.toNat) = (r.width.toNat * r.height.toNat : Nat) := by
    rw [← Int.natCast_mul, int32_eq] <;> omega
  have hwindow : window buf off = used := by
    rw [window_eq (by omega), Int.toNat_natCast, hdrop]
  obtain ⟨t, hreads, -⟩ := reads_hextile hb
  rw [hused] at hreads
  have hparse := (exact_hextile _).none_of_proper hreads hmore
  simp only [decodeHextile, hn, hwindow, Int.toNat_natCast, hparse]

theorem decodeRect_truncated {e : QByteArray} {content : Content}
    (he : Encodes r.width.toNat r.height.toNat r.encoding e content)
    (harea : r.width.toNat * r.height.toNat < 2 ^ 31) (hsize : off + e.length < 2 ^ 31)
    (hused : e = buf.drop off ++ more) (hmore : more ≠ []) :
    decodeRect r buf off 4 = .waiting := by
  generalize hencoding : r.encoding = encoding at he
  cases he with
  | raw pixels hcount =>
    rw [VncConnection.decodeRect_raw hencoding]
    exact decodeRaw_truncated hcount hsize rfl hused hmore
  | copyRect srcX srcY =>
    have hlength := congrArg List.length hused
    have hpos := List.length_pos_of_ne_nil hmore
    rw [List.length_append, List.length_append, List.length_drop, BigEndian.length_bytes16,
      BigEndian.length_bytes16] at hlength
    rw [List.length_append, BigEndian.length_bytes16, BigEndian.length_bytes16] at hsize
    have hguard : int32 ((off : Int) + 4) = off + 4 := by
      rw [int32_eq] <;> omega
    rw [VncConnection.decodeRect_copyRect hencoding, decodeCopyRect, hguard, if_pos (by omega)]
  | rre ground subrects hcount =>
    have hlength := length_flatMap_const length_subrect subrects
    have hheader : (rreHeader ground subrects).length = 8 := rfl
    change off + (rreHeader ground subrects ++ subrects.flatMap Subrect.bytes).length < 2 ^ 31
      at hsize
    rw [List.length_append, hlength, hheader] at hsize
    rw [VncConnection.decodeRect_rre hencoding]
    exact decodeRRE_truncated hsize rfl hused hmore
  | hextile picture htiles =>
    rw [VncConnection.decodeRect_hextile hencoding]
    exact decodeHextile_truncated htiles harea rfl hused hmore

theorem decodeRect_prefix_exact (r : Rectangle) (e : QByteArray) (colours : List UInt32)
    (off : Nat) (he : Encodes r.width.toNat r.height.toNat r.encoding e (.pixels colours))
    (harea : r.width.toNat * r.height.toNat * 4 < 2 ^ 31) (hsize : off + e.length < 2 ^ 31) :
    (∀ buf rest : QByteArray, off ≤ buf.length → buf.drop off = e ++ rest →
      decodeRect r buf off 4 = .drawn e.length colours) ∧
    ∀ buf more : QByteArray, more ≠ [] → e = buf.drop off ++ more →
      (decodeRect r buf off 4).complete = false ∧ (decodeRect r buf off 4).consumed = 0 := by
  refine ⟨?_, ?_⟩
  · intro buf rest hoff hdrop
    have hlength : (buf.take off).length = off := by
      rw [List.length_take, Nat.min_eq_left hoff]
    have hbuf : buf.take off ++ e ++ rest = buf := by
      rw [List.append_assoc, ← hdrop, List.take_append_drop]
    have hdecode := decodeRect_encoding (buf.take off) rest he (by omega) (by omega)
    rwa [hbuf, hlength] at hdecode
  · intro buf more hmore hused
    rw [decodeRect_truncated he (by omega) hsize hused hmore]
    exact ⟨rfl, rfl⟩

theorem decodeRect_prefix_exact_onePixel :
    decodeRect ⟨0, 0, 1, 1, EncRaw⟩ [7, 0x30, 0x20, 0x10, 0, 9] 1 4 = .drawn 4 [0xFF102030] ∧
      (decodeRect ⟨0, 0, 1, 1, EncRaw⟩ [7, 0x30, 0x20, 0x10] 1 4).complete = false := by
  have he : Encodes 1 1 EncRaw [0x30, 0x20, 0x10, 0] (.pixels [0xFF102030]) :=
    .raw [⟨0x30, 0x20, 0x10, 0⟩] rfl
  obtain ⟨hwhole, hcut⟩ := decodeRect_prefix_exact ⟨0, 0, 1, 1, EncRaw⟩ [0x30, 0x20, 0x10, 0]
    [0xFF102030] 1 he (by decide) (by decide)
  exact ⟨hwhole _ [9] (by decide) rfl, (hcut _ [0] (List.cons_ne_nil _ _) rfl).1⟩

end Connect.Rfb
