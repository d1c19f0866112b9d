import MacXterm.Connect.PlainDecode
import MacXterm.Connect.Zrle
import MacXterm.Lib.GuardedRead

namespace Connect.Rfb

open Qt

-- The assignments pixels[py * w + px] = c of one painted block, behind their test on px and py.
def paintWrites (w h : Nat) (n : Int) (x y lw lh : Nat) : List Access :=
  (List.range lh).flatMap fun yy => (List.range lw).filterMap fun xx =>
    if x + xx < w ∧ y + yy < h then
      some (.write (int32 (int32 ((y + yy : Nat) * w) + (x + xx : Nat))) n)
    else none

def pixelReads (bpp : Nat) : List Nat :=
  [0] ++ (if bpp > 1 then [1] else []) ++ (if bpp > 2 then [2] else [])

def rawRectAccesses (r : Rectangle) (pixelData : QByteArray) (bpp : Nat) : List Access :=
  let count := int32 (r.width.toNat * r.height.toNat)
  if pixelData.length < int32 (count * bpp) then []
  else
    .request count :: (List.range count.toNat).flatMap fun (i : Nat) =>
      readsAt pixelData.length (int32 (i * bpp)) [0, 1, 2]

def rawAccesses (r : Rectangle) (buf : QByteArray) (off : Int) (bpp : Nat) : List Access :=
  let n := int32 (r.width.toNat * r.height.toNat)
  let need := int32 (n * bpp)
  if buf.length < int32 (off + need) then [] else rawRectAccesses r (mid buf off need) bpp

def copyRectPlan : Plan := .take 4 [0, 1, 2, 3] fun _ => .done

def subrectangleAccesses (w h : Nat) (n : Int) (buf : QByteArray) (bpp : Nat) (p : Int) :
    List Access :=
  let sx := rd16be buf (p + bpp)
  let sy := rd16be buf (p + bpp + 2)
  let sw := rd16be buf (p + bpp + 4)
  let sh := rd16be buf (p + bpp + 6)
  readsAt buf.length p (pixelReads bpp ++ (List.range 8).map (bpp + ·)) ++
    paintWrites w h n sx.toNat sy.toNat sw.toNat sh.toNat

def rreAccesses (r : Rectangle) (buf : QByteArray) (off : Int) (bpp : Nat) : List Access :=
  let w := r.width.toNat
  let h := r.height.toNat
  let n := int32 (w * h)
  if buf.length < int32 (off + 4 + bpp) then []
  else
    let nsub := (rd32be buf off).toNat
    let subSize := bpp + 8
    let need := int32 (4 + bpp + int32 nsub * subSize)
    readsAt buf.length off [0, 1, 2, 3] ++
      if buf.length < int32 (off + need) then []
      else
        readsAt buf.length (int32 (off + 4)) (pixelReads bpp) ++ [.request n] ++
          (List.range nsub).flatMap fun (s : Nat) =>
            subrectangleAccesses w h n buf bpp (int32 (off + 4 + bpp + s * subSize))

def pixelPlan (bpp : Nat) (wanted : Bool) (rest : Plan) : Plan :=
  if wanted then .take bpp (pixelReads bpp) fun _ => rest else rest

def subrectPlan (w h bpp : Nat) (n : Int) (tx ty : Nat) (coloured : Bool) (rest : Plan) : Plan :=
  pixelPlan bpp coloured (.take 2 [0, 1] fun b =>
    let xy := b.getD 0 0
    let wh := b.getD 1 0
    .touch (paintWrites w h n (tx + (xy >>> 4).toNat) (ty + (xy &&& 0x0F).toNat)
      ((wh >>> 4).toNat + 1) ((wh &&& 0x0F).toNat + 1)) rest)

def rawTileReads (tw th bpp : Nat) : List Nat :=
  (List.range th).flatMap fun yy => (List.range tw).flatMap fun xx =>
    (pixelReads bpp).map ((yy * tw + xx) * bpp + ·)

def tilePlan (w h bpp : Nat) (n : Int) (origin : Nat × Nat) (rest : Plan) : Plan :=
  let (tx, ty) := origin
  let tw := min 16 (w - tx)
  let th := min 16 (h - ty)
  let painted := paintWrites w h n tx ty tw th
  .take 1 [0] fun b =>
    let sub := b.getD 0 0
    if sub &&& 0x01 ≠ 0 then
      .take (tw * th * bpp) (rawTileReads tw th bpp) fun _ => .touch painted rest
    else
      pixelPlan bpp (sub &&& 0x02 ≠ 0) (pixelPlan bpp (sub &&& 0x04 ≠ 0) (.touch painted
        (if sub &&& 0x08 ≠ 0 then
          .take 1 [0] fun b => (List.range (b.getD 0 0).toNat).foldr
            (fun _ rest => subrectPlan w h bpp n tx ty (sub &&& 0x10 ≠ 0) rest) rest
        else rest)))

def hextilePlan (w h bpp : Nat) (n : Int) : Plan :=
  (tileOrigins w h 16).foldr (tilePlan w h bpp n) .done

def hextileAccesses (r : Rectangle) (buf : QByteArray) (off : Int) (bpp : Nat) : List Access :=
  let w := r.width.toNat
  let h := r.height.toNat
  let n := int32 (w * h)
  .request n :: (hextilePlan w h bpp n).run (byteAt buf) buf.length off

def decodeRectAccesses (r : Rectangle) (buf : QByteArray) (off : Int) (bpp : Nat) : List Access :=
  if r.encoding = EncRaw then rawAccesses r buf off bpp
  else if r.encoding = EncCopyRect then copyRectPlan.run (byteAt buf) buf.length off
  else if r.encoding = EncRRE then rreAccesses r buf off bpp
  else if r.encoding = EncHextile then hextileAccesses r buf off bpp
  else []

-- The tiles are another array; put may be called with any place of the rectangle.
def decodeZRLERectAccesses {z : Zlib} (zlib : RfbZlibStream z) (r : Rectangle) (buf : QByteArray)
    (off : Int) : List Access :=
  if buf.length < int32 (off + 4) then []
  else
    let len := int32 (rd32be buf off).toNat
    readsAt buf.length off [0, 1, 2, 3] ++
      if buf.length < int32 (off + 4 + len) then []
      else if (zlib.inflate (mid buf (int32 (off + 4)) len)).1.failed then []
      else
        let w := r.width.toNat
        let h := r.height.toNat
        let n := int32 (w * h)
        .request n :: paintWrites w h n 0 0 w h

-- The bytes from a on, k of them, are in the array and all have an int for their index.
def Spans (size : Nat) (a : Int) (k : Nat) : Prop := 0 ≤ a ∧ a + k ≤ size ∧ a + k ≤ 2 ^ 31

def area (r : Rectangle) : Nat := r.width.toNat * r.height.toNat

def RawFits (r : Rectangle) (buf : QByteArray) (off : Int) : Prop :=
  let need := int32 (area r * 4)
  let data := mid buf off need
  area r * 4 < 2 ^ 31 ∨ buf.length < int32 (off + need) ∨ data.length < need ∨
    area r = 2 ^ 29 ∧ 2 ^ 31 ≤ data.length + 1

def RREFits (r : Rectangle) (buf : QByteArray) (off : Int) : Prop :=
  let nsub := (rd32be buf off).toNat
  buf.length < int32 (off + 8) ∨ Spans buf.length off 4 ∧
    (buf.length < int32 (off + int32 (8 + nsub * 12)) ∨
      area r < 2 ^ 31 ∧ Spans buf.length off 7 ∧
        (0 < nsub → Spans buf.length off (8 + nsub * 12)))

def HextileFits (r : Rectangle) (buf : QByteArray) (off : Int) : Prop :=
  let n := int32 (r.width.toNat * r.height.toNat)
  area r < 2 ^ 31 ∧ Piece.Fit buf.length
    ((hextilePlan r.width.toNat r.height.toNat 4 n).pieces (byteAt buf) off)

def RectFits (r : Rectangle) (buf : QByteArray) (off : Int) : Prop :=
  (r.encoding = EncRaw → RawFits r buf off) ∧
  (r.encoding = EncCopyRect → buf.length < int32 (off + 4) ∨ Spans buf.length off 4) ∧
  (r.encoding = EncRRE → RREFits r buf off) ∧
  (r.encoding = EncHextile → HextileFits r buf off)

def ZRLEFits {z : Zlib} (zlib : RfbZlibStream z) (r : Rectangle) (buf : QByteArray)
    (off : Int) : Prop :=
  let len := int32 (rd32be buf off).toNat
  buf.length < int32 (off + 4) ∨ Spans buf.length off 4 ∧
    (buf.length < int32 (off + 4 + len) ∨
      (zlib.inflate (mid buf (int32 (off + 4)) len)).1.failed = true ∨ area r < 2 ^ 31)

section Writes

variable {w h : Nat} {n : Int}

theorem int32_product_lt {a b : Nat} (ha : a < 2 ^ 31) (hab : a + b < 2 ^ 31) :
    int32 (int32 a + b) = (a + b : Nat) := by
  rw [int32_eq (x := a) (by omega) (by omega), int32_eq (by omega) (by omega), Int.natCast_add]

theorem safe_paintWrites (hn : n = (w * h : Nat)) (hsize : w * h < 2 ^ 31) (x y lw lh : Nat) :
    Safe (paintWrites w h n x y lw lh) := by
  intro a ha
  obtain ⟨yy, -, ha⟩ := List.mem_flatMap.mp ha
  obtain ⟨xx, -, ha⟩ := List.mem_filterMap.mp ha
  split at ha
  · rename_i hin
    obtain rfl := Option.some.inj ha
    have hrow : (y + yy + 1) * w ≤ h * w := Nat.mul_le_mul_right w hin.2
    rw [Nat.mul_comm h w, Nat.add_mul, Nat.one_mul] at hrow
    have hindex : int32 (int32 ((y + yy : Nat) * w) + (x + xx : Nat)) =
        ((y + yy) * w + (x + xx) : Nat) := by
      rw [← Int.natCast_mul]
      exact int32_product_lt (by omega) (by omega)
    rw [Access.Safe, hindex, hn]
    omega
  · cases ha

end Writes

section Header

variable {r : Rectangle}

theorem area_lt (r : Rectangle) : area r < 2 ^ 32 := by
  have hw := r.width.toNat_lt
  have hh := r.height.toNat_lt
  have hle : r.width.toNat * r.height.toNat ≤ (2 ^ 16 - 1) * (2 ^ 16 - 1) :=
    Nat.mul_le_mul (by omega) (by omega)
  rw [area]
  omega

theorem int32_area (r : Rectangle) :
    area r < 2 ^ 31 ∧ int32 (r.width.toNat * r.height.toNat) = area r ∨
      2 ^ 31 ≤ area r ∧ int32 (r.width.toNat * r.height.toNat) = area r - 2 ^ 32 := by
  have hlt := area_lt r
  have hcases := int32_cases (x := area r) (by omega) (by omega)
  rw [area, Int.natCast_mul] at *
  omega

theorem request_safe_iff (r : Rectangle) :
    Access.Safe (.request (int32 (r.width.toNat * r.height.toNat))) ↔ area r < 2 ^ 31 := by
  have hlt := area_lt r
  have hcases := int32_area r
  rw [Access.Safe]
  omega

theorem safe_paint (h : area r < 2 ^ 31) (x y lw lh : Nat) :
    Safe (paintWrites r.width.toNat r.height.toNat (int32 (r.width.toNat * r.height.toNat))
      x y lw lh) := by
  have hcases := int32_area r
  refine safe_paintWrites ?_ h x y lw lh
  rw [area] at hcases h
  omega

end Header

section Spans

variable {size k : Nat} {a : Int}

theorem safe_readsAt_iff {reads : List Nat} (hlow : -2 ^ 31 ≤ a) (hhigh : a < 2 ^ 31)
    (hzero : 0 ∈ reads) (hlast : k ∈ reads) (hreads : ∀ o ∈ reads, o ≤ k) (hk : k ≤ 2 ^ 31) :
    Safe (readsAt size a reads) ↔ Spans size a (k + 1) := by
  have hspan : Safe (readsAt size a reads) ↔ _ :=
    Plan.safe_readsAt hlow hhigh hzero fun o ho => Nat.le_trans (hreads o ho) hk
  rw [hspan, Spans]
  constructor
  · rintro ⟨hpos, hall⟩
    have hend := hall k hlast
    omega
  · rintro ⟨hpos, hsize, hint⟩
    refine ⟨hpos, fun o ho => ?_⟩
    have hle := hreads o ho
    omega

end Spans

section Decoders

variable {r : Rectangle} {buf : QByteArray} {off : Int}

theorem int32_need (r : Rectangle) :
    int32 (int32 (r.width.toNat * r.height.toNat) * (4 : Nat)) = int32 (area r * 4) := by
  rw [int32_int32_mul, area, Int.natCast_mul]
  rfl

theorem safe_rawLoop {n size : Nat} (hn : n < 2 ^ 31) :
    Safe ((List.range n).flatMap fun (i : Nat) => readsAt size (int32 (i * (4 : Nat))) [0, 1, 2]) ↔
      n * 4 ≤ 2 ^ 31 ∧ (0 < n → n * 4 ≤ size + 1) := by
  have hread (i : Nat) (hi : i < 2 ^ 29) :
      Safe (readsAt size (int32 (i * (4 : Nat))) [0, 1, 2]) ↔ i * 4 + 3 ≤ size := by
    rw [int32_eq (by omega) (by omega), safe_readsAt_iff (k := 2) (by omega) (by omega) (by decide)
      (by decide) (by decide) (by decide), Spans]
    omega
  simp only [Safe, List.forall_mem_flatMap, List.mem_range]
  constructor
  · intro h
    have hint : n * 4 ≤ 2 ^ 31 := by
      by_contra hlarge
      have hwrapped : int32 ((2 ^ 29 : Nat) * (4 : Nat)) = -2 ^ 31 := by decide
      have hfirst := h (2 ^ 29) (by omega)
      rw [hwrapped] at hfirst
      have hneg : Access.Safe (.read (int32 (-2 ^ 31 + (0 : Nat))) size) :=
        hfirst _ List.mem_cons_self
      rw [int32_eq (by omega) (by omega)] at hneg
      exact absurd hneg.1 (by decide)
    refine ⟨hint, fun hpos => ?_⟩
    have hlast := (hread (n - 1) (by omega)).mp (h (n - 1) (by omega))
    omega
  · rintro ⟨hint, hsize⟩ i hi
    have hlast := hsize (by omega)
    exact (hread i (by omega)).mpr (by omega)

theorem raw_safe_iff (r : Rectangle) (buf : QByteArray) (off : Int) :
    Safe (rawAccesses r buf off 4) ↔ RawFits r buf off := by
  simp only [rawAccesses, rawRectAccesses, RawFits, int32_need]
  generalize mid buf off (int32 (area r * 4)) = data
  have hneed := le_int32 (area r * 4)
  split
  · rename_i hguard
    exact iff_of_true safe_nil (.inr (.inl hguard))
  rename_i hguard
  split
  · rename_i hshort
    exact iff_of_true safe_nil (.inr (.inr (.inl hshort)))
  rename_i hshort
  have hlt := area_lt r
  rw [safe_cons, request_safe_iff]
  rcases int32_area r with ⟨hsmall, hcount⟩ | ⟨hlarge, hcount⟩
  · rw [hcount, Int.toNat_natCast, safe_rawLoop hsmall]
    by_cases hbytes : area r * 4 < 2 ^ 31
    · rw [int32_eq (by omega) (by omega)] at hshort
      exact iff_of_true ⟨hsmall, by omega, by omega⟩ (.inl hbytes)
    · constructor
      · rintro ⟨-, hint, hsize⟩
        exact .inr (.inr (.inr (by omega)))
      · rintro (h | h | h | h)
        · exact absurd h hbytes
        · exact absurd h hguard
        · exact absurd h hshort
        · omega
  · refine iff_of_false (by omega) ?_
    rintro (h | h | h | h)
    · omega
    · exact hguard h
    · exact hshort h
    · omega

theorem safe_header (hlow : -2 ^ 31 ≤ off) (hhigh : off < 2 ^ 31) :
    Safe (readsAt buf.length off [0, 1, 2, 3]) ↔ Spans buf.length off 4 :=
  safe_readsAt_iff hlow hhigh (by decide) (by decide) (by decide) (by decide)

theorem copyRect_safe_iff (hlow : -2 ^ 31 ≤ off) (hhigh : off < 2 ^ 31) :
    Safe (copyRectPlan.run (byteAt buf) buf.length off) ↔
      buf.length < int32 (off + 4) ∨ Spans buf.length off 4 := by
  have hfour : ((4 : Nat) : Int) = 4 := rfl
  rw [copyRectPlan, Plan.run, hfour]
  split
  · rename_i hguard
    exact iff_of_true safe_nil (.inl hguard)
  · rename_i hguard
    rw [safe_append, safe_header hlow hhigh, or_iff_right hguard]
    exact and_iff_left safe_nil

theorem zrle_safe_iff {z : Zlib} (zlib : RfbZlibStream z) (hlow : -2 ^ 31 ≤ off)
    (hhigh : off < 2 ^ 31) :
    Safe (decodeZRLERectAccesses zlib r buf off) ↔ ZRLEFits zlib r buf off := by
  simp only [decodeZRLERectAccesses, ZRLEFits]
  generalize int32 (rd32be buf off).toNat = len
  split
  · rename_i hguard
    exact iff_of_true safe_nil (.inl hguard)
  rename_i hguard
  rw [safe_append, safe_header hlow hhigh, or_iff_right hguard]
  refine and_congr_right fun _ => ?_
  split
  · rename_i hwait
    exact iff_of_true safe_nil (.inl hwait)
  rename_i hwait
  rw [or_iff_right hwait]
  split
  · rename_i hfailed
    exact iff_of_true safe_nil (.inl hfailed)
  · rename_i hfailed
    rw [safe_cons, request_safe_iff, or_iff_right hfailed]
    exact and_iff_left_of_imp fun hsmall => safe_paint hsmall _ _ _ _

theorem safe_subrectangle {p : Int} (hsmall : area r < 2 ^ 31) (hlow : -2 ^ 31 ≤ p)
    (hhigh : p < 2 ^ 31) :
    Safe (subrectangleAccesses r.width.toNat r.height.toNat
      (int32 (r.width.toNat * r.height.toNat)) buf 4 p) ↔ Spans buf.length p 12 := by
  rw [subrectangleAccesses, safe_append, safe_readsAt_iff (k := 11) hlow hhigh (by decide)
    (by decide) (by decide) (by decide)]
  exact and_iff_left (safe_paint hsmall _ _ _ _)

theorem safe_subrectangles (nsub : Nat) (hsmall : area r < 2 ^ 31) (hpos : 0 ≤ off)
    (hhigh : off + 7 ≤ 2 ^ 31) :
    Safe ((List.range nsub).flatMap fun (s : Nat) =>
      subrectangleAccesses r.width.toNat r.height.toNat
        (int32 (r.width.toNat * r.height.toNat)) buf 4 (int32 (off + 8 + s * (12 : Nat)))) ↔
      (0 < nsub → Spans buf.length off (8 + nsub * 12)) := by
  have hone (s : Nat) (hs : off + 8 + s * (12 : Nat) ≤ 2 ^ 31 + 1) :
      Safe (subrectangleAccesses r.width.toNat r.height.toNat
        (int32 (r.width.toNat * r.height.toNat)) buf 4 (int32 (off + 8 + s * (12 : Nat)))) ↔
        Spans buf.length off (8 + (s + 1) * 12) := by
    have hcases := int32_cases (x := off + 8 + s * (12 : Nat)) (by omega) (by omega)
    rw [safe_subrectangle hsmall (by omega) (by omega), Spans, Spans]
    omega
  simp only [Safe, List.forall_mem_flatMap, List.mem_range]
  constructor
  · intro h
    have hall (k : Nat) (hk : k ≤ nsub) (hpos : 0 < k) : Spans buf.length off (8 + k * 12) := by
      induction k with
      | zero => omega
      | succ k ih =>
        refine (hone k ?_).mp (h k hk)
        by_cases hzero : k = 0
        · omega
        · have hbefore := ih (by omega) (by omega)
          rw [Spans] at hbefore
          omega
    exact hall nsub (Nat.le_refl nsub)
  · intro h s hs
    have hend := h (by omega)
    rw [Spans] at hend
    refine (hone s (by omega)).mpr ?_
    rw [Spans]
    omega

theorem rre_safe_iff (hlow : -2 ^ 31 ≤ off) (hhigh : off < 2 ^ 31) :
    Safe (rreAccesses r buf off 4) ↔ RREFits r buf off := by
  have hguard : off + 4 + ((4 : Nat) : Int) = off + 8 := by omega
  have hneed (k : Nat) :
      int32 (4 + (4 : Nat) + int32 k * ((4 + 8 : Nat) : Int)) = int32 (8 + k * 12) := by
    rw [← int32_add_int32, int32_int32_mul, int32_add_int32]
    rfl
  simp only [rreAccesses, RREFits, hneed, hguard]
  generalize (rd32be buf off).toNat = nsub
  split
  · rename_i hwait
    exact iff_of_true safe_nil (.inl hwait)
  rename_i hwait
  rw [safe_append, safe_header hlow hhigh, or_iff_right hwait]
  refine and_congr_right fun hheader => ?_
  split
  · rename_i hshort
    exact iff_of_true safe_nil (.inl hshort)
  rename_i hshort
  obtain ⟨hpos, -, hint⟩ := hheader
  have hcases := int32_cases (x := off + 4) (by omega) (by omega)
  have hground : Safe (readsAt buf.length (int32 (off + 4)) (pixelReads 4)) ↔
      Spans buf.length off 7 := by
    rw [safe_readsAt_iff (k := 2) (by omega) (by omega) (by decide) (by decide) (by decide)
      (by decide), Spans, Spans]
    omega
  rw [safe_append, safe_append, safe_cons, request_safe_iff, hground, or_iff_right hshort]
  constructor
  · rintro ⟨⟨hspan, hsmall, -⟩, hloop⟩
    exact ⟨hsmall, hspan, (safe_subrectangles nsub hsmall hpos hspan.2.2).mp hloop⟩
  · rintro ⟨hsmall, hspan, hloop⟩
    exact ⟨⟨hspan, hsmall, safe_nil⟩, (safe_subrectangles nsub hsmall hpos hspan.2.2).mpr hloop⟩

end Decoders

section Hextile

variable {w h : Nat} {n : Int} {rest : Plan}

theorem pixel_sound (wanted : Bool) (hrest : rest.Sound (2 ^ 30)) :
    (pixelPlan 4 wanted rest).Sound (2 ^ 30) := by
  unfold pixelPlan
  split
  · exact ⟨by decide, by decide, by decide, fun _ => hrest⟩
  · exact hrest

theorem subrect_sound (hpaint : ∀ x y lw lh, Safe (paintWrites w h n x y lw lh)) (tx ty : Nat)
    (coloured : Bool) (hrest : rest.Sound (2 ^ 30)) :
    (subrectPlan w h 4 n tx ty coloured rest).Sound (2 ^ 30) :=
  pixel_sound coloured ⟨by decide, by decide, by decide, fun _ => ⟨hpaint _ _ _ _, hrest⟩⟩

theorem rawTileReads_lt {tw th o : Nat} (ho : o ∈ rawTileReads tw th 4) : o < tw * th * 4 := by
  obtain ⟨yy, hy, ho⟩ := List.mem_flatMap.mp ho
  obtain ⟨xx, hx, ho⟩ := List.mem_flatMap.mp ho
  obtain ⟨j, hj, rfl⟩ := List.mem_map.mp ho
  have hj' : ∀ j ∈ pixelReads 4, j < 4 := by decide
  have hbyte := hj' j hj
  have hrow : (yy + 1) * tw ≤ th * tw := Nat.mul_le_mul_right tw (List.mem_range.mp hy)
  have hcell := List.mem_range.mp hx
  rw [Nat.mul_comm th tw, Nat.add_mul, Nat.one_mul] at hrow
  omega

theorem zero_mem_rawTileReads {tw th : Nat} (htw : 0 < tw) (hth : 0 < th) :
    0 ∈ rawTileReads tw th 4 := by
  refine List.mem_flatMap.mpr ⟨0, List.mem_range.mpr hth, ?_⟩
  refine List.mem_flatMap.mpr ⟨0, List.mem_range.mpr htw, ?_⟩
  rw [Nat.zero_mul]
  decide

theorem tile_sound (hpaint : ∀ x y lw lh, Safe (paintWrites w h n x y lw lh)) {tx ty : Nat}
    (htx : tx < w) (hty : ty < h) (hrest : rest.Sound (2 ^ 30)) :
    (tilePlan w h 4 n (tx, ty) rest).Sound (2 ^ 30) := by
  refine ⟨by decide, by decide, by decide, fun b => ?_⟩
  dsimp only
  split
  · have htile : min 16 (w - tx) * min 16 (h - ty) ≤ 16 * 16 :=
      Nat.mul_le_mul (Nat.min_le_left _ _) (Nat.min_le_left _ _)
    exact ⟨by omega, zero_mem_rawTileReads (by omega) (by omega), fun o => rawTileReads_lt,
      fun _ => ⟨hpaint _ _ _ _, hrest⟩⟩
  · refine pixel_sound _ (pixel_sound _ ⟨hpaint _ _ _ _, ?_⟩)
    split
    · refine ⟨by decide, by decide, by decide, fun b => ?_⟩
      dsimp only
      generalize (List.range (b.getD 0 0).toNat) = subrects
      induction subrects with
      | nil => exact hrest
      | cons s subrects ih => exact subrect_sound hpaint tx ty _ ih
    · exact hrest

theorem origin_lt {extent step x : Nat} (hstep : 0 < step) (hx : x ∈ origins extent step) :
    x < extent := by
  obtain ⟨i, hi, rfl⟩ := List.mem_map.mp hx
  have hlt := List.mem_range.mp hi
  have hle := Nat.mul_le_mul_right step (Nat.le_of_lt_succ (Nat.lt_succ_of_le hlt))
  have hdiv := Nat.div_mul_le_self (extent + step - 1) step
  rw [Nat.succ_mul] at hle
  omega

theorem hextile_sound (hpaint : ∀ x y lw lh, Safe (paintWrites w h n x y lw lh)) :
    (hextilePlan w h 4 n).Sound (2 ^ 30) := by
  have htiles (origins : List (Nat × Nat)) (ho : ∀ o ∈ origins, o.1 < w ∧ o.2 < h) :
      (origins.foldr (tilePlan w h 4 n) .done).Sound (2 ^ 30) := by
    induction origins with
    | nil => trivial
    | cons o origins ih =>
      have hfirst := ho o List.mem_cons_self
      exact tile_sound hpaint hfirst.1 hfirst.2 (ih fun o' ho' => ho o' (List.mem_cons_of_mem _ ho'))
  refine htiles _ fun o ho => ?_
  obtain ⟨ty, hty, ho⟩ := List.mem_flatMap.mp ho
  obtain ⟨tx, htx, rfl⟩ := List.mem_map.mp ho
  exact ⟨origin_lt (by decide) htx, origin_lt (by decide) hty⟩

theorem hextile_safe_iff {r : Rectangle} {buf : QByteArray} {off : Int} (hlow : -2 ^ 31 ≤ off)
    (hhigh : off < 2 ^ 31) :
    Safe (hextileAccesses r buf off 4) ↔ HextileFits r buf off := by
  rw [hextileAccesses, safe_cons, request_safe_iff, HextileFits]
  refine and_congr_right fun hsmall => ?_
  exact Plan.safe_run_iff (hextile_sound (safe_paint hsmall)) (Nat.le_refl _) hlow hhigh

end Hextile

section Follows

variable {α β : Type} {w h : Nat} {n : Int} {rest : Plan}

def Follows (p : Parser α) (plan : Plan) : Prop := ∀ b, (p b).map Prod.snd = plan.rest b

theorem follows_take {k : Nat} {reads : List Nat} {f : List UInt8 → Parser β}
    {next : List UInt8 → Plan} (hreads : ∀ o ∈ reads, o < k)
    (hf : ∀ x, Follows (f x) (next (reads.map fun o => x.getD o 0))) :
    Follows (Parser.take k >>= f) (.take k reads next) := by
  intro b
  rw [Parser.bind_eq, Plan.rest, Parser.take]
  split
  · rfl
  · have hsame : (reads.map fun o => (b.take k).getD o 0) = reads.map fun o => b.getD o 0 := by
      refine List.map_congr_left fun o ho => ?_
      rw [List.getD_eq_getElem?_getD, List.getD_eq_getElem?_getD,
        List.getElem?_take_of_lt (hreads o ho)]
    rw [Option.bind_some, ← hsame]
    exact hf (b.take k) (b.drop k)

theorem Follows.touch {p : Parser α} (hp : Follows p rest) (writes : List Access) :
    Follows p (.touch writes rest) := hp

theorem follows_byte {f : UInt8 → Parser β} {next : List UInt8 → Plan}
    (hf : ∀ c, Follows (f c) (next [c])) : Follows (byte >>= f) (.take 1 [0] next) := by
  rw [byte, bind_assoc]
  refine follows_take (by decide) fun x => ?_
  rw [pure_bind]
  have hfirst : byteAt x 0 = x.getD 0 0 := rfl
  rw [hfirst]
  exact hf (x.getD 0 0)

theorem follows_when {f : UInt32 → Parser β} (wanted : Bool) (otherwise : UInt32)
    (hf : ∀ c, Follows (f c) rest) :
    Follows (Parser.when wanted (pixel 4) otherwise >>= f) (pixelPlan 4 wanted rest) := by
  cases wanted with
  | false => exact hf otherwise
  | true =>
    rw [Parser.when, if_pos rfl, pixelPlan, if_pos rfl, pixel, bind_assoc]
    refine follows_take (by decide) fun x => ?_
    rw [pure_bind]
    exact hf _

theorem follows_subrect {f : List UInt32 → Parser β} (tx ty : Nat) (coloured : Bool)
    (fg : UInt32) (pixels : List UInt32) (hf : ∀ pixels, Follows (f pixels) rest) :
    Follows (hextileSubrect w h 4 tx ty coloured fg pixels >>= f)
      (subrectPlan w h 4 n tx ty coloured rest) := by
  rw [hextileSubrect, bind_assoc]
  refine follows_when coloured fg fun c => ?_
  rw [bind_assoc]
  refine follows_take (by decide) fun x => ?_
  rw [pure_bind]
  exact (hf _).touch _

theorem follows_subrects {f : List UInt32 → Parser β} (tx ty : Nat) (coloured : Bool)
    (fg : UInt32) (pixels : List UInt32) (subrects : List Nat)
    (hf : ∀ pixels, Follows (f pixels) rest) :
    Follows (subrects.foldlM (fun pixels _ => hextileSubrect w h 4 tx ty coloured fg pixels)
        pixels >>= f)
      (subrects.foldr (fun _ rest => subrectPlan w h 4 n tx ty coloured rest) rest) := by
  induction subrects generalizing pixels with
  | nil => exact hf pixels
  | cons s subrects ih =>
    rw [List.foldlM_cons, bind_assoc]
    exact follows_subrect tx ty coloured fg pixels fun pixels => ih pixels

theorem follows_tile {f : HextileState → Parser β} (s : HextileState) (origin : Nat × Nat)
    (hf : ∀ s, Follows (f s) rest) :
    Follows (hextileTile w h 4 s origin >>= f) (tilePlan w h 4 n origin rest) := by
  obtain ⟨tx, ty⟩ := origin
  rw [hextileTile, bind_assoc]
  refine follows_byte fun sub => ?_
  have hsub : [sub].getD 0 0 = sub := rfl
  simp only [hsub]
  by_cases hraw : sub &&& 0x01 ≠ 0
  · rw [if_pos hraw, if_pos hraw, bind_assoc]
    refine follows_take (fun o => rawTileReads_lt) fun x => ?_
    rw [pure_bind]
    exact (hf _).touch _
  · rw [if_neg hraw, if_neg hraw, bind_assoc]
    refine follows_when _ _ fun bg => ?_
    rw [bind_assoc]
    refine follows_when _ _ fun fg => Follows.touch ?_ _
    by_cases hany : sub &&& 0x08 ≠ 0
    · rw [if_pos hany, if_pos hany, bind_assoc]
      refine follows_byte fun ns => ?_
      rw [bind_assoc]
      refine follows_subrects tx ty _ fg _ _ fun pixels => ?_
      rw [pure_bind]
      exact hf _
    · rw [if_neg hany, if_neg hany, pure_bind]
      exact hf _

-- The plan passes over exactly the bytes that the decoder of the pixels passes over.
theorem hextile_rest (w h k : Nat) (n : Int) (b : QByteArray) :
    (hextile w h 4 k b).map Prod.snd = (hextilePlan w h 4 n).rest b := by
  have htiles (origins : List (Nat × Nat)) (s : HextileState) :
      Follows (origins.foldlM (hextileTile w h 4) s)
        (origins.foldr (tilePlan w h 4 n) .done) := by
    induction origins generalizing s with
    | nil => exact fun b => rfl
    | cons o origins ih =>
      rw [List.foldlM_cons]
      exact follows_tile s o fun s => ih s
  exact htiles _ _ b

end Follows

theorem decodeRect_safe_iff {r : Rectangle} {buf : QByteArray} {off : Int} (hlow : -2 ^ 31 ≤ off)
    (hhigh : off < 2 ^ 31) :
    Safe (decodeRectAccesses r buf off 4) ↔ RectFits r buf off := by
  unfold decodeRectAccesses RectFits
  by_cases hraw : r.encoding = EncRaw
  · rw [if_pos hraw, raw_safe_iff, hraw]
    simp only [true_implies]
    exact ⟨fun h => ⟨h, nofun, nofun, nofun⟩, And.left⟩
  by_cases hcopy : r.encoding = EncCopyRect
  · rw [if_neg hraw, if_pos hcopy, copyRect_safe_iff hlow hhigh, hcopy]
    exact ⟨fun h => ⟨nofun, fun _ => h, nofun, nofun⟩, fun h => h.2.1 rfl⟩
  by_cases hrre : r.encoding = EncRRE
  · rw [if_neg hraw, if_neg hcopy, if_pos hrre, rre_safe_iff hlow hhigh, hrre]
    exact ⟨fun h => ⟨nofun, nofun, fun _ => h, nofun⟩, fun h => h.2.2.1 rfl⟩
  by_cases hhextile : r.encoding = EncHextile
  · rw [if_neg hraw, if_neg hcopy, if_neg hrre, if_pos hhextile, hextile_safe_iff hlow hhigh,
      hhextile]
    exact ⟨fun h => ⟨nofun, nofun, nofun, fun _ => h⟩, fun h => h.2.2.2 rfl⟩
  · rw [if_neg hraw, if_neg hcopy, if_neg hrre, if_neg hhextile]
    exact iff_of_true safe_nil ⟨fun h => absurd h hraw, fun h => absurd h hcopy,
      fun h => absurd h hrre, fun h => absurd h hhextile⟩

theorem decoders_in_bounds_iff {z : Zlib} (zlib : RfbZlibStream z) (r : Rectangle)
    (buf : QByteArray) (off : Int32) :
    (Safe (decodeRectAccesses r buf off.toInt 4) ↔ RectFits r buf off.toInt) ∧
      (Safe (decodeZRLERectAccesses zlib r buf off.toInt) ↔ ZRLEFits zlib r buf off.toInt) :=
  ⟨decodeRect_safe_iff off.le_toInt off.toInt_lt, zrle_safe_iff zlib off.le_toInt off.toInt_lt⟩

def wrappedCount : QByteArray := [0x40, 0, 0, 0, 0, 0, 0, 0]

theorem wrapped_count_read_beyond :
    ¬ Safe (decodeRectAccesses ⟨0, 0, 1, 1, EncRRE⟩ wrappedCount 0 4) := by
  have hcount : (rd32be wrappedCount 0).toNat = 2 ^ 30 := by decide
  have hneed : int32 (8 + (2 ^ 30 : Nat) * 12) = 8 := by decide
  rw [decodeRect_safe_iff (by decide) (by decide)]
  intro h
  rcases h.2.2.1 rfl with hwait | ⟨-, hshort | ⟨-, -, hloop⟩⟩
  · exact absurd hwait (by decide)
  · rw [hcount, hneed] at hshort
    exact absurd hshort (by decide)
  · have hend := (hloop (hcount ▸ by decide)).2.1
    rw [hcount] at hend
    exact absurd hend (by decide)

end Connect.Rfb
