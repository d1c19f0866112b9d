import MacXterm.Lib.Codec
import MacXterm.Qt.Text

namespace Qt

-- Reading outside the array is undefined in the source; here it gives 0.
def byteAt (b : QByteArray) (i : Int) : UInt8 := if 0 ≤ i then b.getD i.toNat 0 else 0

def rd16be (b : QByteArray) (off : Int) : UInt16 :=
  BigEndian.word16 (byteAt b off) (byteAt b (off + 1))

def rd32be (b : QByteArray) (off : Int) : UInt32 :=
  BigEndian.word32 (byteAt b off) (byteAt b (off + 1)) (byteAt b (off + 2)) (byteAt b (off + 3))

def mid (b : QByteArray) (pos len : Int) : QByteArray :=
  if b.length < pos then []
  else if pos < 0 then
    if len < 0 ∨ b.length ≤ len + pos then b
    else if len + pos ≤ 0 then []
    else b.take (len + pos).toNat
  else if len < 0 then b.drop pos.toNat
  else (b.drop pos.toNat).take len.toNat

def removeFront (b : QByteArray) (len : Int) : QByteArray :=
  if len ≤ 0 then b else b.drop len.toNat

theorem byteAt_append_left {b : QByteArray} {i : Int} (h : i < b.length) (c : QByteArray) :
    byteAt (b ++ c) i = byteAt b i := by
  unfold byteAt
  split
  · have hi : i.toNat < b.length := by omega
    rw [List.getD_eq_getElem?_getD, List.getD_eq_getElem?_getD, List.getElem?_append_left hi]
  · rfl

theorem byteAt_append_right (b c : QByteArray) (i : Nat) :
    byteAt (b ++ c) (b.length + i : Int) = byteAt c i := by
  have hpos : (0 : Int) ≤ b.length + i := by omega
  have hi : (0 : Int) ≤ i := by omega
  have hn : ((b.length : Int) + i).toNat = b.length + i := by omega
  rw [byteAt, byteAt, if_pos hpos, if_pos hi, hn, Int.toNat_natCast, List.getD_eq_getElem?_getD,
    List.getD_eq_getElem?_getD, List.getElem?_append_right (by omega), Nat.add_sub_cancel_left]

theorem rd16be_append_left {b : QByteArray} {i : Int} (h : i + 2 ≤ b.length) (c : QByteArray) :
    rd16be (b ++ c) i = rd16be b i := by
  unfold rd16be
  rw [byteAt_append_left (by omega), byteAt_append_left (by omega)]

theorem rd32be_append_left {b : QByteArray} {i : Int} (h : i + 4 ≤ b.length) (c : QByteArray) :
    rd32be (b ++ c) i = rd32be b i := by
  unfold rd32be
  rw [byteAt_append_left (by omega), byteAt_append_left (by omega), byteAt_append_left (by omega),
    byteAt_append_left (by omega)]

theorem rd16be_append_right (b c : QByteArray) (i : Nat) :
    rd16be (b ++ c) (b.length + i : Int) = rd16be c i := by
  have h1 : (b.length + i : Int) + 1 = b.length + (i + 1 : Nat) := by omega
  rw [rd16be, rd16be, h1, byteAt_append_right, byteAt_append_right]
  rfl

theorem rd32be_append_right (b c : QByteArray) (i : Nat) :
    rd32be (b ++ c) (b.length + i : Int) = rd32be c i := by
  have h1 : (b.length + i : Int) + 1 = b.length + (i + 1 : Nat) := by omega
  have h2 : (b.length + i : Int) + 2 = b.length + (i + 2 : Nat) := by omega
  have h3 : (b.length + i : Int) + 3 = b.length + (i + 3 : Nat) := by omega
  rw [rd32be, rd32be, h1, h2, h3, byteAt_append_right, byteAt_append_right, byteAt_append_right,
    byteAt_append_right]
  rfl

theorem rd32be_bytes32 (v : UInt32) (rest : QByteArray) :
    rd32be (BigEndian.bytes32 v ++ rest) 0 = v := BigEndian.word32_bytes32 v

theorem rd16be_bytes16 (v : UInt16) (rest : QByteArray) :
    rd16be (BigEndian.bytes16 v ++ rest) 0 = v := BigEndian.word16_bytes16 v

theorem byteAt_getElem {b : QByteArray} {i : Nat} (h : i < b.length) : byteAt b i = b[i] := by
  rw [byteAt, if_pos (by omega), Int.toNat_natCast, List.getD_eq_getElem?_getD,
    List.getElem?_eq_getElem h]
  rfl

theorem bytes16_rd16be {b : QByteArray} {off : Nat} (h : off + 2 ≤ b.length) :
    BigEndian.bytes16 (rd16be b off) = (b.drop off).take 2 := by
  have hnext : ((off : Int) + 1) = (off + 1 : Nat) := rfl
  rw [rd16be, BigEndian.bytes16_word16, hnext, byteAt_getElem (by omega),
    byteAt_getElem (by omega), List.drop_eq_getElem_cons (by omega),
    List.drop_eq_getElem_cons (by omega)]
  rfl

theorem bytes32_rd32be {b : QByteArray} {off : Nat} (h : off + 4 ≤ b.length) :
    BigEndian.bytes32 (rd32be b off) = (b.drop off).take 4 := by
  have h1 : ((off : Int) + 1) = (off + 1 : Nat) := rfl
  have h2 : ((off : Int) + 2) = (off + 2 : Nat) := rfl
  have h3 : ((off : Int) + 3) = (off + 3 : Nat) := rfl
  rw [rd32be, BigEndian.bytes32_word32, h1, h2, h3, byteAt_getElem (by omega),
    byteAt_getElem (by omega), byteAt_getElem (by omega), byteAt_getElem (by omega),
    List.drop_eq_getElem_cons (by omega), List.drop_eq_getElem_cons (by omega),
    List.drop_eq_getElem_cons (by omega), List.drop_eq_getElem_cons (by omega)]
  rfl

theorem length_flatMap_const {α : Type} {f : α → QByteArray} {n : Nat}
    (hf : ∀ a, (f a).length = n) (xs : List α) : (xs.flatMap f).length = xs.length * n := by
  induction xs with
  | nil => simp
  | cons a xs ih =>
    rw [List.flatMap_cons, List.length_append, hf, ih, List.length_cons, Nat.succ_mul,
      Nat.add_comm]

theorem byteAt_flatMap {α : Type} {f : α → QByteArray} {n : Nat} (hf : ∀ a, (f a).length = n)
    (xs : List α) {i j : Nat} (hi : i < xs.length) (hj : j < n) :
    byteAt (xs.flatMap f) ((i * n + j : Nat) : Int) = byteAt (f xs[i]) j := by
  induction xs generalizing i with
  | nil => simp at hi
  | cons a xs ih =>
    rw [List.flatMap_cons]
    cases i with
    | zero =>
      rw [Nat.zero_mul, Nat.zero_add]
      exact byteAt_append_left (by rw [hf]; omega) _
    | succ i =>
      have hat : (((i + 1) * n + j : Nat) : Int) = (f a).length + (i * n + j : Nat) := by
        rw [hf, Nat.succ_mul]
        omega
      rw [hat, byteAt_append_right, ih (by simpa using hi)]
      rfl

theorem mid_append_left {b : QByteArray} {pos len : Int} (hpos : 0 ≤ pos) (hlen : 0 ≤ len)
    (h : pos + len ≤ b.length) (c : QByteArray) : mid (b ++ c) pos len = mid b pos len := by
  have hle : pos.toNat ≤ b.length := by omega
  have hsize : ¬ ((b ++ c).length : Int) < pos := by
    rw [List.length_append]
    omega
  simp only [mid, if_neg hsize, if_neg (show ¬(b.length : Int) < pos by omega),
    if_neg (Int.not_lt.mpr hpos), if_neg (Int.not_lt.mpr hlen)]
  rw [List.drop_append_of_le_length hle, List.take_append_of_le_length]
  rw [List.length_drop]
  omega

theorem mid_between (a b c : QByteArray) : mid (a ++ b ++ c) a.length b.length = b := by
  have hsize : ¬ ((a ++ b ++ c).length : Int) < a.length := by
    simp only [List.length_append]
    omega
  simp only [mid, if_neg hsize, if_neg (show ¬(a.length : Int) < 0 by omega),
    if_neg (show ¬(b.length : Int) < 0 by omega), Int.toNat_natCast]
  rw [List.append_assoc, List.drop_left, List.take_left]

theorem mid_nat (b : QByteArray) {pos n : Nat} (hpos : pos ≤ b.length) :
    mid b pos n = (b.drop pos).take n := by
  have hlow : ¬ (b.length : Int) < pos := by omega
  have hneg : ¬ (pos : Int) < 0 := by omega
  have hlen : ¬ (n : Int) < 0 := by omega
  rw [mid, if_neg hlow, if_neg hneg, if_neg hlen, Int.toNat_natCast, Int.toNat_natCast]

theorem length_mid {b : QByteArray} {pos n : Int} (hpos : 0 ≤ pos) (hn : 0 ≤ n)
    (h : pos + n ≤ b.length) : (mid b pos n).length = n := by
  obtain ⟨p, rfl⟩ := Int.eq_ofNat_of_zero_le hpos
  obtain ⟨k, rfl⟩ := Int.eq_ofNat_of_zero_le hn
  rw [mid_nat b (by omega), List.length_take, List.length_drop]
  omega

theorem take_append_mid (b : QByteArray) (pos n : Nat) (hpos : pos ≤ b.length) :
    b.take pos ++ mid b pos n = b.take (pos + n) := by
  rw [mid_nat b hpos, List.take_add]

theorem take_append_byteAt (b : QByteArray) (pos : Nat) (hpos : pos < b.length) :
    b.take pos ++ [byteAt b pos] = b.take (pos + 1) := by
  rw [byteAt_getElem hpos, List.take_append_getElem]

theorem removeFront_append_left (a b : QByteArray) : removeFront (a ++ b) a.length = b := by
  unfold removeFront
  split
  · have ha : a = [] := List.length_eq_zero_iff.mp (by omega)
    simp [ha]
  · rw [Int.toNat_natCast, List.drop_left]

theorem removeFront_append {a : QByteArray} {n : Int} (h : n ≤ a.length)
    (b : QByteArray) : removeFront (a ++ b) n = removeFront a n ++ b := by
  unfold removeFront
  split
  · rfl
  · rw [List.drop_append_of_le_length (by omega)]

end Qt
