import MacXterm.Lib.MachineInt
import MacXterm.Qt.ByteArray
import MacXterm.Tools.XdrReading

namespace Xdr

open Qt

-- XdrReader with its position and its lengths as the ints that they are.
structure XdrCursor where
  buf : QByteArray
  pos : Int
  deriving DecidableEq

namespace XdrCursor

def u32 (c : XdrCursor) : UInt32 × Bool × XdrCursor :=
  if c.buf.length < int32 (c.pos + 4) then (0, false, c)
  else (rd32be c.buf c.pos, true, { c with pos := int32 (c.pos + 4) })

def u64 (c : XdrCursor) : UInt64 × Bool × XdrCursor :=
  let (hi, a, c) := c.u32
  let (lo, b, c) := c.u32
  (hi.toUInt64 <<< 32 ||| lo.toUInt64, a && b, c)

def opaqueFixed (c : XdrCursor) (n : Int) : QByteArray × Bool × XdrCursor :=
  let padded := int32 (n + 3) / 4 * 4
  if c.buf.length < int32 (c.pos + padded) then ([], false, c)
  else (mid c.buf c.pos n, true, { c with pos := int32 (c.pos + padded) })

def opaqueVar (c : XdrCursor) : QByteArray × Bool × XdrCursor :=
  let (n, a, c) := c.u32
  if !a || n > .ofNat c.buf.length then ([], false, c) else c.opaqueFixed (int32 n.toNat)

def str (c : XdrCursor) : QString × Bool × XdrCursor :=
  let (b, ok, c) := c.opaqueVar
  (fromUtf8 b, ok, c)

theorem u32_short {c : XdrCursor} (h : c.buf.length < int32 (c.pos + 4)) :
    c.u32 = (0, false, c) := if_pos h

theorem u32_long {c : XdrCursor} (h : ¬ c.buf.length < int32 (c.pos + 4)) :
    c.u32 = (rd32be c.buf c.pos, true, ⟨c.buf, int32 (c.pos + 4)⟩) := if_neg h

def Small (c : XdrCursor) : Prop := c.pos < 2 ^ 31

theorem u32_small {c : XdrCursor} (h : c.Small) : c.u32.2.2.Small := by
  unfold u32
  split
  · exact h
  · exact int32_lt _

theorem u64_small {c : XdrCursor} (h : c.Small) : c.u64.2.2.Small := u32_small (u32_small h)

theorem opaqueFixed_small {c : XdrCursor} (h : c.Small) (n : Int) :
    (c.opaqueFixed n).2.2.Small := by
  simp only [opaqueFixed]
  split
  · exact h
  · exact int32_lt _

theorem opaqueVar_small {c : XdrCursor} (h : c.Small) : c.opaqueVar.2.2.Small := by
  simp only [opaqueVar]
  split
  · exact u32_small h
  · exact opaqueFixed_small (u32_small h) _

end XdrCursor

theorem int32_natCast {n : Nat} (h : n < 2 ^ 31) : int32 n = n := by
  have hpow : (n : Int) < 2 ^ 31 := by exact_mod_cast h
  exact int32_eq (by omega) hpow

-- A cursor at the place of a reader whose position no int holds back.
structure XdrCursor.Same (c : XdrCursor) (r : XdrReader) : Prop where
  buf : c.buf = r.buf
  pos : c.pos = r.pos

structure Agree {α : Type} (a : α × Bool × XdrCursor) (b : α × Bool × XdrReader) : Prop where
  value : a.1 = b.1
  ok : a.2.1 = b.2.1
  same : a.2.2.Same b.2.2

theorem Agree.u64 {r₁ r₂ : XdrReader} {hi lo : UInt32} {ok ok' : Bool}
    {a b : UInt32 × Bool × XdrCursor} (hfirst : Agree a (hi, ok, r₁)) (hsecond : Agree b (lo, ok', r₂)) :
    Agree (a.1.toUInt64 <<< 32 ||| b.1.toUInt64, a.2.1 && b.2.1, b.2.2)
      (hi.toUInt64 <<< 32 ||| lo.toUInt64, ok && ok', r₂) := by
  obtain ⟨rfl, rfl, -⟩ := hfirst
  obtain ⟨rfl, rfl, hsame⟩ := hsecond
  exact ⟨rfl, rfl, hsame⟩

namespace XdrReader

variable {r : XdrReader} {c : XdrCursor} {bytes : QByteArray}

theorem u32_next {v : UInt32} {r' : XdrReader} (h : r.u32 = (v, true, r')) :
    r' = ⟨r.buf, r.pos + 4⟩ := by
  unfold XdrReader.u32 at h
  split at h
  · exact (Prod.mk.inj (Prod.mk.inj h).2).2.symm
  · exact Bool.noConfusion (Prod.mk.inj (Prod.mk.inj h).2).1

theorem At.rd32be {v : UInt32} {rest : QByteArray} (h : r.At (BigEndian.bytes32 v ++ rest)) :
    rd32be r.buf r.pos = v := by
  have hbuf : r.buf = r.buf.take r.pos ++ (BigEndian.bytes32 v ++ rest) := by
    rw [← h.left, List.take_append_drop]
  have htake : (r.buf.take r.pos).length = r.pos := by
    rw [List.length_take, Nat.min_eq_left h.within]
  have hread := rd32be_append_right (r.buf.take r.pos) (BigEndian.bytes32 v ++ rest) 0
  rw [← hbuf, htake] at hread
  simpa [rd32be_bytes32] using hread

theorem At.u32_agree (h : r.At bytes) (hc : c.Same r) (hpos : r.pos + 4 < 2 ^ 31) :
    Agree c.u32 r.u32 := by
  have hlen := h.length
  have hnext : int32 (c.pos + 4) = (r.pos + 4 : Nat) := by
    rw [hc.pos]
    exact int32_natCast hpos
  rcases h.u32_cases with ⟨hshort, hread⟩ | ⟨v, rest, r', rfl, hread, -⟩
  · have hfail : (c.buf.length : Int) < int32 (c.pos + 4) := by
      rw [hnext, hc.buf]
      omega
    rw [XdrCursor.u32_short hfail, hread]
    exact ⟨rfl, rfl, hc⟩
  · have hfits : ¬ (c.buf.length : Int) < int32 (c.pos + 4) := by
      rw [hnext, hc.buf, hlen, List.length_append, BigEndian.length_bytes32]
      omega
    rw [XdrCursor.u32_long hfits, hread, u32_next hread, hnext, hc.pos, hc.buf, h.rd32be]
    exact ⟨rfl, rfl, rfl, rfl⟩

theorem At.u64_agree (h : r.At bytes) (hc : c.Same r) (hpos : r.pos + 8 < 2 ^ 31) :
    Agree c.u64 r.u64 := by
  have hfirst := h.u32_agree hc (by omega)
  unfold XdrCursor.u64 XdrReader.u64
  generalize c.u32 = a at hfirst ⊢
  obtain ⟨hi, ok, c₁⟩ := a
  rcases h.u32_cases with ⟨-, hread⟩ | ⟨v, rest, r₁, rfl, hread, hat⟩
  · rw [hread] at hfirst ⊢
    have hsecond := h.u32_agree hfirst.same (by omega)
    dsimp only at hsecond ⊢
    rw [hread] at hsecond ⊢
    generalize c₁.u32 = b at hsecond ⊢
    exact hfirst.u64 hsecond
  · have hnext := congrArg XdrReader.pos (u32_next hread)
    rw [hread] at hfirst ⊢
    have hsecond := hat.u32_agree hfirst.same (by rw [hnext]; omega)
    dsimp only at hsecond ⊢
    generalize c₁.u32 = b at hsecond ⊢
    exact hfirst.u64 hsecond

theorem At.opaqueFixed_agree (h : r.At bytes) (hc : c.Same r) {n : Nat}
    (hpos : r.pos + (n + padding n) < 2 ^ 31) :
    Agree (c.opaqueFixed n) (r.opaqueFixed n) := by
  have hpadded : int32 ((n : Int) + 3) / 4 * 4 = (n + padding n : Nat) := by
    have hround : int32 ((n + 3 : Nat) : Int) = (n + 3 : Nat) := by
      unfold padding at hpos
      exact int32_natCast (by omega)
    have hcast : ((n : Int) + 3) = (n + 3 : Nat) := by omega
    rw [hcast, hround, padding]
    omega
  have hnext : int32 (c.pos + (n + padding n : Nat)) = (r.pos + (n + padding n) : Nat) := by
    have hcast : c.pos + (n + padding n : Nat) = (r.pos + (n + padding n) : Nat) := by
      rw [hc.pos]
      omega
    rw [hcast]
    exact int32_natCast hpos
  by_cases hshort : r.pos + (n + padding n) > r.buf.length
  · have hfail : (c.buf.length : Int) < int32 (c.pos + (n + padding n : Nat)) := by
      rw [hnext, hc.buf]
      omega
    rw [XdrReader.opaqueFixed, if_pos hshort, XdrCursor.opaqueFixed, hpadded, if_pos hfail]
    exact ⟨rfl, rfl, hc⟩
  · have hfits : ¬ (c.buf.length : Int) < int32 (c.pos + (n + padding n : Nat)) := by
      rw [hnext, hc.buf]
      omega
    rw [XdrReader.opaqueFixed, if_neg hshort, XdrCursor.opaqueFixed, hpadded,
      if_neg hfits, hnext, hc.pos, hc.buf, mid_nat _ h.within]
    exact ⟨rfl, rfl, rfl, rfl⟩

theorem At.opaqueVar_agree (h : r.At bytes) (hc : c.Same r) (hpos : r.pos + 4 < 2 ^ 31)
    (hbuf : r.buf.length < 2 ^ 31)
    (hbody : ∀ n r', r.u32 = (n, true, r') → n.toNat ≤ r.buf.length →
      r.pos + 4 + (n.toNat + padding n.toNat) < 2 ^ 31) :
    Agree c.opaqueVar r.opaqueVar := by
  have hfirst := h.u32_agree hc hpos
  unfold XdrCursor.opaqueVar XdrReader.opaqueVar
  generalize c.u32 = a at hfirst ⊢
  obtain ⟨m, ok, c₁⟩ := a
  rcases h.u32_cases with ⟨-, hread⟩ | ⟨n, rest, r₁, rfl, hread, hat⟩
  · rw [hread] at hfirst ⊢
    obtain ⟨-, hok, hsame⟩ := hfirst
    dsimp only at hok hsame ⊢
    subst hok
    exact ⟨rfl, rfl, hsame⟩
  · rw [hread] at hfirst ⊢
    obtain ⟨hvalue, hok, hsame⟩ := hfirst
    dsimp only at hvalue hok hsame ⊢
    subst hvalue hok
    have hnext := u32_next hread
    have hlength : r₁.buf.length = r.buf.length := by rw [hnext]
    have hcount : (UInt32.ofNat c₁.buf.length).toNat = r₁.buf.length := by
      rw [hsame.buf, UInt32.toNat_ofNat_of_lt' (by rw [hlength]; change _ < 2 ^ 32; omega)]
    have hmore : m > .ofNat c₁.buf.length ↔ m.toNat > r₁.buf.length := by
      rw [gt_iff_lt, UInt32.lt_iff_toNat_lt, hcount]
    simp only [Bool.not_true, Bool.false_or, decide_eq_true_eq, hmore]
    by_cases hlong : m.toNat > r₁.buf.length
    · rw [if_pos hlong, if_pos hlong]
      exact ⟨rfl, rfl, hsame⟩
    · have hend := hbody m r₁ hread (by omega)
      have hpos₁ : r₁.pos = r.pos + 4 := by rw [hnext]
      have hint : int32 m.toNat = m.toNat := int32_natCast (by omega)
      rw [if_neg hlong, if_neg hlong, hint]
      exact hat.opaqueFixed_agree hsame (by rw [hpos₁]; exact hend)

end XdrReader

end Xdr
