import Mathlib.Data.BitVec
import Mathlib.Data.Set.Basic

namespace Mask

variable {w : Nat}

theorem getLsbD_bit (k i : Nat) : (1#w <<< k).getLsbD i = (decide (i < w) && decide (i = k)) := by
  rw [BitVec.getLsbD_shiftLeft]
  by_cases hi : i < w
  · by_cases hk : i = k
    · subst hk
      have hw : 0 < w := by omega
      simp [hi, hw]
    · by_cases hlt : i < k
      · simp [hi, hk, hlt]
      · have hpos : ¬ i - k = 0 := by omega
        simp [hi, hk, hlt, hpos]
  · simp [hi]

theorem getLsbD_add (m : BitVec w) {k i : Nat} (hi : i < w) :
    (m ||| 1#w <<< k).getLsbD i = (m.getLsbD i || decide (i = k)) := by
  rw [BitVec.getLsbD_or, getLsbD_bit]
  simp [hi]

theorem and_bit_ne_zero (m : BitVec w) {k : Nat} (hk : k < w) :
    m &&& 1#w <<< k ≠ 0#w ↔ m.getLsbD k = true := by
  constructor
  · intro h
    by_contra hbit
    apply h
    apply BitVec.eq_of_getLsbD_eq
    intro i hi
    rw [BitVec.getLsbD_and, getLsbD_bit, BitVec.getLsbD_zero]
    by_cases hik : i = k
    · subst hik
      simp [hbit]
    · simp [hik]
  · intro h hzero
    have hbit := congrArg (fun x : BitVec w => x.getLsbD k) hzero
    simp only [BitVec.getLsbD_and, getLsbD_bit, BitVec.getLsbD_zero, h, hk, decide_true,
      Bool.and_true] at hbit
    exact Bool.false_ne_true hbit.symm

-- A mask stands for the set of the numbers of its bits.
structure Denotes (m : BitVec w) (S : Set Int) : Prop where
  bits : ∀ i < w, (m.getLsbD i = true ↔ (i : Int) ∈ S)
  bounds : ∀ v ∈ S, 0 ≤ v ∧ v < w

variable {m n : BitVec w} {S T : Set Int}

theorem Denotes.test (h : Denotes m S) {k : Nat} (hk : k < w) :
    m &&& 1#w <<< k ≠ 0#w ↔ (k : Int) ∈ S := by
  rw [and_bit_ne_zero m hk]
  exact h.bits k hk

theorem Denotes.setWidth (h : Denotes m S) {u : Nat} (hu : u ≤ w) (hS : ∀ v ∈ S, v < u) :
    Denotes (m.setWidth u) S := by
  refine ⟨fun i hi => ?_, fun v hv => ⟨(h.bounds v hv).1, hS v hv⟩⟩
  rw [BitVec.getLsbD_setWidth]
  simp [hi, h.bits i (by omega)]

theorem Denotes.widen (h : Denotes m S) {u : Nat} (hu : w ≤ u) : Denotes (m.setWidth u) S := by
  refine ⟨fun i hi => ?_, fun v hv => ?_⟩
  · rw [BitVec.getLsbD_setWidth]
    by_cases hiw : i < w
    · simp [hi, h.bits i hiw]
    · have hout : (i : Int) ∉ S := fun hmem => by
        have hbound := h.bounds i hmem
        omega
      simp [hout, BitVec.getLsbD_of_ge m i (by omega)]
  · have hbound := h.bounds v hv
    omega

theorem Denotes.eq_iff (hm : Denotes m S) (hn : Denotes n T) : m = n ↔ S = T := by
  constructor
  · rintro rfl
    ext v
    constructor
    · intro hv
      obtain ⟨h0, hlt⟩ := hm.bounds v hv
      obtain ⟨i, rfl⟩ := Int.eq_ofNat_of_zero_le h0
      exact (hn.bits i (by omega)).mp ((hm.bits i (by omega)).mpr hv)
    · intro hv
      obtain ⟨h0, hlt⟩ := hn.bounds v hv
      obtain ⟨i, rfl⟩ := Int.eq_ofNat_of_zero_le h0
      exact (hm.bits i (by omega)).mp ((hn.bits i (by omega)).mpr hv)
  · rintro rfl
    apply BitVec.eq_of_getLsbD_eq
    intro i hi
    rw [Bool.eq_iff_iff, hm.bits i hi, hn.bits i hi]

end Mask
