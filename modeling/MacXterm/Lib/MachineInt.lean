import Mathlib.Algebra.Group.Int.Defs
import Mathlib.Algebra.Group.Nat.Defs
import Mathlib.Data.Int.Basic
import Mathlib.Data.Nat.Bitwise

def int32 (x : Int) : Int := x.bmod (2 ^ 32)

theorem int32_eq {x : Int} (h : -2 ^ 31 ≤ x) (h' : x < 2 ^ 31) : int32 x = x := by
  unfold int32
  rw [Int.bmod_eq_of_le] <;> omega

theorem int32_lt (x : Int) : int32 x < 2 ^ 31 := by
  have := Int.bmod_lt (x := x) (m := 2 ^ 32) (by decide)
  unfold int32
  omega

theorem le_int32 (x : Int) : -2 ^ 31 ≤ int32 x := by
  have := Int.le_bmod (x := x) (m := 2 ^ 32) (by decide)
  unfold int32
  omega

theorem int32_add_int32 (x y : Int) : int32 (x + int32 y) = int32 (x + y) := by
  unfold int32
  rw [Int.add_bmod_bmod]

theorem int32_int32_mul (x y : Int) : int32 (int32 x * y) = int32 (x * y) := by
  unfold int32
  rw [Int.bmod_mul_bmod]

theorem int32_cases {x : Int} (h : -2 ^ 31 ≤ x) (h' : x < 2 ^ 32) :
    x < 2 ^ 31 ∧ int32 x = x ∨ 2 ^ 31 ≤ x ∧ int32 x = x - 2 ^ 32 := by
  by_cases hx : x < 2 ^ 31
  · exact .inl ⟨hx, int32_eq h hx⟩
  · refine .inr ⟨by omega, ?_⟩
    have hshift : int32 (x - 2 ^ 32) = int32 x := Int.sub_bmod_right x (2 ^ 32)
    rw [← hshift, int32_eq] <;> omega

namespace BitField

def field (s n v : Nat) : Nat := v / 2 ^ s % 2 ^ n

variable {s n p k N v : Nat}

theorem testBit_field (s n v i : Nat) :
    (field s n v).testBit i = (decide (i < n) && v.testBit (s + i)) := by
  rw [field, Nat.testBit_mod_two_pow, Nat.testBit_div_two_pow, Nat.add_comm]

theorem field_zero_iff : field s n v = 0 ↔ ∀ i < n, v.testBit (s + i) = false := by
  constructor
  · intro h i hi
    have hbit := testBit_field s n v i
    rw [h, Nat.zero_testBit] at hbit
    simpa [hi] using hbit.symm
  · intro h
    apply Nat.eq_of_testBit_eq
    intro i
    rw [testBit_field, Nat.zero_testBit]
    by_cases hi : i < n
    · simp [h i hi]
    · simp [hi]

theorem field_full_iff : field s n v = 2 ^ n - 1 ↔ ∀ i < n, v.testBit (s + i) = true := by
  constructor
  · intro h i hi
    have hbit := testBit_field s n v i
    rw [h, Nat.testBit_two_pow_sub_one] at hbit
    simpa [hi] using hbit.symm
  · intro h
    apply Nat.eq_of_testBit_eq
    intro i
    rw [testBit_field, Nat.testBit_two_pow_sub_one]
    by_cases hi : i < n
    · simp [h i hi]
    · simp [hi]

theorem testBit_ones (p k i : Nat) :
    ((2 ^ k - 1) * 2 ^ p).testBit i = (decide (p ≤ i) && decide (i - p < k)) := by
  rw [Nat.testBit_mul_two_pow, Nat.testBit_two_pow_sub_one]

theorem ones_lt (hN : p + k ≤ N) : (2 ^ k - 1) * 2 ^ p < 2 ^ N := by
  have hpos : 0 < 2 ^ p := Nat.two_pow_pos p
  calc (2 ^ k - 1) * 2 ^ p < 2 ^ k * 2 ^ p :=
        Nat.mul_lt_mul_of_pos_right (Nat.sub_lt (Nat.two_pow_pos k) Nat.one_pos) hpos
    _ = 2 ^ (p + k) := by rw [← Nat.pow_add, Nat.add_comm]
    _ ≤ 2 ^ N := Nat.pow_le_pow_right Nat.two_pos hN

theorem field_eq_of_extremes (hk : 0 < k) (hN : p + k ≤ N)
    (hzero : ∀ v < 2 ^ N, field s n v = 0 → field p k v = 0)
    (hfull : ∀ v < 2 ^ N, field p k v = 2 ^ k - 1 → field s n v = 2 ^ n - 1) :
    s = p ∧ n = k := by
  have hinside (i : Nat) (hi : i < n) : p ≤ s + i ∧ s + i - p < k := by
    have hones : field p k ((2 ^ k - 1) * 2 ^ p) = 2 ^ k - 1 := by
      rw [field_full_iff]
      intro j hj
      rw [testBit_ones, Nat.add_sub_cancel_left]
      simp [hj]
    have hbit := field_full_iff.mp (hfull _ (ones_lt hN) hones) i hi
    rw [testBit_ones] at hbit
    simpa using hbit
  have hcovered (i : Nat) (hi : i < k) : s ≤ p + i ∧ p + i < s + n := by
    by_contra hout
    have hlt : 2 ^ (p + i) < 2 ^ N := Nat.pow_lt_pow_right (by omega) (by omega)
    have hnone : field s n (2 ^ (p + i)) = 0 := by
      rw [field_zero_iff]
      intro j hj
      rw [Nat.testBit_two_pow]
      exact decide_eq_false (by omega)
    have hbit := field_zero_iff.mp (hzero _ hlt hnone) i hi
    rw [Nat.testBit_two_pow_self] at hbit
    exact absurd hbit (by decide)
  have hfirst := hcovered 0 hk
  have hlast := hcovered (k - 1) (by omega)
  have hlow := hinside 0 (by omega)
  have hhigh := hinside (n - 1) (by omega)
  omega

theorem and_ones {N : Nat} (hk : k ≤ N) (hv : v < 2 ^ N) :
    v &&& (2 ^ (N - k) - 1) * 2 ^ k = v / 2 ^ k * 2 ^ k := by
  apply Nat.eq_of_testBit_eq
  intro i
  rw [Nat.testBit_and, testBit_ones, Nat.testBit_mul_two_pow, Nat.testBit_div_two_pow]
  by_cases hi : k ≤ i
  · rw [Nat.sub_add_cancel hi]
    by_cases hN : i < N
    · have hlt : i - k < N - k := by omega
      simp [hi, hlt]
    · have hout : v.testBit i = false :=
        Nat.testBit_lt_two_pow (hv.trans_le (Nat.pow_le_pow_right Nat.two_pos (by omega)))
      simp [hout]
  · simp [hi]

theorem or_ones (a k : Nat) : a * 2 ^ k ||| 2 ^ k - 1 = a * 2 ^ k + (2 ^ k - 1) := by
  have hlt : 2 ^ k - 1 < 2 ^ k := Nat.sub_lt (Nat.two_pow_pos k) Nat.one_pos
  rw [Nat.mul_comm, Nat.two_pow_add_eq_or_of_lt hlt]

end BitField
