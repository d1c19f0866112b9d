import Mathlib.Data.List.Basic
import Mathlib.Order.Bounds.Basic

namespace CommonSubsequence

variable {α : Type} {a b s : List α}

def Common (a b s : List α) : Prop := s.Sublist a ∧ s.Sublist b

def IsLongest (a b : List α) (n : Nat) : Prop := IsGreatest {k | ∃ s, Common a b s ∧ s.length = k} n

theorem Common.cons {x : α} (h : Common a b s) : Common (x :: a) (x :: b) (x :: s) :=
  ⟨h.1.cons_cons x, h.2.cons_cons x⟩

theorem Common.left {x : α} (h : Common a b s) : Common (x :: a) b s := ⟨h.1.cons x, h.2⟩

theorem Common.right {x : α} (h : Common a b s) : Common a (x :: b) s := ⟨h.1, h.2.cons x⟩

theorem Common.tail {x : α} (h : Common (x :: a) (x :: b) s) : Common a b s.tail :=
  ⟨h.1.tail, h.2.tail⟩

-- Two lists with different heads share no subsequence that uses both.
theorem Common.split {x y : α} (hne : x ≠ y) (h : Common (x :: a) (y :: b) s) :
    Common a (y :: b) s ∨ Common (x :: a) b s := by
  obtain ⟨ha, hb⟩ := h
  rcases List.sublist_cons_iff.mp ha with hskip | ⟨s', rfl, _⟩
  · exact .inl ⟨hskip, hb⟩
  · rcases List.sublist_cons_iff.mp hb with hskip | ⟨s'', heq, _⟩
    · exact .inr ⟨ha, hskip⟩
    · exact absurd (List.cons.inj heq).1 hne

variable [DecidableEq α]

def longest : List α → List α → Nat
  | [], _ => 0
  | _ :: _, [] => 0
  | x :: a, y :: b =>
      if x = y then longest a b + 1 else max (longest a (y :: b)) (longest (x :: a) b)
termination_by a b => a.length + b.length

theorem longest_nil_left (b : List α) : longest [] b = 0 := by
  rw [longest]

theorem longest_nil_right (a : List α) : longest a [] = 0 := by
  cases a <;> rw [longest]

theorem longest_cons (x y : α) (a b : List α) :
    longest (x :: a) (y :: b) =
      if x = y then longest a b + 1 else max (longest a (y :: b)) (longest (x :: a) b) := by
  rw [longest]

theorem longest_cons_self (x : α) (a b : List α) :
    longest (x :: a) (x :: b) = longest a b + 1 := by
  rw [longest_cons, if_pos rfl]

theorem longest_cons_of_ne {x y : α} (h : x ≠ y) (a b : List α) :
    longest (x :: a) (y :: b) = max (longest a (y :: b)) (longest (x :: a) b) := by
  rw [longest_cons, if_neg h]

theorem length_le_longest (h : Common a b s) : s.length ≤ longest a b := by
  induction a, b using longest.induct generalizing s with
  | case1 b =>
    obtain rfl := List.sublist_nil.mp h.1
    exact Nat.zero_le _
  | case2 x a =>
    obtain rfl := List.sublist_nil.mp h.2
    exact Nat.zero_le _
  | case3 a x b ih =>
    have htail := ih h.tail
    rw [longest_cons_self]
    rw [List.length_tail] at htail
    omega
  | case4 x a y b hne ih ih' =>
    rw [longest_cons_of_ne hne]
    rcases h.split hne with hleft | hright
    · exact (ih hleft).trans (Nat.le_max_left ..)
    · exact (ih' hright).trans (Nat.le_max_right ..)

theorem exists_longest (a b : List α) : ∃ s, Common a b s ∧ s.length = longest a b := by
  induction a, b using longest.induct with
  | case1 b => exact ⟨[], ⟨List.nil_sublist _, List.nil_sublist _⟩, (longest_nil_left b).symm⟩
  | case2 x a =>
    exact ⟨[], ⟨List.nil_sublist _, List.nil_sublist _⟩, (longest_nil_right (x :: a)).symm⟩
  | case3 a x b ih =>
    obtain ⟨s, hs, hlength⟩ := ih
    refine ⟨x :: s, hs.cons, ?_⟩
    rw [longest_cons_self, List.length_cons, hlength]
  | case4 x a y b hne ih ih' =>
    obtain ⟨s, hs, hlength⟩ := ih
    obtain ⟨s', hs', hlength'⟩ := ih'
    rw [longest_cons_of_ne hne]
    rcases Nat.le_total (longest (x :: a) b) (longest a (y :: b)) with hle | hle
    · rw [Nat.max_eq_left hle]
      exact ⟨s, hs.left, hlength⟩
    · rw [Nat.max_eq_right hle]
      exact ⟨s', hs'.right, hlength'⟩

theorem isLongest_longest (a b : List α) : IsLongest a b (longest a b) := by
  refine ⟨exists_longest a b, ?_⟩
  rintro k ⟨s, hs, rfl⟩
  exact length_le_longest hs

end CommonSubsequence
