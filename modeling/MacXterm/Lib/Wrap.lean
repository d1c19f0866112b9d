import Mathlib.Data.List.Basic
import Mathlib.Data.List.DropRight

namespace Blocks

variable {α : Type}

def block (size : Nat) (xs : List α) (i : Nat) : List α := (xs.drop (i * size)).take size

theorem length_block (size : Nat) (xs : List α) (i : Nat) :
    (block size xs i).length = min size (xs.length - i * size) := by
  rw [block, List.length_take, List.length_drop]

theorem length_block_eq_iff {size : Nat} (xs : List α) (i : Nat) (hsize : 0 < size) :
    (block size xs i).length = size ↔ (i + 1) * size ≤ xs.length := by
  rw [length_block, Nat.succ_mul]
  omega

theorem take_succ_mul (size : Nat) (xs : List α) (k : Nat) :
    xs.take ((k + 1) * size) = xs.take (k * size) ++ block size xs k := by
  rw [Nat.succ_mul, List.take_add, block]

theorem flatMap_block (size : Nat) (xs : List α) (k : Nat) :
    (List.range k).flatMap (block size xs) = xs.take (k * size) := by
  induction k with
  | zero => simp
  | succ k ih =>
    rw [List.range_succ, List.flatMap_append, ih, take_succ_mul, List.flatMap_singleton]

end Blocks

namespace Wrap

structure Row (α : Type) where
  cells : List α
  wrapped : Bool
deriving DecidableEq

structure Joined (α : Type) where
  closed : List (List α)
  pending : List α
deriving DecidableEq

variable {α : Type}

theorem rdropWhile_append_rdropWhile (p : α → Bool) (xs ys : List α) :
    (xs ++ ys.rdropWhile p).rdropWhile p = (xs ++ ys).rdropWhile p := by
  induction ys using List.reverseRecOn with
  | nil => rw [List.rdropWhile_nil]
  | append_singleton ys y ih =>
    rw [List.rdropWhile_concat, ← List.append_assoc, List.rdropWhile_concat]
    cases hy : p y with
    | true => simpa using ih
    | false =>
      simp only [Bool.false_eq_true, if_false]
      rw [← List.append_assoc, List.rdropWhile_concat_neg _ _ _ (by simp [hy])]

namespace Joined

def empty : Joined α := ⟨[], []⟩

def feed (blank : α → Bool) (s : Joined α) (row : Row α) : Joined α :=
  match row.wrapped with
  | true => { s with pending := s.pending ++ row.cells }
  | false => ⟨s.closed ++ [(s.pending ++ row.cells).rdropWhile blank], []⟩

def join (blank : α → Bool) (s : Joined α) (rows : List (Row α)) : Joined α :=
  rows.foldl (feed blank) s

def lines (blank : α → Bool) (s : Joined α) : List (List α) :=
  match s.pending with
  | [] => s.closed
  | _ :: _ => s.closed ++ [s.pending.rdropWhile blank]

def settle (blank : α → Bool) (s : Joined α) : Joined α := ⟨s.lines blank, []⟩

@[simp] theorem join_nil (blank : α → Bool) (s : Joined α) : join blank s [] = s := rfl

theorem join_cons (blank : α → Bool) (s : Joined α) (row : Row α) (rows : List (Row α)) :
    join blank s (row :: rows) = join blank (s.feed blank row) rows := rfl

theorem join_append (blank : α → Bool) (s : Joined α) (rows more : List (Row α)) :
    join blank s (rows ++ more) = join blank (join blank s rows) more := List.foldl_append

theorem join_concat (blank : α → Bool) (s : Joined α) (rows : List (Row α)) (row : Row α) :
    join blank s (rows ++ [row]) = (join blank s rows).feed blank row := by
  rw [join_append, join_cons, join_nil]

theorem lines_of_pending_nil (blank : α → Bool) {s : Joined α} (h : s.pending = []) :
    s.lines blank = s.closed := by
  rw [lines, h]

theorem lines_of_pending_ne_nil (blank : α → Bool) {s : Joined α} (h : s.pending ≠ []) :
    s.lines blank = s.closed ++ [s.pending.rdropWhile blank] := by
  obtain ⟨c, cs, hc⟩ := List.exists_cons_of_ne_nil h
  simp only [lines, hc]

@[simp] theorem pending_settle (blank : α → Bool) (s : Joined α) :
    (s.settle blank).pending = [] := rfl

@[simp] theorem lines_settle (blank : α → Bool) (s : Joined α) :
    (s.settle blank).lines blank = s.lines blank := rfl

theorem settle_of_pending_nil (blank : α → Bool) {s : Joined α} (h : s.pending = []) :
    s.settle blank = s := by
  obtain ⟨closed, pending⟩ := s
  subst h
  rfl

theorem settle_settle (blank : α → Bool) (s : Joined α) :
    (s.settle blank).settle blank = s.settle blank :=
  settle_of_pending_nil blank (pending_settle blank s)

theorem pending_feed_nil_iff (blank : α → Bool) (s : Joined α) {row : Row α}
    (hrow : row.wrapped = true → row.cells ≠ []) :
    (s.feed blank row).pending = [] ↔ row.wrapped = false := by
  cases hw : row.wrapped with
  | true => simp [feed, hw, hrow hw]
  | false => simp [feed, hw]

theorem length_lines_feed (blank : α → Bool) (s : Joined α) {row : Row α}
    (hrow : row.wrapped = true → row.cells ≠ []) :
    ((s.feed blank row).lines blank).length =
      (s.lines blank).length + if s.pending = [] then 1 else 0 := by
  have hfeed : ((s.feed blank row).lines blank).length = s.closed.length + 1 := by
    cases hw : row.wrapped with
    | true =>
      have hne : (s.feed blank row).pending ≠ [] := by
        rw [ne_eq, pending_feed_nil_iff blank s hrow, hw]
        decide
      rw [lines_of_pending_ne_nil blank hne]
      simp [feed, hw]
    | false =>
      rw [lines_of_pending_nil blank ((pending_feed_nil_iff blank s hrow).mpr hw)]
      simp [feed, hw]
  rw [hfeed]
  by_cases hp : s.pending = []
  · rw [lines_of_pending_nil blank hp, if_pos hp]
  · rw [lines_of_pending_ne_nil blank hp, if_neg hp]
    simp

end Joined

def wrapAt (width : Nat) (line : List α) : List (Row α) :=
  match line with
  | [] => [⟨[], false⟩]
  | _ :: _ =>
      (List.range ((line.length + width - 1) / width)).map fun i =>
        ⟨Blocks.block width line i, decide (i * width + width < line.length)⟩

theorem join_blocks (blank : α → Bool) (s : Joined α) (width : Nat) (line : List α) (k : Nat)
    (hk : k * width < line.length ∨ k = 0) :
    Joined.join blank s ((List.range k).map fun i =>
        ⟨Blocks.block width line i, decide (i * width + width < line.length)⟩) =
      ⟨s.closed, s.pending ++ line.take (k * width)⟩ := by
  induction k with
  | zero => simp
  | succ k ih =>
    have hlast : k * width + width < line.length := by
      rcases hk with hk | hk
      · simpa [Nat.succ_mul] using hk
      · omega
    rw [List.range_succ, List.map_append, List.map_singleton, Joined.join_concat, ih (by omega),
      Joined.feed, Blocks.take_succ_mul]
    simp [hlast]

theorem join_wrapAt (blank : α → Bool) (s : Joined α) {width : Nat} (hwidth : 0 < width)
    (line : List α) :
    Joined.join blank s (wrapAt width line) =
      ⟨s.closed ++ [(s.pending ++ line).rdropWhile blank], []⟩ := by
  cases hline : line with
  | nil => simp [wrapAt, Joined.join, Joined.feed]
  | cons c cs =>
    rw [← hline]
    have hpos : 0 < line.length := by simp [hline]
    obtain ⟨k, hk⟩ : ∃ k, (line.length + width - 1) / width = k + 1 :=
      Nat.exists_eq_succ_of_ne_zero (by
        have := Nat.div_pos (show width ≤ line.length + width - 1 by omega) hwidth
        omega)
    have hlow : k * width < line.length := by
      have h := Nat.div_mul_le_self (line.length + width - 1) width
      rw [hk, Nat.succ_mul] at h
      omega
    have hhigh : line.length ≤ (k + 1) * width := by
      have h := Nat.lt_mul_div_succ (line.length + width - 1) hwidth
      rw [hk, Nat.mul_succ, Nat.mul_comm] at h
      omega
    have hw : wrapAt width line = (List.range (k + 1)).map fun i =>
        ⟨Blocks.block width line i, decide (i * width + width < line.length)⟩ := by
      rw [← hk, hline]
      rfl
    have hend : ¬k * width + width < line.length := by
      rw [Nat.succ_mul] at hhigh
      omega
    rw [hw, List.range_succ, List.map_append, List.map_singleton, Joined.join_concat,
      join_blocks blank s width line k (Or.inl hlow), Joined.feed]
    simp only [hend, decide_false]
    rw [List.append_assoc, ← Blocks.take_succ_mul, List.take_of_length_le hhigh]

theorem join_flatMap_wrapAt (blank : α → Bool) {width : Nat} (hwidth : 0 < width)
    (lines closed : List (List α)) :
    Joined.join blank ⟨closed, []⟩ (lines.flatMap (wrapAt width)) =
      ⟨closed ++ lines.map (List.rdropWhile blank), []⟩ := by
  induction lines generalizing closed with
  | nil => simp
  | cons line lines ih =>
    rw [List.flatMap_cons, Joined.join_append, join_wrapAt blank _ hwidth, ih]
    simp

end Wrap
