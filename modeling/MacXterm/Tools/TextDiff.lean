import Mathlib.Data.List.Infix
import MacXterm.Lib.CommonSubsequence
import MacXterm.Qt.Text

namespace Tools

open Qt CommonSubsequence

inductive DiffLine.Kind where
  | equal
  | added
  | removed
  deriving DecidableEq

structure DiffLine where
  kind : DiffLine.Kind
  text : QString
  deriving DecidableEq

namespace TextDiff

-- A row of the table from its right end on, over the entries of the row below it.
def row (x : QString) : List QString → List Nat → List Nat
  | y :: b, below :: diagonals =>
      let rights := row x b diagonals
      (if x = y then diagonals.headD 0 + 1 else max below (rights.headD 0)) :: rights
  | _, _ => [0]

def table : List QString → List QString → List (List Nat)
  | [], b => [List.replicate (b.length + 1) 0]
  | x :: a, b =>
      let below := table a b
      row x b (below.headD []) :: below

def entry (lcs : List (List Nat)) (i j : Nat) : Nat := (lcs.getD i []).getD j 0

def walk (lcs : List (List Nat)) : Nat → Nat → List QString → List QString → List DiffLine
  | i, j, x :: a, y :: b =>
      if x = y then ⟨.equal, x⟩ :: walk lcs (i + 1) (j + 1) a b
      else if entry lcs i (j + 1) ≤ entry lcs (i + 1) j then
        ⟨.removed, x⟩ :: walk lcs (i + 1) j a (y :: b)
      else ⟨.added, y⟩ :: walk lcs i (j + 1) (x :: a) b
  | _, _, a, b => a.map (⟨.removed, ·⟩) ++ b.map (⟨.added, ·⟩)
termination_by _ _ a b => a.length + b.length

def lines (s : QString) : List QString := s.splitOn '\n'

def diff (a b : QString) : List DiffLine :=
  walk (table (lines a) (lines b)) 0 0 (lines a) (lines b)

structure Counts where
  added : Nat
  removed : Nat

def count (n : Counts) (l : DiffLine) : Counts :=
  if l.kind = .added then { n with added := n.added + 1 }
  else if l.kind = .removed then { n with removed := n.removed + 1 }
  else n

def counts (d : List DiffLine) : Counts := d.foldl count ⟨0, 0⟩

def oldLines (d : List DiffLine) : List QString :=
  (d.filter fun l => l.kind ≠ .added).map DiffLine.text

def newLines (d : List DiffLine) : List QString :=
  (d.filter fun l => l.kind ≠ .removed).map DiffLine.text

def equalLines (d : List DiffLine) : List QString :=
  (d.filter fun l => l.kind = .equal).map DiffLine.text

structure Script (a b : List QString) (d : List DiffLine) : Prop where
  old : oldLines d = a
  new : newLines d = b

section Lines

variable {a b : List QString} {d : List DiffLine}

theorem Script.equal (h : Script a b d) (x : QString) :
    Script (x :: a) (x :: b) (⟨.equal, x⟩ :: d) :=
  ⟨congrArg (x :: ·) h.old, congrArg (x :: ·) h.new⟩

theorem Script.removed (h : Script a b d) (x : QString) :
    Script (x :: a) b (⟨.removed, x⟩ :: d) :=
  ⟨congrArg (x :: ·) h.old, h.new⟩

theorem Script.added (h : Script a b d) (y : QString) :
    Script a (y :: b) (⟨.added, y⟩ :: d) :=
  ⟨h.old, congrArg (y :: ·) h.new⟩

theorem script_added (b : List QString) : Script [] b (b.map (⟨.added, ·⟩)) := by
  induction b with
  | nil => exact ⟨rfl, rfl⟩
  | cons y b ih => exact ih.added y

theorem script_tails (a b : List QString) :
    Script a b (a.map (⟨.removed, ·⟩) ++ b.map (⟨.added, ·⟩)) := by
  induction a with
  | nil => exact script_added b
  | cons x a ih => exact ih.removed x

theorem Script.common (h : Script a b d) : Common a b (equalLines d) := by
  have hkind (l : DiffLine) (hl : l.kind = .equal) : l.kind ≠ .added ∧ l.kind ≠ .removed := by
    rw [hl]
    decide
  obtain ⟨rfl, rfl⟩ := h
  refine ⟨List.Sublist.map _ ?_, List.Sublist.map _ ?_⟩
  · exact List.monotone_filter_right d fun l hl => by simpa using (hkind l (by simpa using hl)).1
  · exact List.monotone_filter_right d fun l hl => by simpa using (hkind l (by simpa using hl)).2

theorem foldl_count (d : List DiffLine) (n : Counts) :
    (d.foldl count n).added + (equalLines d).length = n.added + (newLines d).length ∧
      (d.foldl count n).removed + (equalLines d).length = n.removed + (oldLines d).length := by
  induction d generalizing n with
  | nil => exact ⟨rfl, rfl⟩
  | cons l d ih =>
    obtain ⟨kind, text⟩ := l
    have hnext := ih (count n ⟨kind, text⟩)
    cases kind <;>
      simp [count, equalLines, newLines, oldLines] at hnext ⊢ <;> omega

theorem Script.counts (h : Script a b d) :
    (counts d).added = b.length - (equalLines d).length ∧
      (counts d).removed = a.length - (equalLines d).length := by
  obtain ⟨hadded, hremoved⟩ := foldl_count d ⟨0, 0⟩
  rw [h.new] at hadded
  rw [h.old] at hremoved
  dsimp only [TextDiff.counts] at hadded hremoved ⊢
  omega

end Lines

section Table

theorem row_tails (x : QString) (a b : List QString) :
    row x b (b.tails.map (longest a)) = b.tails.map (longest (x :: a)) := by
  have hhead (c b : List QString) : (b.tails.map (longest c)).headD 0 = longest c b := by
    cases b <;> simp
  induction b with
  | nil => simp [row, longest_nil_right]
  | cons y b ih =>
    rw [List.tails_cons, List.map_cons, List.map_cons, row, ih, hhead, hhead, longest_cons]

theorem table_tails (a b : List QString) :
    table a b = a.tails.map fun a' => b.tails.map (longest a') := by
  induction a with
  | nil =>
    have hzero : longest ([] : List QString) = fun _ => 0 := funext longest_nil_left
    simp [table, hzero, List.map_const']
  | cons x a ih =>
    have hhead : (a.tails.map fun a' => b.tails.map (longest a')).headD [] =
        b.tails.map (longest a) := by
      cases a <;> simp
    rw [table, ih, hhead, row_tails, List.tails_cons, List.map_cons]

theorem entry_table {a b : List QString} {i j : Nat} (hi : i ≤ a.length) (hj : j ≤ b.length) :
    entry (table a b) i j = longest (a.drop i) (b.drop j) := by
  have hrows : i < a.tails.length := by
    rw [List.length_tails]
    omega
  have hcolumns : j < b.tails.length := by
    rw [List.length_tails]
    omega
  simp only [entry, table_tails, List.getD_eq_getElem?_getD, List.getElem?_map,
    List.getElem?_eq_getElem hrows, List.getElem?_eq_getElem hcolumns, List.getElem_tails,
    Option.map_some, Option.getD_some]

end Table

section Walk

variable {lcs : List (List Nat)}

theorem walk_script (i j : Nat) (a b : List QString) : Script a b (walk lcs i j a b) := by
  induction i, j, a, b using walk.induct lcs with
  | case1 i j a x b ih =>
    rw [walk, if_pos rfl]
    exact ih.equal x
  | case2 i j x a y b hne hle ih =>
    rw [walk, if_neg hne, if_pos hle]
    exact ih.removed x
  | case3 i j x a y b hne hle ih =>
    rw [walk, if_neg hne, if_neg hle]
    exact ih.added y
  | case4 i j a b hend =>
    rw [walk]
    · exact script_tails a b
    · exact hend

def Holds (lcs : List (List Nat)) (i j : Nat) (a b : List QString) : Prop :=
  ∀ p ≤ a.length, ∀ q ≤ b.length, entry lcs (i + p) (j + q) = longest (a.drop p) (b.drop q)

theorem Holds.shift {i j p q : Nat} {a b : List QString} (h : Holds lcs i j a b)
    (hp : p ≤ a.length) (hq : q ≤ b.length) :
    Holds lcs (i + p) (j + q) (a.drop p) (b.drop q) := by
  intro p' hp' q' hq'
  rw [List.length_drop] at hp' hq'
  rw [Nat.add_assoc, Nat.add_assoc, h (p + p') (by omega) (q + q') (by omega), List.drop_drop,
    List.drop_drop]

theorem Holds.neighbours {i j : Nat} {x y : QString} {a b : List QString}
    (h : Holds lcs i j (x :: a) (y :: b)) :
    entry lcs (i + 1) j = longest a (y :: b) ∧ entry lcs i (j + 1) = longest (x :: a) b :=
  ⟨h 1 (by simp) 0 (by simp), h 0 (by simp) 1 (by simp)⟩

theorem equalLines_tails (a b : List QString) :
    equalLines (a.map (⟨.removed, ·⟩) ++ b.map (⟨.added, ·⟩)) = [] := by
  have hnone (l : DiffLine) (hl : l ∈ a.map (DiffLine.mk .removed) ++ b.map (DiffLine.mk .added)) :
      l.kind ≠ .equal := by
    rcases List.mem_append.mp hl with hl | hl
    all_goals
      obtain ⟨_, _, rfl⟩ := List.mem_map.mp hl
      exact nofun
  unfold equalLines
  rw [List.filter_eq_nil_iff.mpr fun l hl => by simpa using hnone l hl, List.map_nil]

-- The comparison of the two neighbours keeps to the longer of the two rests.
theorem walk_longest {i j : Nat} {a b : List QString} (h : Holds lcs i j a b) :
    (equalLines (walk lcs i j a b)).length = longest a b := by
  induction i, j, a, b using walk.induct lcs with
  | case1 i j a x b ih =>
    have hnext := ih (h.shift (p := 1) (q := 1) (by simp) (by simp))
    rw [walk, if_pos rfl, longest_cons_self, ← hnext]
    rfl
  | case2 i j x a y b hne hle ih =>
    have hnext := ih (h.shift (p := 1) (q := 0) (by simp) (by simp))
    obtain ⟨hdown, hright⟩ := h.neighbours
    rw [hdown, hright] at hle
    rw [walk, if_neg hne, if_pos (by rwa [hdown, hright]), longest_cons_of_ne hne,
      Nat.max_eq_left hle, ← hnext]
    rfl
  | case3 i j x a y b hne hle ih =>
    have hnext := ih (h.shift (p := 0) (q := 1) (by simp) (by simp))
    obtain ⟨hdown, hright⟩ := h.neighbours
    rw [hdown, hright] at hle
    rw [walk, if_neg hne, if_neg (by rwa [hdown, hright]), longest_cons_of_ne hne,
      Nat.max_eq_right (Nat.le_of_not_le hle), ← hnext]
    rfl
  | case4 i j a b hend =>
    rw [walk]
    · rw [equalLines_tails, List.length_nil]
      cases a with
      | nil => exact (longest_nil_left b).symm
      | cons x a =>
        cases b with
        | nil => exact (longest_nil_right (x :: a)).symm
        | cons y b => exact absurd rfl (hend x a y b rfl)
    · exact hend

end Walk

theorem diff_script (a b : QString) : Script (lines a) (lines b) (diff a b) := walk_script ..

theorem diff_longest (a b : QString) :
    (equalLines (diff a b)).length = longest (lines a) (lines b) := by
  apply walk_longest
  intro p hp q hq
  rw [Nat.zero_add, Nat.zero_add]
  exact entry_table hp hq

def edits (d : List DiffLine) : Nat := (counts d).added + (counts d).removed

theorem diff_edits (a b : QString) :
    IsLeast {n | ∃ d, Script (lines a) (lines b) d ∧ edits d = n} (edits (diff a b)) := by
  have hscript := diff_script a b
  refine ⟨⟨diff a b, hscript, rfl⟩, ?_⟩
  rintro n ⟨d, hd, rfl⟩
  obtain ⟨hadded, hremoved⟩ := hscript.counts
  obtain ⟨hadded', hremoved'⟩ := hd.counts
  have hle := length_le_longest hd.common
  rw [← diff_longest] at hle
  unfold edits
  omega

theorem minimal_edit_script (a b : QString) :
    oldLines (diff a b) = lines a ∧ newLines (diff a b) = lines b ∧
      IsLongest (lines a) (lines b) (equalLines (diff a b)).length ∧
      (counts (diff a b)).added = (lines b).length - (equalLines (diff a b)).length ∧
      (counts (diff a b)).removed = (lines a).length - (equalLines (diff a b)).length ∧
      IsLeast {n | ∃ d, Script (lines a) (lines b) d ∧ edits d = n} (edits (diff a b)) := by
  have hscript := diff_script a b
  obtain ⟨hadded, hremoved⟩ := hscript.counts
  have hlongest := isLongest_longest (lines a) (lines b)
  rw [← diff_longest] at hlongest
  exact ⟨hscript.old, hscript.new, hlongest, hadded, hremoved, diff_edits a b⟩

end TextDiff

end Tools
