import Mathlib.Data.List.DropRight

namespace Trimming

variable {α β : Type}

-- The text of each element: one space where it is blank, and else it does not end in a space.
structure Glyphs (f : α → List β) (sp : β) (blank : α → Bool) : Prop where
  ofBlank : ∀ a, blank a = true → f a = [sp]
  ofOther : ∀ a, blank a = false → ∃ front last, f a = front ++ [last] ∧ last ≠ sp

section FlatMap

variable {g h : α → List β} {l : List α}

theorem length_flatMap_le (hle : ∀ a ∈ l, (g a).length ≤ (h a).length) :
    (l.flatMap g).length ≤ (l.flatMap h).length := by
  induction l with
  | nil => exact Nat.le_refl _
  | cons a l ih =>
    obtain ⟨ha, hl⟩ := List.forall_mem_cons.mp hle
    rw [List.flatMap_cons, List.flatMap_cons, List.length_append, List.length_append]
    exact Nat.add_le_add ha (ih hl)

theorem flatMap_eq_iff (hle : ∀ a ∈ l, (g a).length ≤ (h a).length) :
    l.flatMap g = l.flatMap h ↔ ∀ a ∈ l, g a = h a := by
  induction l with
  | nil => exact iff_of_true rfl nofun
  | cons a l ih =>
    obtain ⟨ha, hl⟩ := List.forall_mem_cons.mp hle
    rw [List.flatMap_cons, List.flatMap_cons, List.forall_mem_cons, ← ih hl]
    constructor
    · intro heq
      have hlen := congrArg List.length heq
      have hrest := length_flatMap_le hl
      rw [List.length_append, List.length_append] at hlen
      exact List.append_inj heq (by omega)
    · rintro ⟨hhead, htail⟩
      rw [hhead, htail]

end FlatMap

namespace Glyphs

variable {f : α → List β} {sp : β} {blank : α → Bool}

theorem ne_nil (hf : Glyphs f sp blank) (a : α) : f a ≠ [] := by
  cases ha : blank a with
  | true =>
    rw [hf.ofBlank a ha]
    exact nofun
  | false =>
    obtain ⟨front, last, hlast, -⟩ := hf.ofOther a ha
    rw [hlast]
    exact List.append_ne_nil_of_right_ne_nil _ nofun

-- Trimming the spaces of the text trims the blanks.
theorem rdropWhile_flatMap [DecidableEq β] (hf : Glyphs f sp blank) (xs : List α) :
    (xs.flatMap f).rdropWhile (· == sp) = (xs.rdropWhile blank).flatMap f := by
  induction xs using List.reverseRecOn with
  | nil => rw [List.flatMap_nil, List.rdropWhile_nil, List.rdropWhile_nil, List.flatMap_nil]
  | append_singleton xs a ih =>
    rw [List.flatMap_append, List.flatMap_singleton]
    cases ha : blank a with
    | true =>
      rw [hf.ofBlank a ha, List.rdropWhile_concat_pos _ xs a ha, ← ih]
      exact List.rdropWhile_concat_pos _ _ _ (beq_self_eq_true sp)
    | false =>
      obtain ⟨front, last, hlast, hne⟩ := hf.ofOther a ha
      rw [List.rdropWhile_concat_neg _ xs a (by simp [ha]), List.flatMap_append,
        List.flatMap_singleton, hlast, ← List.append_assoc]
      exact List.rdropWhile_concat_neg _ _ _ (by simpa using hne)

-- What is left of a text without its spaces.
theorem filter_eq_nil_iff [DecidableEq β] (hf : Glyphs f sp blank) (a : α) :
    (f a).filter (· != sp) = [] ↔ blank a = true := by
  cases ha : blank a with
  | true =>
    rw [hf.ofBlank a ha]
    exact iff_of_true (by simp) rfl
  | false =>
    obtain ⟨front, last, hlast, hne⟩ := hf.ofOther a ha
    rw [hlast]
    exact iff_of_false (by simp [hne]) Bool.false_ne_true

end Glyphs

section Filter

variable {blank keep : α → Bool}

theorem filter_rdropWhile (hkeep : ∀ a, keep a = false → blank a = true) (xs : List α) :
    (xs.filter keep).rdropWhile blank = (xs.rdropWhile blank).filter keep := by
  induction xs using List.reverseRecOn with
  | nil => rfl
  | append_singleton xs a ih =>
    rw [List.filter_append]
    cases hk : keep a with
    | false =>
      rw [List.filter_singleton, hk, List.rdropWhile_concat_pos _ _ _ (hkeep a hk), ← ih]
      simp
    | true =>
      rw [List.filter_singleton, hk]
      cases ha : blank a with
      | true =>
        rw [List.rdropWhile_concat_pos _ _ _ ha, ← ih]
        exact List.rdropWhile_concat_pos _ _ _ ha
      | false =>
        rw [List.rdropWhile_concat_neg _ xs a (by simp [ha]), List.filter_append,
          List.filter_singleton, hk]
        exact List.rdropWhile_concat_neg _ _ _ (by simp [ha])

theorem rdropWhile_append_blanks (xs : List α) {ys : List α} (hys : ∀ a ∈ ys, blank a = true) :
    (xs ++ ys).rdropWhile blank = xs.rdropWhile blank := by
  induction ys using List.reverseRecOn with
  | nil => rw [List.append_nil]
  | append_singleton ys a ih =>
    rw [← List.append_assoc, List.rdropWhile_concat_pos _ _ _ (hys a (by simp)),
      ih fun b hb => hys b (by simp [hb])]

end Filter

section Kept

variable {f : α → List β} {sp : β} {blank keep : α → Bool}

theorem length_filter_flatMap_le (keep : α → Bool) (xs : List α) :
    ((xs.filter keep).flatMap f).length ≤ (xs.flatMap f).length := by
  induction xs with
  | nil => exact Nat.le_refl _
  | cons a xs ih =>
    rw [List.filter_cons, List.flatMap_cons, List.length_append]
    split
    · rw [List.flatMap_cons, List.length_append]
      exact Nat.add_le_add_left ih _
    · exact Nat.le_add_left_of_le ih

theorem filter_flatMap_eq_iff (hf : Glyphs f sp blank) (xs : List α) :
    (xs.filter keep).flatMap f = xs.flatMap f ↔ ∀ a ∈ xs, keep a = true := by
  induction xs with
  | nil => exact iff_of_true rfl nofun
  | cons a xs ih =>
    rw [List.forall_mem_cons]
    cases hk : keep a with
    | true =>
      rw [List.filter_cons_of_pos hk, List.flatMap_cons, List.flatMap_cons, ← ih]
      simp
    | false =>
      refine iff_of_false (fun heq => ?_) fun h => Bool.false_ne_true h.1
      have hlen := congrArg List.length heq
      have hle := length_filter_flatMap_le (f := f) keep xs
      have hpos := List.length_pos_of_ne_nil (hf.ne_nil a)
      rw [List.filter_cons_of_neg (by simp [hk]), List.flatMap_cons, List.length_append] at hlen
      omega

end Kept

end Trimming
