import Mathlib.Data.List.Basic

-- Checks made one after another, where the first that does not pass decides what comes out.
namespace Checked

variable {α β ε : Type} {good spills : α → Prop} {xs : List α}

def First (good spills : α → Prop) (xs : List α) : Prop :=
  ∃ before x after, xs = before ++ x :: after ∧ (∀ y ∈ before, good y) ∧ spills x

theorem not_first_nil : ¬ First good spills [] := by
  rintro ⟨before, x, after, h, -⟩
  exact absurd h.symm (by simp)

theorem first_cons (x : α) (xs : List α) :
    First good spills (x :: xs) ↔ spills x ∨ good x ∧ First good spills xs := by
  constructor
  · rintro ⟨before, y, after, hxs, hbefore, hy⟩
    cases before with
    | nil =>
      obtain ⟨rfl, -⟩ := List.cons.inj hxs
      exact .inl hy
    | cons z before =>
      obtain ⟨rfl, rfl⟩ := List.cons.inj hxs
      obtain ⟨hz, hbefore⟩ := List.forall_mem_cons.mp hbefore
      exact .inr ⟨hz, before, y, after, rfl, hbefore, hy⟩
  · rintro (hx | ⟨hx, before, y, after, rfl, hbefore, hy⟩)
    · exact ⟨[], x, xs, rfl, nofun, hx⟩
    · exact ⟨x :: before, y, after, rfl, List.forall_mem_cons.mpr ⟨hx, hbefore⟩, hy⟩

theorem all_or_first (h : ∀ x ∈ xs, good x ∨ spills x) :
    (∀ x ∈ xs, good x) ∨ First good spills xs := by
  induction xs with
  | nil => exact .inl nofun
  | cons x xs ih =>
    obtain ⟨hx, hxs⟩ := List.forall_mem_cons.mp h
    rw [first_cons, List.forall_mem_cons]
    rcases hx with hgood | hspills
    · rcases ih hxs with hall | hfirst
      · exact .inl ⟨hgood, hall⟩
      · exact .inr (.inr ⟨hgood, hfirst⟩)
    · exact .inr (.inl hspills)

section Fold

variable {step : β → α → Except ε β} {stop fail : ε}

theorem foldlM_first (hgood : ∀ b, ∀ x ∈ xs, good x → ∃ c, step b x = .ok c)
    (hspills : ∀ b, ∀ x ∈ xs, spills x → step b x = .error stop)
    (h : First good spills xs) (b : β) :
    xs.foldlM step b = .error stop := by
  induction xs generalizing b with
  | nil => exact absurd h not_first_nil
  | cons x xs ih =>
    rcases (first_cons x xs).mp h with hx | ⟨hx, hfirst⟩
    · rw [List.foldlM_cons, hspills b x List.mem_cons_self hx]
      rfl
    · obtain ⟨c, hc⟩ := hgood b x List.mem_cons_self hx
      rw [List.foldlM_cons, hc]
      exact ih (fun b y hy => hgood b y (List.mem_cons_of_mem _ hy))
        (fun b y hy => hspills b y (List.mem_cons_of_mem _ hy)) hfirst c

theorem foldlM_fail (hgood : ∀ b, ∀ x ∈ xs, good x → ∃ c, step b x = .ok c)
    (hfail : ∀ b, ∀ x ∈ xs, ¬ good x → ¬ spills x → step b x = .error fail)
    (hall : ¬ ∀ x ∈ xs, good x) (hfirst : ¬ First good spills xs) (b : β) :
    xs.foldlM step b = .error fail := by
  induction xs generalizing b with
  | nil => exact absurd nofun hall
  | cons x xs ih =>
    rw [first_cons, not_or] at hfirst
    rw [List.forall_mem_cons] at hall
    by_cases hx : good x
    · obtain ⟨c, hc⟩ := hgood b x List.mem_cons_self hx
      rw [List.foldlM_cons, hc]
      exact ih (fun b y hy => hgood b y (List.mem_cons_of_mem _ hy))
        (fun b y hy => hfail b y (List.mem_cons_of_mem _ hy)) (fun hxs => hall ⟨hx, hxs⟩)
        (fun h => hfirst.2 ⟨hx, h⟩) c
    · rw [List.foldlM_cons, hfail b x List.mem_cons_self hx hfirst.1]
      rfl

end Fold

end Checked
