import Mathlib.Data.List.Basic

structure Traced (ι α : Type) where
  value : α
  trace : List ι

namespace Traced

variable {ι α β : Type}

instance : Monad (Traced ι) where
  pure a := ⟨a, []⟩
  bind x f := ⟨(f x.value).value, x.trace ++ (f x.value).trace⟩

@[simp]
theorem value_pure (a : α) : (pure a : Traced ι α).value = a := rfl

@[simp]
theorem value_bind (x : Traced ι α) (f : α → Traced ι β) :
    (x >>= f).value = (f x.value).value := rfl

theorem value_ite (c : Prop) [Decidable c] (x y : Traced ι α) :
    (if c then x else y).value = if c then x.value else y.value := by
  split_ifs
  · rfl
  · rfl

def Only (p : ι → Prop) (x : Traced ι α) : Prop := ∀ i ∈ x.trace, p i

variable {p : ι → Prop} {x y : Traced ι α}

theorem Only.pure (a : α) : Only p (pure a : Traced ι α) := nofun

theorem Only.bind {f : α → Traced ι β} (hx : Only p x) (hf : Only p (f x.value)) :
    Only p (x >>= f) := by
  intro i hi
  rcases List.mem_append.mp hi with hi | hi
  · exact hx i hi
  · exact hf i hi

theorem Only.ite {c : Prop} [Decidable c] (hx : c → Only p x) (hy : ¬c → Only p y) :
    Only p (if c then x else y) := by
  split_ifs with hc
  · exact hx hc
  · exact hy hc

end Traced
