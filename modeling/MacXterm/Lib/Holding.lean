import Mathlib.Data.List.Basic

inductive Act (ρ : Type) where
  | acquire (r : ρ)
  | use (r : ρ)
  | release (r : ρ)
deriving DecidableEq

namespace Act

variable {ρ : Type}

-- What is acquired and not yet released, in terms of the history.
def Holds (past : List (Act ρ)) (r : ρ) : Prop :=
  ∃ before since, past = before ++ .acquire r :: since ∧ .release r ∉ since

def Justified (past : List (Act ρ)) : Act ρ → Prop
  | .acquire _ => True
  | .use r => Holds past r
  | .release r => Holds past r

-- Every act of the second list is justified by all that was done before it.
def Legal (past acts : List (Act ρ)) : Prop :=
  ∀ before a rest, acts = before ++ a :: rest → a.Justified (past ++ before)

theorem holds_acquire (past : List (Act ρ)) (r : ρ) : Holds (past ++ [.acquire r]) r :=
  ⟨past, [], rfl, List.not_mem_nil⟩

theorem Holds.append {past acts : List (Act ρ)} {r : ρ} (h : Holds past r)
    (hacts : .release r ∉ acts) : Holds (past ++ acts) r := by
  obtain ⟨before, since, rfl, hsince⟩ := h
  refine ⟨before, since ++ acts, by simp, ?_⟩
  rw [List.mem_append, not_or]
  exact ⟨hsince, hacts⟩

theorem legal_nil (past : List (Act ρ)) : Legal past [] := by
  intro before a rest h
  simp at h

theorem legal_singleton {past : List (Act ρ)} {a : Act ρ} (h : a.Justified past) :
    Legal past [a] := by
  intro before b rest he
  cases before with
  | nil =>
    obtain ⟨rfl, rfl⟩ : a = b ∧ [] = rest := by simpa using he
    rwa [List.append_nil]
  | cons c before => simp at he

theorem legal_uses {past acts : List (Act ρ)} (h : ∀ a ∈ acts, ∃ r, a = .use r ∧ Holds past r) :
    Legal past acts := by
  rintro before a rest rfl
  obtain ⟨r, rfl, hr⟩ := h a (by simp)
  refine hr.append fun hm => ?_
  obtain ⟨q, hq, -⟩ := h _ (List.mem_append_left _ hm)
  cases hq

theorem legal_append {past more acts : List (Act ρ)} (h : Legal past more)
    (hacts : Legal (past ++ more) acts) : Legal past (more ++ acts) := by
  intro before a rest he
  rcases List.append_eq_append_iff.mp he with ⟨mid, rfl, hmid⟩ | ⟨mid, rfl, hmid⟩
  · rw [← List.append_assoc]
    exact hacts mid a rest hmid
  · cases mid with
    | nil =>
      simpa using hacts [] a rest hmid.symm
    | cons b mid =>
      obtain ⟨rfl, -⟩ := List.cons.inj hmid
      exact h before a mid rfl

end Act
