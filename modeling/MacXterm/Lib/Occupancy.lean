import Mathlib.Order.Basic

namespace Occupancy

variable {N ι : Type}

def Lost (occ : N → Option ι) (i : ι) : Prop := ∀ n, occ n ≠ some i

def Denotes (occ : N → Option ι) (n : N) (i : ι) : Prop :=
  occ n = some i ∨ Lost occ i ∧ occ n = none

def Distinct (occ : N → Option ι) : Prop :=
  ∀ m n i, occ m = some i → occ n = some i → m = n

-- An occupant of `occ'` came from the name `source` gives, unless it is new.
def From (source : N → N) (new : ι → Prop) (occ occ' : N → Option ι) : Prop :=
  ∀ n i, occ' n = some i → occ (source n) = some i ∨ new i

variable {source : N → N} {new : ι → Prop} {occ occ' : N → Option ι}

theorem From.lost (h : From source new occ occ') {i : ι} (hold : ¬new i) (hlost : Lost occ i) :
    Lost occ' i := by
  intro n hn
  rcases h n i hn with hi | hi
  · exact hlost (source n) hi
  · exact hold hi

theorem Denotes.next (hdistinct : Distinct occ) (h : From source new occ occ') {n : N} {i : ι}
    (hold : ¬new i) (hi : Denotes occ n i)
    (hkept : occ n = some i → (occ' n = some i ∨ occ' n = none) ∧
      ∀ m, occ' m = some i → source m = n → m = n)
    (hempty : occ n = none → occ' n = none) : Denotes occ' n i := by
  rcases hi with hi | ⟨hlost, hnone⟩
  · obtain ⟨hn | hn, hsource⟩ := hkept hi
    · exact Or.inl hn
    · refine Or.inr ⟨fun m hm => ?_, hn⟩
      have hm' := (h m i hm).resolve_right hold
      obtain rfl := hsource m hm (hdistinct (source m) n i hm' hi)
      rw [hn] at hm
      exact absurd hm (by simp)
  · exact Or.inr ⟨h.lost hold hlost, hempty hnone⟩

theorem Distinct.next (hdistinct : Distinct occ) (h : From source new occ occ')
    (hinj : ∀ m n i, occ' m = some i → occ' n = some i → source m = source n → m = n)
    (hnew : ∀ m n i, new i → occ' m = some i → occ' n = some i → m = n) : Distinct occ' := by
  intro m n i hm hn
  by_cases hi : new i
  · exact hnew m n i hi hm hn
  · have hm' := (h m i hm).resolve_right hi
    have hn' := (h n i hn).resolve_right hi
    exact hinj m n i hm hn (hdistinct (source m) (source n) i hm' hn')

end Occupancy
