import Mathlib.Data.List.TakeWhile
import MacXterm.Qt.Text

namespace Qt

-- No white space at either end.
def Flush (s : QString) : Prop :=
  (∀ c, s.head? = some c → isSpace c = false) ∧ ∀ c, s.getLast? = some c → isSpace c = false

instance (s : QString) : Decidable (Flush s) :=
  decidable_of_iff
    ((s.head?.all fun c => !isSpace c) = true ∧ (s.getLast?.all fun c => !isSpace c) = true) (by
      cases hs : s.head? <;> cases hl : s.getLast? <;> simp [Flush, hs, hl])

section Trim

variable {a b s t : QString}

theorem dropWhile_flush (h : ∀ c, s.head? = some c → isSpace c = false) :
    s.dropWhile isSpace = s := by
  cases s with
  | nil => rfl
  | cons c s => rw [List.dropWhile_cons_of_neg (by simp [h c rfl])]

theorem trimmed_flush (h : Flush s) : trimmed s = s := by
  have hback : ∀ c, s.reverse.head? = some c → isSpace c = false := by
    intro c hc
    rw [List.head?_reverse] at hc
    exact h.2 c hc
  rw [trimmed, dropWhile_flush h.1, dropWhile_flush hback, List.reverse_reverse]

theorem trimmed_front (ha : ∀ c ∈ a, isSpace c = true) : trimmed (a ++ s) = trimmed s := by
  rw [trimmed, List.dropWhile_append_of_pos ha, trimmed]

theorem trimmed_back (hb : ∀ c ∈ b, isSpace c = true) : trimmed (s ++ b) = trimmed s := by
  have hback : ∀ c ∈ b.reverse, isSpace c = true := fun c hc => hb c (List.mem_reverse.mp hc)
  rw [trimmed, trimmed, List.dropWhile_append]
  split
  · rename_i hs
    have hnil : s.dropWhile isSpace = [] := List.isEmpty_iff.mp hs
    rw [hnil, List.dropWhile_eq_nil_iff.mpr hb]
  · rw [List.reverse_append, List.dropWhile_append_of_pos hback]

theorem getLast?_trimmed {c : Char} (h : (trimmed s).getLast? = some c) : isSpace c = false := by
  rw [trimmed, List.getLast?_reverse] at h
  have hhead := List.head?_dropWhile_not isSpace (s.dropWhile isSpace).reverse
  rw [h] at hhead
  simpa using hhead

theorem head?_trimmed {c : Char} (h : (trimmed s).head? = some c) : isSpace c = false := by
  obtain ⟨u, hu⟩ : trimmed s <+: s.dropWhile isSpace := by
    rw [trimmed, ← List.reverse_suffix, List.reverse_reverse]
    exact List.dropWhile_suffix _
  have hhead := List.head?_dropWhile_not isSpace s
  rw [← hu, List.head?_append, h] at hhead
  simpa using hhead

theorem flush_trimmed (s : QString) : Flush (trimmed s) :=
  ⟨fun _ => head?_trimmed, fun _ => getLast?_trimmed⟩

theorem exists_trimmed (s : QString) :
    ∃ a b, (∀ c ∈ a, isSpace c = true) ∧ (∀ c ∈ b, isSpace c = true) ∧ s = a ++ trimmed s ++ b := by
  have hback := @List.takeWhile_append_dropWhile _ isSpace (s.dropWhile isSpace).reverse
  have hmid : s.dropWhile isSpace =
      trimmed s ++ ((s.dropWhile isSpace).reverse.takeWhile isSpace).reverse := by
    rw [trimmed, ← List.reverse_append, hback, List.reverse_reverse]
  refine ⟨s.takeWhile isSpace, ((s.dropWhile isSpace).reverse.takeWhile isSpace).reverse,
    fun _ => List.mem_takeWhile_imp,
    fun _ hc => List.mem_takeWhile_imp (List.mem_reverse.mp hc), ?_⟩
  rw [List.append_assoc, ← hmid, List.takeWhile_append_dropWhile]

theorem length_trimmed_eq (h : (trimmed s).length = s.length) : trimmed s = s :=
  (trimmed_sublist s).eq_of_length h

theorem trimmed_eq_self_iff : trimmed s = s ↔ Flush s :=
  ⟨fun h => h ▸ flush_trimmed s, trimmed_flush⟩

end Trim

end Qt
