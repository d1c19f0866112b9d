import MacXterm.Qt.Map
import Mathlib.Data.List.Nodup

namespace Qt.QHash

variable {κ ν : Type} [DecidableEq κ] {h : QHash κ ν}

theorem nodup_insert (hkeys : (h.map (·.1)).Nodup) (k : κ) (v : ν) :
    ((h.insert k v).map (·.1)).Nodup := by
  rw [insert, List.map_cons, List.nodup_cons]
  refine ⟨fun hmem => ?_, hkeys.sublist (List.filter_sublist.map _)⟩
  obtain ⟨e, he, hk⟩ := List.mem_map.mp hmem
  exact absurd hk (of_decide_eq_true (List.mem_filter.mp he).2)

theorem find_foldl_erase (ks : List κ) (h : QHash κ ν) (k : κ) :
    (ks.foldl erase h).find k = if k ∈ ks then none else h.find k := by
  induction ks generalizing h with
  | nil => rfl
  | cons j ks ih =>
    rw [List.foldl_cons, ih, find_erase]
    by_cases hk : k = j
    · simp [hk]
    · simp [hk]

theorem nodup_foldl_erase (ks : List κ) (hkeys : (h.map (·.1)).Nodup) :
    ((ks.foldl erase h).map (·.1)).Nodup := by
  induction ks generalizing h with
  | nil => exact hkeys
  | cons k ks ih => exact ih (hkeys.sublist (List.filter_sublist.map _))

theorem mem_of_find {k : κ} {v : ν} (hfind : h.find k = some v) : (k, v) ∈ h := by
  obtain ⟨a, b, hab, -⟩ := List.lookup_eq_some_iff.mp hfind
  simp [hab]

theorem find_of_mem (hkeys : (h.map (·.1)).Nodup) {k : κ} {v : ν} (hmem : (k, v) ∈ h) :
    h.find k = some v := by
  induction h with
  | nil => cases hmem
  | cons e h ih =>
    rw [List.map_cons, List.nodup_cons] at hkeys
    rw [find, QMap.lookup_entry]
    rcases List.mem_cons.mp hmem with rfl | hmem
    · rw [if_pos rfl]
    · have hne : k ≠ e.1 := fun heq => hkeys.1 (List.mem_map.mpr ⟨(k, v), hmem, heq⟩)
      rw [if_neg hne]
      exact ih hkeys.2 hmem

end Qt.QHash
