import Mathlib.Data.List.Nodup
import Mathlib.Data.List.Perm.Subperm
import MacXterm.Core.Session

namespace Core

open Qt

structure SessionFolder where
  name : QString
  folders : List SessionFolder
  sessions : List Session

namespace SessionFolder

def addSession (f : SessionFolder) (s : Session) : SessionFolder :=
  { f with sessions := f.sessions ++ [s] }

mutual

def findSession (name : QString) : SessionFolder → Option Session
  | ⟨_, folders, sessions⟩ =>
      (sessions.find? fun s => s.name = name).or (findInFolders name folders)

def findInFolders (name : QString) : List SessionFolder → Option Session
  | [] => none
  | f :: fs => (findSession name f).or (findInFolders name fs)

end

end SessionFolder

def find (list : List Session) (name : QString) : Option Nat :=
  list.findIdx? fun s => s.name = name

def renameSessionInList (list : List Session) (oldName newName : QString) :
    Bool × List Session :=
  let target := trimmed newName
  if target = [] then (false, list)
  else
    match find list oldName with
    | none => (false, list)
    | some self =>
        if target = oldName then (true, list)
        else if (list.eraseIdx self).any fun s => s.name = target then (false, list)
        else (true, list.modify self fun s => s.setName target)

def setParamInList (list : List Session) (name key value : QString) : Bool × List Session :=
  match find list name with
  | none => (false, list)
  | some i => (true, list.modify i fun s => s.setParam key value)

def moveSessionToFolder (list : List Session) (name folder : QString) : Bool × List Session :=
  setParamInList list name "folder" (trimmed folder)

def setSessionIcon (list : List Session) (name icon : QString) : Bool × List Session :=
  setParamInList list name "icon" (trimmed icon)

def renameFolderInList (list : List Session) (oldFolder newFolder : QString) :
    Nat × List Session :=
  let target := trimmed newFolder
  let matched (s : Session) : Bool := s.param "folder" = oldFolder
  (list.countP matched, list.map fun s => if matched s then s.setParam "folder" target else s)

def copyName (base : QString) (n : Nat) : QString :=
  if n < 2 then base ++ " (copy)".toList
  else base ++ " (copy ".toList ++ number n ++ ")".toList

def freeCopy (list : List Session) (base : QString) : Nat → Nat → Option QString
  | 0, _ => none
  | fuel + 1, n =>
      if list.any fun s => s.name = copyName base n then freeCopy list base fuel (n + 1)
      else some (copyName base n)

def uniqueCopyName (list : List Session) (base : QString) : Option QString :=
  freeCopy list base (list.length + 1) 1

theorem copyName_ne_nil (base : QString) (n : Nat) : copyName base n ≠ [] := by
  unfold copyName
  split <;> simp

theorem freeCopy_ne_nil {list : List Session} {base name : QString} {fuel n : Nat}
    (h : freeCopy list base fuel n = some name) : name ≠ [] := by
  induction fuel generalizing n with
  | zero => simp [freeCopy] at h
  | succ fuel ih =>
    simp only [freeCopy] at h
    split at h
    · exact ih h
    · obtain rfl : copyName base n = name := by simpa using h
      exact copyName_ne_nil base n

theorem copyName_injective (base : QString) {m n : Nat} (hm : 0 < m) (hn : 0 < n)
    (h : copyName base m = copyName base n) : m = n := by
  have hplain (k : Nat) :
      base ++ " (copy)".toList ≠ base ++ " (copy ".toList ++ number k ++ ")".toList := by
    intro he
    rw [List.append_assoc, List.append_assoc] at he
    have htail := List.append_cancel_left he
    simp at htail
  unfold copyName at h
  split at h <;> split at h
  · omega
  · exact absurd h (hplain n)
  · exact absurd h.symm (hplain m)
  · simp only [List.append_cancel_right_eq, List.append_cancel_left_eq] at h
    exact Int.ofNat_inj.mp (number_injective h)

theorem taken_of_freeCopy {list : List Session} {base : QString} {fuel n : Nat}
    (h : freeCopy list base fuel n = none) :
    ∀ k < fuel, copyName base (n + k) ∈ list.map Session.name := by
  induction fuel generalizing n with
  | zero => intro k hk; omega
  | succ fuel ih =>
    simp only [freeCopy] at h
    split at h
    · rename_i htaken
      intro k hk
      cases k with
      | zero =>
        obtain ⟨s, hs, hname⟩ := List.any_eq_true.mp htaken
        exact List.mem_map.mpr ⟨s, hs, by simpa using hname⟩
      | succ k =>
        have := ih h k (by omega)
        rwa [show n + 1 + k = n + (k + 1) by omega] at this
    · simp at h

theorem uniqueCopyName_isSome (list : List Session) (base : QString) :
    (uniqueCopyName list base).isSome := by
  rw [Option.isSome_iff_ne_none]
  intro h
  let names := (List.range (list.length + 1)).map fun k => copyName base (1 + k)
  have hnodup : names.Nodup := by
    refine List.Nodup.map ?_ List.nodup_range
    intro j k hjk
    have := copyName_injective base (by omega) (by omega) hjk
    omega
  have hsubset : names ⊆ list.map Session.name := by
    intro name hname
    obtain ⟨k, hk, rfl⟩ := List.mem_map.mp hname
    exact taken_of_freeCopy h k (List.mem_range.mp hk)
  have hlength := (List.subperm_of_subset hnodup hsubset).length_le
  simp only [names, List.length_map, List.length_range] at hlength
  omega

def Taken (list : List Session) (name : QString) : Prop := ∃ s ∈ list, s.name = name

instance (list : List Session) (name : QString) : Decidable (Taken list name) :=
  inferInstanceAs (Decidable (∃ s ∈ list, s.name = name))

theorem freeCopy_taken {list : List Session} {base : QString} {n : Nat}
    (h : Taken list (copyName base n)) (fuel : Nat) :
    freeCopy list base (fuel + 1) n = freeCopy list base fuel (n + 1) := by
  obtain ⟨s, hs, hname⟩ := h
  have htaken : (list.any fun s => s.name = copyName base n) = true :=
    List.any_eq_true.mpr ⟨s, hs, decide_eq_true hname⟩
  rw [freeCopy, if_pos htaken]

theorem freeCopy_free {list : List Session} {base : QString} {n : Nat}
    (h : ¬Taken list (copyName base n)) (fuel : Nat) :
    freeCopy list base (fuel + 1) n = some (copyName base n) := by
  have hfree : ¬(list.any fun s => s.name = copyName base n) = true := by
    intro htaken
    obtain ⟨s, hs, hname⟩ := List.any_eq_true.mp htaken
    exact h ⟨s, hs, of_decide_eq_true hname⟩
  rw [freeCopy, if_neg hfree]

-- The first name from the n-th on that no session has.
structure FirstFree (list : List Session) (base : QString) (n k : Nat) : Prop where
  from_start : n ≤ k
  free : ¬Taken list (copyName base k)
  least : ∀ j, n ≤ j → j < k → Taken list (copyName base j)

theorem FirstFree.freeCopy_eq {list : List Session} {base : QString} {n k : Nat}
    (h : FirstFree list base n k) (fuel : Nat) :
    freeCopy list base fuel n = if k < n + fuel then some (copyName base k) else none := by
  have hle := h.from_start
  induction fuel generalizing n with
  | zero => rw [freeCopy, if_neg (by omega)]
  | succ fuel ih =>
    rcases Nat.eq_or_lt_of_le hle with rfl | hlt
    · rw [freeCopy_free h.free, if_pos (by omega)]
    · have htail : FirstFree list base (n + 1) k :=
        ⟨hlt, h.free, fun j hj => h.least j (by omega)⟩
      have hcount : n + 1 + fuel = n + (fuel + 1) := by omega
      rw [freeCopy_taken (h.least n (Nat.le_refl n) hlt), ih htail hlt, hcount]

theorem firstFree_of_freeCopy {list : List Session} {base name : QString} {fuel n : Nat}
    (h : freeCopy list base fuel n = some name) :
    ∃ k, k < n + fuel ∧ FirstFree list base n k := by
  induction fuel generalizing n with
  | zero => cases h
  | succ fuel ih =>
    by_cases htaken : Taken list (copyName base n)
    · rw [freeCopy_taken htaken] at h
      obtain ⟨k, hlt, hk⟩ := ih h
      refine ⟨k, by omega, by have := hk.from_start; omega, hk.free, fun j hj hjk => ?_⟩
      rcases Nat.eq_or_lt_of_le hj with rfl | hlt
      · exact htaken
      · exact hk.least j hlt hjk
    · exact ⟨n, by omega, Nat.le_refl n, htaken, fun j hj hjk => by omega⟩

structure FreshCopy (list : List Session) (base : QString) (k : Nat) : Prop where
  first : FirstFree list base 1 k
  bounded : k ≤ list.length + 1
  result : uniqueCopyName list base = some (copyName base k)
  -- The loop has no bound of its own: it ends at its k-th name and not before.
  ends : ∀ fuel, freeCopy list base fuel 1 = if k ≤ fuel then some (copyName base k) else none

theorem uniqueCopyName_fresh (list : List Session) (base : QString) :
    ∃ k, FreshCopy list base k := by
  obtain ⟨name, hname⟩ := Option.isSome_iff_exists.mp (uniqueCopyName_isSome list base)
  obtain ⟨k, hlt, hk⟩ := firstFree_of_freeCopy hname
  have hends (fuel : Nat) :
      freeCopy list base fuel 1 = if k ≤ fuel then some (copyName base k) else none := by
    have hcount : k < 1 + fuel ↔ k ≤ fuel := by omega
    rw [hk.freeCopy_eq fuel, if_congr hcount rfl rfl]
  refine ⟨k, hk, by omega, ?_, hends⟩
  rw [uniqueCopyName, hends, if_pos (by omega)]

end Core
