import MacXterm.Core.Session
import MacXterm.Lib.Grouping

namespace Core

open Qt Bucket

-- The label is the folder, the members are the sessions.
abbrev FolderGroup := Bucket QString Session

def folderOf (s : Session) : QString := s.param "folder"

-- The lambda `indexOf` of groupSessionsByFolder, which may append a group.
def indexOf (groups : List FolderGroup) (folder : QString) : List FolderGroup × Nat :=
  match groups.findIdx? fun g => g.label == folder with
  | some i => (groups, i)
  | none => (groups ++ [⟨folder, []⟩], groups.length)

def addToGroup (groups : List FolderGroup) (s : Session) : List FolderGroup :=
  let (groups, i) := indexOf groups (folderOf s)
  groups.modify i (·.push s)

def groupSessionsByFolder (sessions : List Session) : List FolderGroup :=
  match sessions.foldl addToGroup [⟨[], []⟩] with
  | [] => []
  | loose :: groups => if loose.members = [] then groups else loose :: groups

def addName (names : List QString) (s : Session) : List QString :=
  if folderOf s ≠ [] ∧ folderOf s ∉ names then names ++ [folderOf s] else names

def folderNames (sessions : List Session) : List QString := sessions.foldl addName []

theorem findIdx?_classes (labels : List QString) (sessions : List Session) (folder : QString) :
    (classes folderOf labels sessions).findIdx? (fun g => g.label == folder) =
      labels.idxOf? folder := by
  rw [classes, List.findIdx?_map]
  rfl

theorem addToGroup_old {labels : List QString} (hnodup : labels.Nodup) {s : Session}
    (h : folderOf s ∈ labels) (sessions : List Session) :
    addToGroup (classes folderOf labels sessions) s =
      classes folderOf labels (sessions ++ [s]) := by
  obtain ⟨i, hi⟩ := Option.isSome_iff_exists.mp (List.isSome_idxOf?.mpr h)
  obtain ⟨hlt, hlabel, -⟩ := List.idxOf?_eq_some_iff.mp hi
  have hget : labels[i]? = some (folderOf s) := by rw [List.getElem?_eq_getElem hlt, hlabel]
  rw [addToGroup, indexOf, findIdx?_classes, hi]
  exact classes_push folderOf hnodup hget sessions

theorem modify_last (groups : List FolderGroup) (g : FolderGroup) (s : Session) :
    (groups ++ [g]).modify groups.length (·.push s) = groups ++ [g.push s] := by
  induction groups with
  | nil => rfl
  | cons first groups ih =>
    rw [List.cons_append, List.length_cons, List.modify_succ_cons, ih, List.cons_append]

theorem addToGroup_new {labels : List QString} {sessions : List Session}
    (hcover : ∀ t ∈ sessions, folderOf t ∈ labels) {s : Session} (h : folderOf s ∉ labels) :
    addToGroup (classes folderOf labels sessions) s =
      classes folderOf (labels ++ [folderOf s]) (sessions ++ [s]) := by
  have hindex : labels.idxOf? (folderOf s) = none := List.idxOf?_eq_none_iff.mpr h
  rw [addToGroup, indexOf, findIdx?_classes, hindex]
  dsimp only
  rw [modify_last, ← classes_new folderOf hcover h]
  rfl

theorem addToGroup_classes {labels : List QString} (hnodup : labels.Nodup)
    {sessions : List Session} (hcover : ∀ t ∈ sessions, folderOf t ∈ labels) (s : Session) :
    addToGroup (classes folderOf labels sessions) s =
      classes folderOf (note labels (folderOf s)) (sessions ++ [s]) := by
  by_cases h : folderOf s ∈ labels
  · rw [addToGroup_old hnodup h, note, if_pos h]
  · rw [addToGroup_new hcover h, note, if_neg h]

theorem foldl_addToGroup {labels : List QString} (hnodup : labels.Nodup)
    {before : List Session} (hcover : ∀ t ∈ before, folderOf t ∈ labels)
    (sessions : List Session) :
    sessions.foldl addToGroup (classes folderOf labels before) =
      classes folderOf (noteAll folderOf labels sessions) (before ++ sessions) := by
  induction sessions generalizing labels before with
  | nil => rw [List.foldl_nil, List.append_nil, noteAll, List.foldl_nil]
  | cons s sessions ih =>
    have hcover' : ∀ t ∈ before ++ [s], folderOf t ∈ note labels (folderOf s) := by
      intro t ht
      rw [mem_note]
      rcases List.mem_append.mp ht with ht | ht
      · exact .inl (hcover t ht)
      · exact .inr (by rw [List.mem_singleton.mp ht])
    rw [List.foldl_cons, addToGroup_classes hnodup hcover, ih (nodup_note hnodup _) hcover',
      List.append_assoc]
    rfl

theorem note_addName (names : List QString) (s : Session) :
    note ([] :: names) (folderOf s) = [] :: addName names s := by
  unfold note addName
  by_cases hloose : folderOf s = []
  · rw [if_pos (by simp [hloose]), if_neg (by simp [hloose])]
  · by_cases hmem : folderOf s ∈ names
    · rw [if_pos (List.mem_cons_of_mem _ hmem), if_neg (fun h => h.2 hmem)]
    · rw [if_neg (by simp [hloose, hmem]), if_pos ⟨hloose, hmem⟩, List.cons_append]

theorem noteAll_addName (names : List QString) (sessions : List Session) :
    noteAll folderOf ([] :: names) sessions = [] :: sessions.foldl addName names := by
  induction sessions generalizing names with
  | nil => rfl
  | cons s sessions ih =>
    have hstep : noteAll folderOf ([] :: names) (s :: sessions) =
        noteAll folderOf (note ([] :: names) (folderOf s)) sessions := rfl
    rw [hstep, note_addName, ih, List.foldl_cons]

theorem noteAll_loose (sessions : List Session) :
    noteAll folderOf [[]] sessions = [] :: folderNames sessions := noteAll_addName [] sessions

theorem nodup_loose_folderNames (sessions : List Session) : ([] :: folderNames sessions).Nodup := by
  rw [← noteAll_loose]
  exact nodup_noteAll folderOf (List.nodup_singleton []) sessions

theorem mem_folderNames {sessions : List Session} {folder : QString} :
    folder ∈ folderNames sessions ↔ folder ≠ [] ∧ ∃ s ∈ sessions, folderOf s = folder := by
  have hmem : folder ∈ noteAll folderOf [[]] sessions ↔
      folder ∈ [[]] ∨ ∃ s ∈ sessions, folderOf s = folder := mem_noteAll folderOf
  rw [noteAll_loose, List.mem_cons, List.mem_singleton] at hmem
  have hloose := (List.nodup_cons.mp (nodup_loose_folderNames sessions)).1
  constructor
  · intro h
    have hne : folder ≠ [] := fun heq => hloose (heq ▸ h)
    exact ⟨hne, (hmem.mp (.inr h)).resolve_left hne⟩
  · rintro ⟨hne, h⟩
    exact (hmem.mpr (.inr h)).resolve_left hne

theorem foldl_addToGroup_loose (sessions : List Session) :
    sessions.foldl addToGroup [⟨[], []⟩] =
      classes folderOf ([] :: folderNames sessions) sessions := by
  have hstart : ∀ s ∈ ([] : List Session), folderOf s ∈ [([] : QString)] := nofun
  have hrun := foldl_addToGroup (List.nodup_singleton []) hstart sessions
  rwa [noteAll_loose, List.nil_append] at hrun

def looseLabel (sessions : List Session) : List QString :=
  if ∃ s ∈ sessions, folderOf s = [] then [[]] else []

theorem groupSessionsByFolder_eq (sessions : List Session) :
    groupSessionsByFolder sessions =
      classes folderOf (looseLabel sessions ++ folderNames sessions) sessions := by
  rw [groupSessionsByFolder, foldl_addToGroup_loose, classes_cons]
  dsimp only
  have hempty : (sessions.filter fun s => folderOf s = []) = [] ↔
      ¬∃ s ∈ sessions, folderOf s = [] := by
    rw [List.filter_eq_nil_iff]
    simp
  by_cases hloose : ∃ s ∈ sessions, folderOf s = []
  · rw [if_neg (fun h => hempty.mp h hloose), looseLabel, if_pos hloose]
    rfl
  · rw [if_pos (hempty.mpr hloose), looseLabel, if_neg hloose, List.nil_append]

structure StablePartition (sessions : List Session) (groups : List FolderGroup) : Prop where
  once : (groups.flatMap members).Perm sessions
  in_order : ∀ g ∈ groups, g.members = sessions.filter fun s => s.param "folder" = g.label
  distinct : (groups.map label).Nodup
  not_empty : ∀ g ∈ groups, g.members ≠ []
  labels : groups.map label =
    (if ∃ s ∈ sessions, s.param "folder" = [] then [[]] else []) ++ folderNames sessions

theorem nodup_labels (sessions : List Session) :
    (looseLabel sessions ++ folderNames sessions).Nodup := by
  unfold looseLabel
  split
  · exact nodup_loose_folderNames sessions
  · exact (List.nodup_cons.mp (nodup_loose_folderNames sessions)).2

theorem mem_labels {sessions : List Session} {folder : QString} :
    folder ∈ looseLabel sessions ++ folderNames sessions ↔
      ∃ s ∈ sessions, folderOf s = folder := by
  rw [List.mem_append, mem_folderNames, looseLabel]
  by_cases hne : folder = []
  · subst hne
    split
    · rename_i h
      exact iff_of_true (.inl (List.mem_singleton_self _)) h
    · rename_i h
      exact iff_of_false (by simp) h
  · split
    · simp [hne]
    · simp [hne]

theorem groupSessionsByFolder_stable (sessions : List Session) :
    StablePartition sessions (groupSessionsByFolder sessions) := by
  rw [groupSessionsByFolder_eq]
  have hlabels := labels_classes folderOf (looseLabel sessions ++ folderNames sessions) sessions
  refine ⟨?_, ?_, ?_, ?_, hlabels⟩
  · exact perm_classes folderOf (nodup_labels sessions) fun s hs => mem_labels.mpr ⟨s, hs, rfl⟩
  · intro g hg
    obtain ⟨folder, -, rfl⟩ := List.mem_map.mp hg
    rfl
  · rw [hlabels]
    exact nodup_labels sessions
  · intro g hg hnone
    obtain ⟨folder, hfolder, rfl⟩ := List.mem_map.mp hg
    obtain ⟨s, hs, hsame⟩ := mem_labels.mp hfolder
    have hmem : s ∈ sessions.filter fun s => folderOf s = folder :=
      List.mem_filter.mpr ⟨hs, decide_eq_true hsame⟩
    exact List.ne_nil_of_mem hmem hnone

end Core
