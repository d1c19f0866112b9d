import MacXterm.Core.IniStore

namespace Core

open Qt

namespace SessionFolder

def ValidName (name : QString) : Prop := name ≠ [] ∧ '/' ∉ name ∧ '\n' ∉ name

mutual

-- Below the root every name can stand in a path, and no two folders of one folder share it.
def Tidy : SessionFolder → Prop
  | ⟨_, folders, _⟩ => (folders.map name).Nodup ∧ TidyFolders folders

def TidyFolders : List SessionFolder → Prop
  | [] => True
  | f :: fs => ValidName f.name ∧ Tidy f ∧ TidyFolders fs

end

mutual

def merge (g : Session → Session) : SessionFolder → SessionFolder → SessionFolder
  | ⟨_, folders, sessions⟩, into =>
      mergeFolders g folders { into with sessions := into.sessions ++ sessions.map g }

def mergeFolders (g : Session → Session) : List SessionFolder → SessionFolder → SessionFolder
  | [], into => into
  | f :: fs, into =>
      mergeFolders g fs { into with folders := updateChild f.name (merge g f) into.folders }

end

end SessionFolder

open SessionFolder

theorem updateChild_updateChild {c : SessionFolder → SessionFolder} (hc : ∀ f, (c f).name = f.name)
    (d : SessionFolder → SessionFolder) (name : QString) (fs : List SessionFolder) :
    updateChild name d (updateChild name c fs) = updateChild name (fun f => d (c f)) fs := by
  induction fs with
  | nil => simp [updateChild, hc]
  | cons f fs ih =>
    by_cases hf : f.name = name
    · simp [updateChild, hf, hc]
    · simp [updateChild, hf, ih]

theorem modifyAt_name {c : SessionFolder → SessionFolder} (hc : ∀ f, (c f).name = f.name)
    (parts : List QString) (f : SessionFolder) : (modifyAt c parts f).name = f.name := by
  cases parts with
  | nil => exact hc f
  | cons part parts => rfl

theorem modifyAt_modifyAt {c : SessionFolder → SessionFolder} (hc : ∀ f, (c f).name = f.name)
    (d : SessionFolder → SessionFolder) (parts : List QString) (f : SessionFolder) :
    modifyAt d parts (modifyAt c parts f) = modifyAt (fun f => d (c f)) parts f := by
  induction parts generalizing f with
  | nil => rfl
  | cons part parts ih =>
    have hkeep (f : SessionFolder) : (modifyAt c parts f).name = f.name := modifyAt_name hc parts f
    simp only [modifyAt, updateChild_updateChild hkeep]
    congr 2
    exact funext ih

theorem modifyAt_append (c : SessionFolder → SessionFolder) (parts : List QString) (name : QString)
    (f : SessionFolder) :
    modifyAt c (parts ++ [name]) f =
      modifyAt (fun f => { f with folders := updateChild name c f.folders }) parts f := by
  induction parts generalizing f with
  | nil => rfl
  | cons part parts ih =>
    simp only [List.cons_append, modifyAt]
    congr 2
    exact funext ih

theorem updateChild_new {name : QString} {fs : List SessionFolder}
    (h : name ∉ fs.map SessionFolder.name) (c : SessionFolder → SessionFolder) :
    updateChild name c fs = fs ++ [c ⟨name, [], []⟩] := by
  induction fs with
  | nil => rfl
  | cons f fs ih =>
    rw [List.map_cons, List.mem_cons, not_or] at h
    rw [updateChild, if_neg (Ne.symm h.1), ih h.2, List.cons_append]

theorem names_updateChild {c : SessionFolder → SessionFolder} (hc : ∀ f, (c f).name = f.name)
    (name : QString) (fs : List SessionFolder) :
    (updateChild name c fs).map SessionFolder.name =
      if name ∈ fs.map SessionFolder.name then fs.map SessionFolder.name
      else fs.map SessionFolder.name ++ [name] := by
  induction fs with
  | nil => simp [updateChild, hc]
  | cons f fs ih =>
    by_cases hf : f.name = name
    · simp [updateChild, hf, hc]
    · rw [updateChild, if_neg hf, List.map_cons, ih, List.map_cons]
      by_cases hm : name ∈ fs.map SessionFolder.name
      · rw [if_pos hm, if_pos (List.mem_cons_of_mem _ hm)]
      · rw [if_neg hm, if_neg (List.not_mem_cons_of_ne_of_not_mem (Ne.symm hf) hm),
          List.cons_append]

mutual

theorem merge_name (g : Session → Session) : ∀ f into, (merge g f into).name = into.name
  | ⟨_, folders, sessions⟩, into => by
    rw [merge, mergeFolders_name g folders]

theorem mergeFolders_name (g : Session → Session) :
    ∀ fs into, (mergeFolders g fs into).name = into.name
  | [], into => rfl
  | f :: fs, into => by
    rw [mergeFolders, mergeFolders_name g fs]

end

mutual

theorem merge_new (g : Session → Session) :
    ∀ f, Tidy f → merge g f ⟨f.name, [], []⟩ = mapSessions g f
  | ⟨name, folders, sessions⟩, h => by
    obtain ⟨hnodup, htidy⟩ := h
    rw [merge, mergeFolders_new g folders _ htidy (by simpa using hnodup), mapSessions]
    rfl

theorem mergeFolders_new (g : Session → Session) :
    ∀ fs into, TidyFolders fs → (into.folders.map name ++ fs.map name).Nodup →
      mergeFolders g fs into = { into with folders := into.folders ++ mapInFolders g fs }
  | [], ⟨_, _, _⟩, _, _ => by
    rw [mergeFolders, mapInFolders, List.append_nil]
  | f :: fs, into, h, hnodup => by
    obtain ⟨-, hf, hfs⟩ := h
    have hnew : f.name ∉ into.folders.map name := by
      intro hmem
      exact (List.disjoint_of_nodup_append hnodup) hmem List.mem_cons_self
    have hname : (mapSessions g f).name = f.name := by
      rw [← merge_new g f hf, merge_name]
    rw [mergeFolders, updateChild_new hnew, merge_new g f hf, mergeFolders_new g fs _ hfs]
    · simp [mapInFolders]
    · simpa [hname] using hnodup

end

theorem tidyFolders_iff (fs : List SessionFolder) :
    TidyFolders fs ↔ ∀ f ∈ fs, ValidName f.name ∧ Tidy f := by
  induction fs with
  | nil => simp [TidyFolders]
  | cons f fs ih => simp [TidyFolders, ih, and_assoc]

theorem allInFolders_iff (P : Session → Prop) (fs : List SessionFolder) :
    AllInFolders P fs ↔ ∀ f ∈ fs, AllSessions P f := by
  induction fs with
  | nil => simp [AllInFolders]
  | cons f fs ih => simp [AllInFolders, ih]

mutual

theorem allSessions_both {P Q R : Session → Prop} (h : ∀ s, P s → Q s → R s) :
    ∀ f, AllSessions P f → AllSessions Q f → AllSessions R f
  | ⟨_, folders, _⟩, ⟨hp, hps⟩, ⟨hq, hqs⟩ =>
    ⟨fun s hs => h s (hp s hs) (hq s hs), allInFolders_both h folders hps hqs⟩

theorem allInFolders_both {P Q R : Session → Prop} (h : ∀ s, P s → Q s → R s) :
    ∀ fs, AllInFolders P fs → AllInFolders Q fs → AllInFolders R fs
  | [], _, _ => trivial
  | f :: fs, ⟨hp, hps⟩, ⟨hq, hqs⟩ =>
    ⟨allSessions_both h f hp hq, allInFolders_both h fs hps hqs⟩

end

theorem mem_updateChild {name : QString} {c : SessionFolder → SessionFolder}
    {fs : List SessionFolder} {f : SessionFolder} (h : f ∈ updateChild name c fs) :
    f ∈ fs ∨ f = c ⟨name, [], []⟩ ∨ ∃ d ∈ fs, d.name = name ∧ f = c d := by
  induction fs with
  | nil => exact .inr (.inl (List.mem_singleton.mp h))
  | cons d fs ih =>
    rw [updateChild] at h
    split at h
    · rename_i hd
      rcases List.mem_cons.mp h with rfl | h
      · exact .inr (.inr ⟨d, List.mem_cons_self, hd, rfl⟩)
      · exact .inl (List.mem_cons_of_mem _ h)
    · rcases List.mem_cons.mp h with rfl | h
      · exact .inl List.mem_cons_self
      · rcases ih h with h | h | ⟨x, hx, hname, rfl⟩
        · exact .inl (List.mem_cons_of_mem _ h)
        · exact .inr (.inl h)
        · exact .inr (.inr ⟨x, List.mem_cons_of_mem _ hx, hname, rfl⟩)

theorem modifyAt_tidy {c : SessionFolder → SessionFolder} (hc : ∀ f, (c f).name = f.name)
    (htidy : ∀ f, Tidy f → Tidy (c f)) {parts : List QString} (hparts : ∀ p ∈ parts, ValidName p)
    {f : SessionFolder} (hf : Tidy f) : Tidy (modifyAt c parts f) := by
  induction parts generalizing f with
  | nil => exact htidy f hf
  | cons part parts ih =>
    obtain ⟨name, folders, sessions⟩ := f
    obtain ⟨hnodup, hfolders⟩ := hf
    have hpart := hparts part List.mem_cons_self
    have hrec {f : SessionFolder} (hf : Tidy f) : Tidy (modifyAt c parts f) :=
      ih (fun p hp => hparts p (List.mem_cons_of_mem _ hp)) hf
    have hkeep (f : SessionFolder) : (modifyAt c parts f).name = f.name := modifyAt_name hc parts f
    rw [tidyFolders_iff] at hfolders
    refine ⟨?_, (tidyFolders_iff _).mpr fun f hf => ?_⟩
    · rw [names_updateChild hkeep]
      split
      · exact hnodup
      · rename_i hnew
        exact List.nodup_append.mpr ⟨hnodup, List.nodup_singleton _, fun a ha b hb he =>
          hnew (List.mem_singleton.mp hb ▸ he ▸ ha)⟩
    · rcases mem_updateChild hf with hf | rfl | ⟨d, hd, hname, rfl⟩
      · exact hfolders f hf
      · exact ⟨(hkeep _).symm ▸ hpart, hrec ⟨List.nodup_nil, trivial⟩⟩
      · exact ⟨(hkeep d).symm ▸ (hfolders d hd).1, hrec (hfolders d hd).2⟩

theorem modifyAt_allSessions {P : Session → Prop} {c : SessionFolder → SessionFolder}
    (hc : ∀ f, AllSessions P f → AllSessions P (c f)) (parts : List QString) {f : SessionFolder}
    (hf : AllSessions P f) : AllSessions P (modifyAt c parts f) := by
  induction parts generalizing f with
  | nil => exact hc f hf
  | cons part parts ih =>
    obtain ⟨name, folders, sessions⟩ := f
    obtain ⟨hsessions, hfolders⟩ := hf
    rw [allInFolders_iff] at hfolders
    refine ⟨hsessions, (allInFolders_iff P _).mpr fun f hf => ?_⟩
    rcases mem_updateChild hf with hf | rfl | ⟨d, hd, -, rfl⟩
    · exact hfolders f hf
    · exact ih ⟨nofun, trivial⟩
    · exact ih (hfolders d hd)

theorem totalInFolders_updateChild {c : SessionFolder → SessionFolder} {k : Nat}
    (hc : ∀ f, totalSessions (c f) = totalSessions f + k) (name : QString)
    (fs : List SessionFolder) :
    totalInFolders (updateChild name c fs) = totalInFolders fs + k := by
  induction fs with
  | nil => simp [updateChild, totalInFolders, hc, totalSessions]
  | cons f fs ih =>
    rw [updateChild]
    split
    · rw [totalInFolders, totalInFolders, hc]
      omega
    · rw [totalInFolders, totalInFolders, ih]
      omega

theorem totalSessions_modifyAt {c : SessionFolder → SessionFolder} {k : Nat}
    (hc : ∀ f, totalSessions (c f) = totalSessions f + k) (parts : List QString)
    (f : SessionFolder) : totalSessions (modifyAt c parts f) = totalSessions f + k := by
  induction parts generalizing f with
  | nil => exact hc f
  | cons part parts ih =>
    obtain ⟨name, folders, sessions⟩ := f
    rw [modifyAt, totalSessions, totalSessions, totalInFolders_updateChild ih, Nat.add_assoc]

end Core
