import MacXterm.Core.Store

namespace Core

open Qt

namespace Tables

def foldersOf (t : Tables) (parentId : Nat) : List FolderRow :=
  t.sessionFolder.filter fun r => r.parentId = some parentId

def sessionsOf (t : Tables) (folderId : Nat) : List SessionRow :=
  t.session.filter fun r => r.folderId = folderId

def paramsOf (t : Tables) (sessionId : Nat) : List ParamRow :=
  t.sessionParam.filter fun r => r.sessionId = sessionId

end Tables

-- The port column is never NULL, since `port()` always gives a number.
def readColumns (row : SessionRow) : Session :=
  let s : Session := ⟨row.name, sessionTypeFromString row.type, .empty⟩
  let s := match row.host with
    | some h => s.setHost h
    | none => s
  let s := s.setPort row.port
  let s := match row.username with
    | some u => s.setUsername u
    | none => s
  let ref := row.vaultRef.getD []
  if ref ≠ [] then s.setParam "vault_ref" ref else s

def readSession (t : Tables) (row : SessionRow) : Session :=
  (t.paramsOf row.id).foldl (fun s r => s.setParam r.key r.value) (readColumns row)

-- None where the folders nest deeper than the fuel.
def fill (t : Tables) : Nat → Nat → QString → Option SessionFolder
  | 0, _, _ => none
  | fuel + 1, folderId, name =>
      ((t.foldersOf folderId).mapM fun r => fill t fuel r.id r.name).map fun folders =>
        ⟨name, folders, (t.sessionsOf folderId).map (readSession t)⟩

def loadTree (t : Tables) : Option SessionFolder :=
  match t.sessionFolder.find? fun r => r.parentId = none with
  | none => some ⟨"Sessions", [], []⟩
  | some row => fill t t.sessionFolder.length row.id row.name

namespace SessionFolder

mutual

def totalSessions : SessionFolder → Nat
  | ⟨_, folders, sessions⟩ => sessions.length + totalInFolders folders

def totalInFolders : List SessionFolder → Nat
  | [] => 0
  | f :: fs => totalSessions f + totalInFolders fs

end

mutual

def folderCount : SessionFolder → Nat
  | ⟨_, folders, _⟩ => 1 + folderCounts folders

def folderCounts : List SessionFolder → Nat
  | [] => 0
  | f :: fs => folderCount f + folderCounts fs

end

mutual

def AllSessions (P : Session → Prop) : SessionFolder → Prop
  | ⟨_, folders, sessions⟩ => (∀ s ∈ sessions, P s) ∧ AllInFolders P folders

def AllInFolders (P : Session → Prop) : List SessionFolder → Prop
  | [] => True
  | f :: fs => AllSessions P f ∧ AllInFolders P fs

end

mutual

def mapSessions (g : Session → Session) : SessionFolder → SessionFolder
  | ⟨name, folders, sessions⟩ => ⟨name, mapInFolders g folders, sessions.map g⟩

def mapInFolders (g : Session → Session) : List SessionFolder → List SessionFolder
  | [] => []
  | f :: fs => mapSessions g f :: mapInFolders g fs

end

mutual

theorem mapSessions_eq_iff (g : Session → Session) :
    ∀ f, mapSessions g f = f ↔ AllSessions (fun s => g s = s) f
  | ⟨name, folders, sessions⟩ => by
    have hsessions : sessions.map g = sessions ↔ ∀ s ∈ sessions, g s = s := by
      simpa using @List.map_inj_left _ _ sessions g id
    rw [mapSessions, AllSessions, SessionFolder.mk.injEq, mapInFolders_eq_iff g folders, hsessions]
    simp [and_comm]

theorem mapInFolders_eq_iff (g : Session → Session) :
    ∀ fs, mapInFolders g fs = fs ↔ AllInFolders (fun s => g s = s) fs
  | [] => by simp [mapInFolders, AllInFolders]
  | f :: fs => by
    rw [mapInFolders, AllInFolders, List.cons.injEq, mapSessions_eq_iff g f,
      mapInFolders_eq_iff g fs]

end

end SessionFolder

def reloaded (s : Session) : Session :=
  if s.params.contains "port" then s else s.setPort s.port

theorem find_foldl_setParam (es : List (QString × QString)) (s : Session) (key : QString)
    (h : es.Pairwise fun a b => units a.1 < units b.1) :
    (es.foldl (fun s e => s.setParam e.1 e.2) s).params.find key =
      (es.lookup key).or (s.params.find key) := by
  induction es generalizing s with
  | nil => simp
  | cons e es ih =>
    obtain ⟨he, hes⟩ := List.pairwise_cons.mp h
    rw [List.foldl_cons, ih _ hes, Session.find_setParam, QMap.lookup_entry]
    by_cases hk : key = e.1
    · rw [QMap.lookup_later (hk ▸ he)]
      simp [hk]
    · simp [hk]

theorem foldl_setParam_keeps (es : List (QString × QString)) (s : Session) :
    (es.foldl (fun s e => s.setParam e.1 e.2) s).name = s.name ∧
      (es.foldl (fun s e => s.setParam e.1 e.2) s).type = s.type := by
  induction es generalizing s with
  | nil => exact ⟨rfl, rfl⟩
  | cons e es ih => exact ih _

theorem readColumns_keeps (row : SessionRow) :
    (readColumns row).name = row.name ∧
      (readColumns row).type = sessionTypeFromString row.type := by
  unfold readColumns
  cases row.host <;> cases row.username <;> constructor <;> dsimp only <;> split <;> rfl

theorem find_setColumn (s : Session) {k key : QString} {v : Option QString}
    (h : v ≠ none → key ≠ k) :
    (match v with
      | some x => s.setParam k x
      | none => s).params.find key = s.params.find key := by
  split
  · rw [Session.find_setParam, if_neg (h (by simp))]
  · rfl

theorem find_readColumns {row : SessionRow} {key : QString}
    (hhost : row.host ≠ none → key ≠ "host") (huser : row.username ≠ none → key ≠ "username")
    (href : row.vaultRef.getD [] ≠ [] → key ≠ "vault_ref") :
    (readColumns row).params.find key =
      if key = "port" then some (number row.port) else none := by
  simp only [readColumns, Session.setHost, Session.setUsername, Session.setPort]
  by_cases hset : row.vaultRef.getD [] ≠ []
  · rw [if_pos hset, Session.find_setParam, if_neg (href hset), find_setColumn _ huser,
      Session.find_setParam, find_setColumn _ hhost]
    rfl
  · rw [if_neg hset, find_setColumn _ huser, Session.find_setParam, find_setColumn _ hhost]
    rfl

theorem find_reloaded (s : Session) (key : QString) :
    (reloaded s).params.find key =
      (s.params.find key).or (if key = "port" then some (number s.port) else none) := by
  unfold reloaded
  by_cases hport : s.params.contains "port" = true
  · rw [if_pos hport]
    by_cases hk : key = "port"
    · obtain ⟨v, hv⟩ := Option.ne_none_iff_exists'.mp (QMap.contains_iff.mp hport)
      rw [hk, hv]
      rfl
    · rw [if_neg hk, Option.or_none]
  · rw [if_neg hport, Session.setPort, Session.find_setParam]
    by_cases hk : key = "port"
    · have hnone := not_not.mp fun h => hport (QMap.contains_iff.mpr h)
      rw [if_pos hk, if_pos hk, hk, hnone]
      rfl
    · rw [if_neg hk, if_neg hk, Option.or_none]

theorem reloaded_keeps (s : Session) : (reloaded s).name = s.name ∧ (reloaded s).type = s.type := by
  unfold reloaded
  split <;> exact ⟨rfl, rfl⟩

theorem readSession_sessionRow {t : Tables} {sid : Nat} (folderId : Nat) {s : Session}
    (h : t.paramsOf sid = s.params.entries.map fun e => ⟨sid, e.1, e.2⟩) :
    readSession t (sessionRow sid folderId s) = reloaded s := by
  have hfold : readSession t (sessionRow sid folderId s) =
      s.params.entries.foldl (fun s e => s.setParam e.1 e.2)
        (readColumns (sessionRow sid folderId s)) := by
    rw [readSession, show (sessionRow sid folderId s).id = sid from rfl, h, List.foldl_map]
  obtain ⟨hname, htype⟩ := foldl_setParam_keeps s.params.entries
    (readColumns (sessionRow sid folderId s))
  obtain ⟨hname', htype'⟩ := readColumns_keeps (sessionRow sid folderId s)
  rw [hfold]
  refine Session.ext (hname.trans (hname'.trans (reloaded_keeps s).1.symm))
    ((htype.trans htype').trans ?_) (QMap.ext_find fun key => ?_)
  · exact (sessionTypeFromString_toString s.type).trans (reloaded_keeps s).2.symm
  · rw [find_foldl_setParam _ _ _ s.params.sorted, find_reloaded]
    change (s.params.find key).or _ = _
    cases hk : s.params.find key with
    | some v => rfl
    | none =>
      have hne {k : QString} (hset : s.params.find k ≠ none) : key ≠ k := fun he => hset (he ▸ hk)
      rw [find_readColumns hne hne fun hset => hne fun hnone => hset (congrArg (·.getD []) hnone)]
      rfl

theorem reloaded_eq_iff (s : Session) : reloaded s = s ↔ s.params.contains "port" = true := by
  unfold reloaded
  split
  · rename_i h
    exact iff_of_true rfl h
  · rename_i h
    refine iff_of_false (fun he => h ?_) h
    rw [← he, Session.setPort, QMap.contains_iff, Session.find_setParam, if_pos rfl]
    exact Option.some_ne_none _

end Core
