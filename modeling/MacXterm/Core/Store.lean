import MacXterm.Core.SessionTree

namespace Core

open Qt

structure FolderRow where
  id : Nat
  parentId : Option Nat
  name : QString
  deriving DecidableEq

structure SessionRow where
  id : Nat
  folderId : Nat
  name : QString
  type : QString
  host : Option QString
  port : Int
  username : Option QString
  vaultRef : Option QString
  deriving DecidableEq

structure ParamRow where
  sessionId : Nat
  key : QString
  value : QString
  deriving DecidableEq

structure Tables where
  sessionFolder : List FolderRow
  session : List SessionRow
  sessionParam : List ParamRow
  deriving DecidableEq

-- INTEGER PRIMARY KEY: SQLite takes the largest id of the table plus one.
def nextId (ids : List Nat) : Nat := ids.foldr max 0 + 1

namespace Tables

def empty : Tables := ⟨[], [], []⟩

def nextSession (t : Tables) : Nat := nextId (t.session.map SessionRow.id)

def replaceParam (t : Tables) (row : ParamRow) : Tables :=
  { t with
    sessionParam :=
      t.sessionParam.filter (fun r => ¬(r.sessionId = row.sessionId ∧ r.key = row.key)) ++ [row] }

def paramValue (t : Tables) (sessionId : Nat) (key : QString) : Option QString :=
  (t.sessionParam.find? fun r => r.sessionId = sessionId ∧ r.key = key).map ParamRow.value

def Fresh (t : Tables) : Prop := ∀ r ∈ t.sessionParam, r.sessionId < t.nextSession

end Tables

-- An absent parameter is a null QString, which is bound as NULL.
def sessionRow (id folderId : Nat) (s : Session) : SessionRow :=
  ⟨id, folderId, s.name, sessionTypeToString s.type, s.params.find "host", s.port,
    s.params.find "username", s.params.find "vault_ref"⟩

def saveSession (folderId : Nat) (t : Tables) (s : Session) : Tables :=
  let sid := t.nextSession
  let t := { t with session := t.session ++ [sessionRow sid folderId s] }
  s.params.entries.foldl (fun t e => t.replaceParam ⟨sid, e.1, e.2⟩) t

mutual

def saveFolder (parentId : Option Nat) (t : Tables) : SessionFolder → Tables
  | ⟨name, folders, sessions⟩ =>
      let folderId := nextId (t.sessionFolder.map FolderRow.id)
      let t := { t with sessionFolder := t.sessionFolder ++ [⟨folderId, parentId, name⟩] }
      saveFolders folderId (sessions.foldl (saveSession folderId) t) folders

def saveFolders (folderId : Nat) (t : Tables) : List SessionFolder → Tables
  | [] => t
  | sub :: rest => saveFolders folderId (saveFolder (some folderId) t sub) rest

end

structure Store where
  isOpen : Bool
  tables : Tables

-- DELETE FROM session_folder cascades to the sessions and their parameters.
def Store.saveTree (store : Store) (root : SessionFolder) : Bool × Store :=
  if !store.isOpen then (false, store)
  else (true, { store with tables := saveFolder none .empty root })

theorem nextId_append (ids : List Nat) : nextId (ids ++ [nextId ids]) = nextId ids + 1 := by
  have hmax (is : List Nat) (k : Nat) :
      (is ++ [k]).foldr max 0 = max (is.foldr max 0) k := by
    induction is with
    | nil => simp
    | cons j is ih =>
      rw [List.cons_append, List.foldr_cons, ih, List.foldr_cons, max_assoc]
  simp only [nextId, hmax]
  omega

namespace Tables

theorem paramValue_replaceParam (t : Tables) (row : ParamRow) (sid : Nat) (key : QString) :
    (t.replaceParam row).paramValue sid key =
      if sid = row.sessionId ∧ key = row.key then some row.value else t.paramValue sid key := by
  have hother (rows : List ParamRow) (hne : ¬(sid = row.sessionId ∧ key = row.key)) :
      (rows.filter fun r => ¬(r.sessionId = row.sessionId ∧ r.key = row.key)).find?
          (fun r => r.sessionId = sid ∧ r.key = key) =
        rows.find? fun r => r.sessionId = sid ∧ r.key = key := by
    rw [List.find?_filter]
    congr 1
    funext r
    by_cases hr : r.sessionId = sid ∧ r.key = key
    · obtain ⟨rfl, rfl⟩ := hr
      simp only [hne, not_false_eq_true, decide_true, and_self]
    · simp [hr]
  simp only [paramValue, replaceParam, List.find?_append]
  split
  · rename_i heq
    obtain ⟨rfl, rfl⟩ := heq
    have hnone : (t.sessionParam.filter fun r =>
        ¬(r.sessionId = row.sessionId ∧ r.key = row.key)).find?
          (fun r => r.sessionId = row.sessionId ∧ r.key = row.key) = none := by
      rw [List.find?_eq_none]
      intro r hr
      have hne := (List.mem_filter.mp hr).2
      simp only [decide_eq_true_eq] at hne ⊢
      exact hne
    rw [hnone]
    simp
  · rename_i hne
    rw [hother _ hne]
    have hlast : [row].find? (fun r => r.sessionId = sid ∧ r.key = key) = none := by
      rw [List.find?_singleton, if_neg]
      rintro h
      simp only [decide_eq_true_eq] at h
      exact hne ⟨h.1.symm, h.2.symm⟩
    rw [hlast, Option.or_none]

theorem paramValue_fresh {t : Tables} (h : t.Fresh) (key : QString) :
    t.paramValue t.nextSession key = none := by
  unfold paramValue
  rw [Option.map_eq_none_iff, List.find?_eq_none]
  intro r hr hkey
  have hlt := h r hr
  simp only [decide_eq_true_eq] at hkey
  omega

theorem fresh_replaceParam {t : Tables} (h : t.Fresh) {row : ParamRow}
    (hrow : row.sessionId < t.nextSession) : (t.replaceParam row).Fresh := by
  intro r hr
  rcases List.mem_append.mp hr with hr | hr
  · exact h r (List.mem_of_mem_filter hr)
  · rw [List.mem_singleton.mp hr]
    exact hrow

end Tables

theorem foldl_replaceParam_other (es : List (QString × QString)) (t : Tables) (sid i : Nat)
    (key : QString) (h : i ≠ sid) :
    (es.foldl (fun t e => t.replaceParam ⟨sid, e.1, e.2⟩) t).paramValue i key =
      t.paramValue i key := by
  induction es generalizing t with
  | nil => rfl
  | cons e es ih =>
    rw [List.foldl_cons, ih, Tables.paramValue_replaceParam, if_neg]
    exact fun hi => h hi.1

theorem foldl_replaceParam_self (es : List (QString × QString)) (t : Tables) (sid : Nat)
    (key : QString) (h : es.Pairwise fun a b => units a.1 < units b.1) :
    (es.foldl (fun t e => t.replaceParam ⟨sid, e.1, e.2⟩) t).paramValue sid key =
      (es.lookup key).or (t.paramValue sid key) := by
  induction es generalizing t with
  | nil => simp
  | cons e es ih =>
    obtain ⟨he, hes⟩ := List.pairwise_cons.mp h
    rw [List.foldl_cons, ih _ hes, Tables.paramValue_replaceParam, QMap.lookup_entry]
    by_cases hk : key = e.1
    · rw [QMap.lookup_later (hk ▸ he)]
      simp [hk]
    · simp [hk]

theorem foldl_replaceParam_next (es : List (QString × QString)) (t : Tables) (sid : Nat) :
    (es.foldl (fun t e => t.replaceParam ⟨sid, e.1, e.2⟩) t).nextSession = t.nextSession := by
  induction es generalizing t with
  | nil => rfl
  | cons e es ih => exact ih _

theorem foldl_replaceParam_fresh (es : List (QString × QString)) (t : Tables) (sid : Nat)
    (h : t.Fresh) (hsid : sid < t.nextSession) :
    (es.foldl (fun t e => t.replaceParam ⟨sid, e.1, e.2⟩) t).Fresh := by
  induction es generalizing t with
  | nil => exact h
  | cons e es ih => exact ih _ (Tables.fresh_replaceParam h hsid) hsid

theorem nextSession_append (t : Tables) (folderId : Nat) (s : Session) :
    ({ t with session := t.session ++ [sessionRow t.nextSession folderId s] } : Tables).nextSession =
      t.nextSession + 1 := by
  simp only [Tables.nextSession, List.map_append, List.map_cons, List.map_nil]
  exact nextId_append _

theorem nextSession_saveSession (folderId : Nat) (t : Tables) (s : Session) :
    (saveSession folderId t s).nextSession = t.nextSession + 1 := by
  simp only [saveSession, foldl_replaceParam_next]
  exact nextSession_append t folderId s

theorem fresh_saveSession (folderId : Nat) {t : Tables} (s : Session) (h : t.Fresh) :
    (saveSession folderId t s).Fresh := by
  have hnext := nextSession_append t folderId s
  apply foldl_replaceParam_fresh
  · intro r hr
    rw [hnext]
    exact Nat.lt_succ_of_lt (h r hr)
  · rw [hnext]
    exact Nat.lt_succ_self _

theorem paramValue_saveSession_self (folderId : Nat) {t : Tables} (s : Session) (key : QString)
    (h : t.Fresh) :
    (saveSession folderId t s).paramValue t.nextSession key = s.params.find key := by
  simp only [saveSession]
  rw [foldl_replaceParam_self _ _ _ _ s.params.sorted]
  have hnone : ({ t with session := t.session ++ [sessionRow t.nextSession folderId s] } :
      Tables).paramValue t.nextSession key = none := Tables.paramValue_fresh h key
  rw [hnone, Option.or_none]
  rfl

theorem paramValue_saveSession_other (folderId : Nat) (t : Tables) (s : Session) (i : Nat)
    (key : QString) (h : i < t.nextSession) :
    (saveSession folderId t s).paramValue i key = t.paramValue i key := by
  simp only [saveSession]
  rw [foldl_replaceParam_other _ _ _ _ _ (Nat.ne_of_lt h)]
  rfl

theorem foldl_saveSession_fresh (folderId : Nat) (ss : List Session) {t : Tables} (h : t.Fresh) :
    (ss.foldl (saveSession folderId) t).Fresh := by
  induction ss generalizing t with
  | nil => exact h
  | cons s ss ih => exact ih (fresh_saveSession folderId s h)

-- What a later row leaves alone: the ids already given out and the parameters stored under them.
structure Extends (t u : Tables) : Prop where
  next : t.nextSession ≤ u.nextSession
  params : ∀ i < t.nextSession, ∀ key, u.paramValue i key = t.paramValue i key

theorem Extends.refl (t : Tables) : Extends t t := ⟨Nat.le_refl _, fun _ _ _ => rfl⟩

theorem Extends.trans {t u v : Tables} (h : Extends t u) (k : Extends u v) : Extends t v := by
  constructor
  · exact Nat.le_trans h.next k.next
  · intro i hi key
    rw [k.params i (Nat.lt_of_lt_of_le hi h.next), h.params i hi]

theorem extends_saveSession (folderId : Nat) (t : Tables) (s : Session) :
    Extends t (saveSession folderId t s) := by
  constructor
  · rw [nextSession_saveSession]
    exact Nat.le_succ _
  · intro i hi key
    exact paramValue_saveSession_other folderId t s i key hi

theorem extends_foldl_saveSession (folderId : Nat) (ss : List Session) (t : Tables) :
    Extends t (ss.foldl (saveSession folderId) t) := by
  induction ss generalizing t with
  | nil => exact .refl t
  | cons s ss ih => exact (extends_saveSession folderId t s).trans (ih _)

mutual

theorem extends_saveFolder (parentId : Option Nat) (t : Tables) :
    ∀ folder, Extends t (saveFolder parentId t folder)
  | ⟨name, folders, sessions⟩ => by
    rw [saveFolder]
    refine .trans ?_ (extends_saveFolders _ _ folders)
    refine .trans ?_ (extends_foldl_saveSession _ sessions _)
    exact ⟨Nat.le_refl _, fun _ _ _ => rfl⟩

theorem extends_saveFolders (folderId : Nat) (t : Tables) :
    ∀ folders, Extends t (saveFolders folderId t folders)
  | [] => .refl t
  | sub :: rest => by
    rw [saveFolders]
    exact (extends_saveFolder (some folderId) t sub).trans
      (extends_saveFolders folderId _ rest)

end

theorem lastSession_params (name : QString) (folders : List SessionFolder) (ss : List Session) :
    ∃ i, ∀ s key,
      (saveFolder none .empty ⟨name, folders, ss ++ [s]⟩).paramValue i key = s.params.find key := by
  let top : Tables := { Tables.empty with sessionFolder := [⟨1, none, name⟩] }
  have htop : top.Fresh := by
    intro r hr
    simp [top, Tables.empty] at hr
  refine ⟨(ss.foldl (saveSession 1) top).nextSession, ?_⟩
  intro s key
  rw [saveFolder]
  have hfold : (ss ++ [s]).foldl (saveSession 1) top =
      saveSession 1 (ss.foldl (saveSession 1) top) s := by
    rw [List.foldl_append]
    rfl
  change (saveFolders 1 ((ss ++ [s]).foldl (saveSession 1) top) folders).paramValue _ key = _
  rw [hfold]
  rw [(extends_saveFolders 1 _ folders).params]
  · exact paramValue_saveSession_self 1 s key (foldl_saveSession_fresh 1 ss htop)
  · rw [nextSession_saveSession]
    exact Nat.lt_succ_self _

end Core
