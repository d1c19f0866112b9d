import MacXterm.Core.StoreRun

namespace Core

open Qt SessionFolder

namespace Connection

@[simp] theorem tables_write (c : Connection) (t : Tables) : (c.write t).tables = t := by
  obtain ⟨durable, pending⟩ := c
  cases pending <;> rfl

@[simp] theorem write_write (c : Connection) (t u : Tables) : (c.write t).write u = c.write u := by
  obtain ⟨durable, pending⟩ := c
  cases pending <;> rfl

theorem write_tables (c : Connection) : c.write c.tables = c := by
  obtain ⟨durable, pending⟩ := c
  cases pending <;> rfl

end Connection

def folderIds (t : Tables) : List Nat := t.sessionFolder.map FolderRow.id

def AllOk (o : Outcomes) (lo n : Nat) : Prop := ∀ k, lo ≤ k → k < lo + n → o.insert k = .ok

theorem AllOk.mono {o : Outcomes} {lo n lo' n' : Nat} (h : AllOk o lo n) (hlo : lo ≤ lo')
    (hn : lo' + n' ≤ lo + n) : AllOk o lo' n' :=
  fun k h1 h2 => h k (Nat.le_trans hlo h1) (Nat.lt_of_lt_of_le h2 hn)

theorem insert_ok {o : Outcomes} {r : SaveRun} {change : Tables → Option Tables} {t : Tables}
    (ho : o.insert r.next = .ok) (h : change r.conn.tables = some t) :
    r.insert o change = (true, ⟨r.conn.write t, r.next + 1⟩) := by
  simp only [SaveRun.insert, Connection.exec, ho, h]

theorem foldl_runParam_ok {o : Outcomes} (sid : Nat) (es : List (QString × QString)) (r : SaveRun)
    (hsid : sid ∈ r.conn.tables.session.map SessionRow.id) (ho : AllOk o r.next es.length) :
    es.foldl (runParam o sid) r =
      ⟨r.conn.write (es.foldl (fun t e => t.replaceParam ⟨sid, e.1, e.2⟩) r.conn.tables),
        r.next + es.length⟩ := by
  induction es generalizing r with
  | nil => rw [List.foldl_nil, List.foldl_nil, Connection.write_tables]; rfl
  | cons e es ih =>
    rw [List.length_cons] at ho
    have hrow : insertParam sid e r.conn.tables =
        some (r.conn.tables.replaceParam ⟨sid, e.1, e.2⟩) := if_pos hsid
    have hstep : runParam o sid r e =
        ⟨r.conn.write (r.conn.tables.replaceParam ⟨sid, e.1, e.2⟩), r.next + 1⟩ := by
      rw [runParam, insert_ok (ho _ (Nat.le_refl _) (by omega)) hrow]
    rw [List.foldl_cons, hstep, ih]
    · simp only [Connection.tables_write, Connection.write_write, List.foldl_cons,
        List.length_cons, SaveRun.mk.injEq, true_and]
      omega
    · rw [Connection.tables_write]
      exact hsid
    · exact ho.mono (Nat.le_succ _) (by change r.next + 1 + es.length ≤ _; omega)

theorem runSession_ok {o : Outcomes} {folderId : Nat} {r : SaveRun} (s : Session)
    (hfolder : folderId ∈ folderIds r.conn.tables) (ho : AllOk o r.next (sessionStatements s)) :
    runSession o folderId r s =
      ⟨r.conn.write (saveSession folderId r.conn.tables s), r.next + sessionStatements s⟩ := by
  rw [sessionStatements] at ho ⊢
  have hrow : insertSession folderId s r.conn.tables = some _ := if_pos hfolder
  rw [runSession, insert_ok (ho _ (Nat.le_refl _) (by omega)) hrow]
  dsimp only [lastInsertId, if_true]
  rw [foldl_runParam_ok]
  · simp only [Connection.tables_write, Connection.write_write, SaveRun.mk.injEq]
    exact ⟨rfl, Nat.add_assoc _ _ _⟩
  · simp [sessionRow]
  · exact ho.mono (Nat.le_succ _) (by dsimp only; omega)

theorem sessionFolder_saveSession (folderId : Nat) (t : Tables) (s : Session) :
    (saveSession folderId t s).sessionFolder = t.sessionFolder := by
  have hparams (es : List (QString × QString)) (u : Tables) (sid : Nat) :
      (es.foldl (fun u e => u.replaceParam ⟨sid, e.1, e.2⟩) u).sessionFolder = u.sessionFolder := by
    induction es generalizing u with
    | nil => rfl
    | cons e es ih => exact ih _
  exact hparams _ _ _

theorem sessionFolder_foldl (folderId : Nat) (ss : List Session) (t : Tables) :
    (ss.foldl (saveSession folderId) t).sessionFolder = t.sessionFolder := by
  induction ss generalizing t with
  | nil => rfl
  | cons s ss ih => rw [List.foldl_cons, ih, sessionFolder_saveSession]

mutual

theorem prefix_saveFolder (parentId : Option Nat) (t : Tables) :
    ∀ f, t.sessionFolder <+: (saveFolder parentId t f).sessionFolder
  | ⟨name, folders, sessions⟩ => by
    rw [saveFolder]
    refine List.IsPrefix.trans ?_ (prefix_saveFolders _ _ folders)
    rw [sessionFolder_foldl]
    exact List.prefix_append _ _

theorem prefix_saveFolders (folderId : Nat) (t : Tables) :
    ∀ fs, t.sessionFolder <+: (saveFolders folderId t fs).sessionFolder
  | [] => List.prefix_rfl
  | f :: fs => by
    rw [saveFolders]
    exact (prefix_saveFolder (some folderId) t f).trans (prefix_saveFolders folderId _ fs)

end

theorem foldl_runSession_ok {o : Outcomes} {folderId : Nat} (ss : List Session) (r : SaveRun)
    (hfolder : folderId ∈ folderIds r.conn.tables)
    (ho : AllOk o r.next (ss.map sessionStatements).sum) :
    ss.foldl (runSession o folderId) r =
      ⟨r.conn.write (ss.foldl (saveSession folderId) r.conn.tables),
        r.next + (ss.map sessionStatements).sum⟩ := by
  induction ss generalizing r with
  | nil => rw [List.foldl_nil, List.foldl_nil, Connection.write_tables]; rfl
  | cons s ss ih =>
    rw [List.map_cons, List.sum_cons] at ho ⊢
    rw [List.foldl_cons, runSession_ok s hfolder (ho.mono (Nat.le_refl _) (by omega)), ih]
    · simp only [Connection.tables_write, Connection.write_write, List.foldl_cons,
        SaveRun.mk.injEq, true_and]
      omega
    · rw [Connection.tables_write, folderIds, sessionFolder_saveSession]
      exact hfolder
    · exact ho.mono (Nat.le_add_right _ _) (by dsimp only; omega)

mutual

theorem runFolder_ok {o : Outcomes} {parentId : Option Nat} :
    ∀ (f : SessionFolder) (r : SaveRun),
      (∀ i, parentId = some i → i ∈ folderIds r.conn.tables) →
      AllOk o r.next (statements f) →
      runFolder o parentId r f =
        ⟨r.conn.write (saveFolder parentId r.conn.tables f), r.next + statements f⟩
  | ⟨name, folders, sessions⟩, r, hparent, ho => by
    rw [statements] at ho ⊢
    have hrow : insertFolder parentId name r.conn.tables =
        some { r.conn.tables with sessionFolder := r.conn.tables.sessionFolder ++
          [⟨r.conn.tables.nextFolder, parentId, name⟩] } := by
      refine if_pos ?_
      cases parentId with
      | none => rfl
      | some i => exact decide_eq_true (hparent i rfl)
    have hid : r.conn.tables.nextFolder ∈ folderIds { r.conn.tables with
        sessionFolder := r.conn.tables.sessionFolder ++
          [⟨r.conn.tables.nextFolder, parentId, name⟩] } := by
      simp [folderIds]
    rw [runFolder, insert_ok (ho _ (Nat.le_refl _) (by omega)) hrow]
    dsimp only [lastInsertId, if_true]
    rw [foldl_runSession_ok, runFolders_ok]
    · simp only [Connection.tables_write, Connection.write_write, SaveRun.mk.injEq]
      refine ⟨?_, by omega⟩
      rw [saveFolder]
      rfl
    · simp only [Connection.tables_write]
      rw [folderIds, sessionFolder_foldl]
      exact hid
    · exact ho.mono (by dsimp only; omega) (by dsimp only; omega)
    · rw [Connection.tables_write]
      exact hid
    · exact ho.mono (by dsimp only; omega) (by dsimp only; omega)

theorem runFolders_ok {o : Outcomes} {folderId : Nat} :
    ∀ (fs : List SessionFolder) (r : SaveRun), folderId ∈ folderIds r.conn.tables →
      AllOk o r.next (allStatements fs) →
      runFolders o folderId r fs =
        ⟨r.conn.write (saveFolders folderId r.conn.tables fs), r.next + allStatements fs⟩
  | [], r, _, _ => by
    rw [runFolders, saveFolders, Connection.write_tables]
    rfl
  | f :: fs, r, hfolder, ho => by
    rw [allStatements] at ho ⊢
    have hfirst := @runFolder_ok o (some folderId) f r (fun i hi => Option.some.inj hi ▸ hfolder)
      (ho.mono (Nat.le_refl _) (by omega))
    rw [runFolders, hfirst, runFolders_ok]
    · simp only [Connection.tables_write, Connection.write_write, SaveRun.mk.injEq]
      refine ⟨?_, by omega⟩
      rw [saveFolders]
    · rw [Connection.tables_write]
      exact List.Sublist.subset ((prefix_saveFolder _ _ f).sublist.map _) hfolder
    · exact ho.mono (Nat.le_add_right _ _) (by dsimp only; omega)

end

structure Tracks (o : Outcomes) (Folder Sid : Nat → Prop) (I : SaveRun → Prop) : Prop where
  folder : ∀ r i name, Folder i → I r →
    I (r.insert o (insertFolder (some i) name)).2 ∧
      Folder (lastInsertId (r.insert o (insertFolder (some i) name)).1 r.conn.tables.nextFolder)
  session : ∀ r i s, Folder i → I r →
    I (r.insert o (insertSession i s)).2 ∧
      Sid (lastInsertId (r.insert o (insertSession i s)).1 r.conn.tables.nextSession)
  param : ∀ r i e, Sid i → I r → I (r.insert o (insertParam i e)).2

section Tracked

variable {o : Outcomes} {Folder Sid : Nat → Prop} {I : SaveRun → Prop}

theorem Tracks.runSession (h : Tracks o Folder Sid I) {folderId : Nat} (hf : Folder folderId)
    (s : Session) {r : SaveRun} (hr : I r) : I (runSession o folderId r s) := by
  obtain ⟨hI, hsid⟩ := h.session r folderId s hf hr
  rw [Core.runSession]
  revert hI hsid
  generalize lastInsertId (r.insert o (insertSession folderId s)).1 r.conn.tables.nextSession = sid
  generalize (r.insert o (insertSession folderId s)).2 = r'
  intro hI hsid
  induction s.params.entries generalizing r' with
  | nil => exact hI
  | cons e es ih => exact ih _ (h.param r' sid e hsid hI)

theorem Tracks.sessions (h : Tracks o Folder Sid I) {folderId : Nat} (hf : Folder folderId)
    (ss : List Session) {r : SaveRun} (hr : I r) : I (ss.foldl (Core.runSession o folderId) r) := by
  induction ss generalizing r with
  | nil => exact hr
  | cons s ss ih => exact ih (h.runSession hf s hr)

mutual

theorem Tracks.runFolder (h : Tracks o Folder Sid I) {parentId : Nat} (hp : Folder parentId) :
    ∀ f {r : SaveRun}, I r → I (runFolder o (some parentId) r f)
  | ⟨name, folders, sessions⟩, r, hr => by
    obtain ⟨hI, hf⟩ := h.folder r parentId name hp hr
    rw [Core.runFolder]
    exact Tracks.runFolders h hf folders (h.sessions hf sessions hI)

theorem Tracks.runFolders (h : Tracks o Folder Sid I) {folderId : Nat} (hf : Folder folderId) :
    ∀ fs {r : SaveRun}, I r → I (runFolders o folderId r fs)
  | [], r, hr => hr
  | f :: fs, r, hr => by
    rw [Core.runFolders]
    exact Tracks.runFolders h hf fs (Tracks.runFolder h hf f hr)

end

theorem Tracks.root (h : Tracks o Folder Sid I) {r : SaveRun} {root : SessionFolder}
    (hI : I (r.insert o (insertFolder none root.name)).2)
    (hf : Folder (lastInsertId (r.insert o (insertFolder none root.name)).1
      r.conn.tables.nextFolder)) : I (Core.runFolder o none r root) := by
  obtain ⟨name, folders, sessions⟩ := root
  rw [Core.runFolder]
  exact h.runFolders hf folders (h.sessions hf sessions hI)

end Tracked

def Dead (durable : Tables) (r : SaveRun) : Prop :=
  r.conn = ⟨durable, some .empty⟩ ∨ r.conn = ⟨durable, none⟩

theorem dead_step {o : Outcomes} {durable : Tables} {change : Tables → Option Tables}
    (hempty : change .empty = none) (hdurable : change durable = none) {r : SaveRun}
    (h : Dead durable r) :
    Dead durable (r.insert o change).2 ∧ (r.insert o change).1 = false := by
  have hnone : change r.conn.tables = none := by
    rcases h with h | h <;> rw [h]
    · exact hempty
    · exact hdurable
  rw [SaveRun.insert]
  rcases exec_cases r.conn (o.insert r.next) change with
    ⟨-, t, ht, -⟩ | ⟨-, -, he⟩ | ⟨-, he⟩
  · rw [hnone] at ht
    exact absurd ht (by simp)
  · rw [he]
    exact ⟨h, rfl⟩
  · rw [he]
    refine ⟨.inr ?_, rfl⟩
    rcases h with h | h <;> rw [h] <;> rfl

theorem dead_tracks (o : Outcomes) {durable : Tables} (hfolder : 0 ∉ folderIds durable)
    (hsession : 0 ∉ durable.session.map SessionRow.id) :
    Tracks o (· = 0) (· = 0) (Dead durable) := by
  refine ⟨?_, ?_, ?_⟩
  · rintro r i name rfl hr
    have hnone : insertFolder (some 0) name durable = none :=
      if_neg fun h => hfolder (of_decide_eq_true h)
    obtain ⟨hdead, hok⟩ := @dead_step o _ (insertFolder (some 0) name) rfl hnone r hr
    exact ⟨hdead, by rw [hok]; rfl⟩
  · rintro r i s rfl hr
    have hnone : insertSession 0 s durable = none := if_neg hfolder
    obtain ⟨hdead, hok⟩ := @dead_step o _ (insertSession 0 s) rfl hnone r hr
    exact ⟨hdead, by rw [hok]; rfl⟩
  · rintro r i e rfl hr
    have hnone : insertParam 0 e durable = none := if_neg hsession
    exact (@dead_step o _ (insertParam 0 e) rfl hnone r hr).1

-- The rows of a stored tree, and more rows that belong to none of its folders and sessions.
def Extra (old : SessionFolder) (t : Tables) : Prop :=
  ∃ u, t = folderRows none 1 1 old ++ u ∧
    Avoids u 1 (1 + old.folderCount) 1 (1 + old.totalSessions)

theorem Extra.self (old : SessionFolder) : Extra old (saveFolder none .empty old) :=
  ⟨.empty, by rw [saved_eq, Tables.append_empty], avoids_empty _ _ _ _⟩

theorem Extra.load {old : SessionFolder} {t : Tables} (h : Extra old t) :
    loadTree t = loadTree (saveFolder none .empty old) := by
  obtain ⟨u, rfl, hu⟩ := h
  obtain ⟨rest, hrest⟩ := folderRows_head none 1 1 old
  have hagrees := (Agrees.refl (folderRows none 1 1 old ++ u) 1 (1 + old.folderCount) 1
    (1 + old.totalSessions)).left hu (Nat.le_refl _) (Nat.le_refl _)
  rw [loadTree_saved, @loadTree_agrees _ old (rest ++ u.sessionFolder) _ _ hagrees]
  · rw [Tables.sessionFolder_append, hrest, List.cons_append]
  · rw [Tables.sessionFolder_append, List.length_append, length_folderRows]
    exact Nat.le_add_right _ _

def Outside (n i : Nat) : Prop := i < 1 ∨ n ≤ i

def ExtraRun (old : SessionFolder) (r : SaveRun) : Prop :=
  Extra old r.conn.durable ∧ ∀ t, r.conn.pending = some t → Extra old t

theorem ExtraRun.tables {old : SessionFolder} {r : SaveRun} (h : ExtraRun old r) :
    Extra old r.conn.tables := by
  rw [Connection.tables]
  cases hp : r.conn.pending with
  | none => exact h.1
  | some t => exact h.2 t hp

theorem extra_step {o : Outcomes} {old : SessionFolder} {change : Tables → Option Tables}
    (hchange : ∀ t u, Extra old t → change t = some u → Extra old u) {r : SaveRun}
    (h : ExtraRun old r) : ExtraRun old (r.insert o change).2 := by
  rw [SaveRun.insert]
  rcases exec_cases r.conn (o.insert r.next) change with ⟨-, t, ht, he⟩ | ⟨-, -, he⟩ | ⟨-, he⟩
  · have hnew := hchange _ t h.tables ht
    rw [he]
    simp only [ExtraRun, Connection.write]
    cases hp : r.conn.pending with
    | none => exact ⟨hnew, nofun⟩
    | some u =>
      refine ⟨h.1, ?_⟩
      rintro v ⟨⟩
      exact hnew
  · rw [he]
    exact h
  · rw [he]
    exact ⟨h.1, nofun⟩

theorem nextId_le_append (ids more : List Nat) : nextId ids ≤ nextId (ids ++ more) := by
  induction ids with
  | nil => simp [nextId]
  | cons i ids ih =>
    simp only [nextId, List.cons_append, List.foldr_cons] at ih ⊢
    omega

theorem Extra.next {old : SessionFolder} {t : Tables} (h : Extra old t) :
    1 + old.folderCount ≤ t.nextFolder ∧ 1 + old.totalSessions ≤ t.nextSession := by
  obtain ⟨u, rfl, -⟩ := h
  obtain ⟨hfolder, hsession, -⟩ := (saveFolder_eq none counts_empty old).2
  rw [saved_eq] at hfolder hsession
  rw [← hfolder, ← hsession]
  constructor
  · rw [Tables.nextFolder, Tables.nextFolder, Tables.sessionFolder_append, List.map_append]
    exact nextId_le_append _ _
  · rw [Tables.nextSession, Tables.nextSession, Tables.session_append, List.map_append]
    exact nextId_le_append _ _

theorem Extra.add {old : SessionFolder} {t v : Tables} (h : Extra old t)
    (hv : Avoids v 1 (1 + old.folderCount) 1 (1 + old.totalSessions)) : Extra old (t ++ v) := by
  obtain ⟨u, rfl, hu⟩ := h
  exact ⟨u ++ v, Tables.append_assoc _ _ _, hu.append hv⟩

theorem extra_insertFolder {old : SessionFolder} {parentId : Option Nat} {name : QString}
    (hp : ∀ i, parentId = some i → Outside (1 + old.folderCount) i) (t u : Tables)
    (h : Extra old t) (hu : insertFolder parentId name t = some u) : Extra old u := by
  rw [insertFolder] at hu
  split at hu
  · obtain rfl := Option.some.inj hu
    have hrow := h.add (@avoids_folder parentId t.nextFolder name _ _ _ _ hp)
    refine (congrArg (Extra old) ?_).mp hrow
    ext1 <;> simp
  · exact absurd hu (by simp)

theorem extra_insertSession {old : SessionFolder} {folderId : Nat} {s : Session}
    (hf : Outside (1 + old.folderCount) folderId) (t u : Tables)
    (h : Extra old t) (hu : insertSession folderId s t = some u) : Extra old u := by
  rw [insertSession] at hu
  split at hu
  · obtain rfl := Option.some.inj hu
    have hrow := @Extra.add old t ⟨[], [sessionRow t.nextSession folderId s], []⟩ h
      ⟨fun _ _ _ => rfl, fun i h1 h2 => ?_, fun _ _ _ => rfl⟩
    · refine (congrArg (Extra old) ?_).mp hrow
      ext1 <;> simp
    · refine List.filter_eq_nil_iff.mpr fun r hr => ?_
      rw [List.mem_singleton.mp hr]
      intro he
      have hi : folderId = i := of_decide_eq_true he
      rcases hf with hf | hf <;> omega
  · exact absurd hu (by simp)

theorem extra_insertParam {old : SessionFolder} {sid : Nat} {e : QString × QString}
    (hs : Outside (1 + old.totalSessions) sid) (t u : Tables)
    (h : Extra old t) (hu : insertParam sid e t = some u) : Extra old u := by
  rw [insertParam] at hu
  split at hu
  · obtain rfl := Option.some.inj hu
    obtain ⟨v, rfl, hv⟩ := h
    have hkept : Avoids (folderRows none 1 1 old) 0 0 sid (sid + 1) :=
      avoids_folderRows nofun (by omega) (by rcases hs with hs | hs <;> omega)
    have hnone := List.filter_eq_nil_iff.mp (hkept.params sid (Nat.le_refl _) (Nat.lt_succ_self _))
    have hall : (folderRows none 1 1 old).sessionParam.filter
        (fun r => ¬(r.sessionId = sid ∧ r.key = e.1)) = (folderRows none 1 1 old).sessionParam := by
      refine List.filter_eq_self.mpr fun r hr => decide_eq_true fun hsame => ?_
      exact hnone r hr (decide_eq_true hsame.1)
    refine ⟨⟨v.sessionFolder, v.session, v.sessionParam.filter
      (fun r => ¬(r.sessionId = sid ∧ r.key = e.1)) ++ [⟨sid, e.1, e.2⟩]⟩, ?_, ?_⟩
    · ext1
      · rfl
      · rfl
      · simp only [Tables.replaceParam, Tables.sessionParam_append, List.filter_append, hall,
          List.append_assoc]
    · refine ⟨hv.folders, hv.sessions, fun i h1 h2 => List.filter_eq_nil_iff.mpr fun r hr => ?_⟩
      rcases List.mem_append.mp hr with hr | hr
      · exact List.filter_eq_nil_iff.mp (hv.params i h1 h2) r (List.mem_of_mem_filter hr)
      · rw [List.mem_singleton.mp hr]
        intro he
        have hi : sid = i := of_decide_eq_true he
        rcases hs with hs | hs <;> omega
  · exact absurd hu (by simp)

theorem outside_lastInsertId {n id : Nat} (ok : Bool) (h : n ≤ id) :
    Outside n (lastInsertId ok id) := by
  cases ok with
  | true => exact .inr h
  | false => exact .inl Nat.zero_lt_one

theorem extra_tracks (o : Outcomes) (old : SessionFolder) :
    Tracks o (Outside (1 + old.folderCount)) (Outside (1 + old.totalSessions)) (ExtraRun old) := by
  refine ⟨?_, ?_, ?_⟩
  · intro r i name hi hr
    exact ⟨extra_step (extra_insertFolder fun j hj => Option.some.inj hj ▸ hi) hr,
      outside_lastInsertId _ hr.tables.next.1⟩
  · intro r i s hi hr
    exact ⟨extra_step (extra_insertSession hi) hr, outside_lastInsertId _ hr.tables.next.2⟩
  · intro r i e hi hr
    exact extra_step (extra_insertParam hi) hr

theorem extra_runFolder (o : Outcomes) {old : SessionFolder} (root : SessionFolder) {r : SaveRun}
    (h : ExtraRun old r) : ExtraRun old (runFolder o none r root) :=
  (extra_tracks o old).root (extra_step (extra_insertFolder fun i hi => by cases hi) h)
    (outside_lastInsertId _ h.tables.next.1)

theorem insert_cases (o : Outcomes) (r : SaveRun) (change : Tables → Option Tables) :
    (o.insert r.next = .ok ∧ ∃ t, (r.insert o change).2 = ⟨r.conn.write t, r.next + 1⟩) ∨
    (o.insert r.next ≠ .rolledBack ∧ (r.insert o change).2 = ⟨r.conn, r.next + 1⟩) ∨
    (o.insert r.next = .rolledBack ∧ (r.insert o change).2 = ⟨r.conn.cancel, r.next + 1⟩) := by
  rw [SaveRun.insert]
  rcases exec_cases r.conn (o.insert r.next) change with ⟨ho, t, -, he⟩ | ⟨ho, -, he⟩ | ⟨ho, he⟩
  · exact .inl ⟨ho, t, by rw [he]⟩
  · exact .inr (.inl ⟨ho, by rw [he]⟩)
  · exact .inr (.inr ⟨ho, by rw [he]⟩)

theorem pending_write (c : Connection) (t : Tables) :
    (c.write t).pending = none ↔ c.pending = none := by
  obtain ⟨durable, pending⟩ := c
  cases pending <;> simp [Connection.write]

theorem durable_write {c : Connection} (t : Tables) (h : c.pending ≠ none) :
    (c.write t).durable = c.durable := by
  obtain ⟨durable, pending⟩ := c
  cases pending with
  | none => exact absurd rfl h
  | some u => rfl

-- One of the first `m` inserts cancels the transaction.
def Cancelled (o : Outcomes) (m : Nat) : Prop := ∃ k < m, o.insert k = .rolledBack

theorem closed_after {o : Outcomes} (root : SessionFolder) {r : SaveRun} (hr : r.next = 0)
    (h : Cancelled o (statements root)) : (runFolder o none r root).conn.pending = none := by
  obtain ⟨k, hk, ho⟩ := h
  have hrun := @runFolder_induct o (statements root)
    (fun r => ∀ k < r.next, o.insert k = .rolledBack → r.conn.pending = none) ?_ none root r
    (by omega) (by rw [hr]; nofun)
  · exact hrun.1 k (by rw [hrun.2]; omega) ho
  · intro r change _ hI k hk ho
    rcases insert_cases o r change with ⟨hn, t, he⟩ | ⟨hn, he⟩ | ⟨hn, he⟩
    all_goals rw [he] at hk ⊢
    · have hlt : k ≠ r.next := fun heq => by rw [heq, hn] at ho; cases ho
      exact (pending_write _ _).mpr (hI k (by dsimp only at hk; omega) ho)
    · have hlt : k ≠ r.next := fun heq => hn (heq ▸ ho)
      exact hI k (by dsimp only at hk; omega) ho
    · rfl

theorem closed_kept (o : Outcomes) (root : SessionFolder) {r : SaveRun}
    (h : r.conn.pending = none) : (runFolder o none r root).conn.pending = none := by
  refine (@runFolder_induct o (r.next + statements root) (fun r => r.conn.pending = none) ?_ none
    root r (Nat.le_refl _) h).1
  intro r change _ hI
  rcases insert_cases o r change with ⟨-, t, he⟩ | ⟨-, he⟩ | ⟨-, he⟩ <;> rw [he]
  · exact (pending_write _ _).mpr hI
  · exact hI
  · rfl

-- Nothing is written once the transaction is gone.
def Quiet (o : Outcomes) (m : Nat) : Prop :=
  ∀ j k, j < k → k < m → o.insert j = .rolledBack → o.insert k ≠ .ok

theorem durable_kept {o : Outcomes} (root : SessionFolder) {r : SaveRun} (hr : r.next = 0)
    (hopen : r.conn.pending ≠ none) (h : Quiet o (statements root)) :
    (runFolder o none r root).conn.durable = r.conn.durable := by
  refine (@runFolder_induct o (statements root) (fun r' => r'.conn.durable = r.conn.durable ∧
    (r'.conn.pending = none → ∃ j < r'.next, o.insert j = .rolledBack)) ?_ none root r (by omega)
    ⟨rfl, fun hnone => absurd hnone hopen⟩).1.1
  rintro r' change hm ⟨hd, hj⟩
  rcases insert_cases o r' change with ⟨hn, t, he⟩ | ⟨hn, he⟩ | ⟨hn, he⟩ <;> rw [he]
  · have hsome : r'.conn.pending ≠ none := fun hnone => by
      obtain ⟨j, hlt, ho⟩ := hj hnone
      exact h j r'.next hlt hm ho hn
    exact ⟨(durable_write t hsome).trans hd,
      fun hnone => absurd ((pending_write _ _).mp hnone) hsome⟩
  · refine ⟨hd, fun hnone => ?_⟩
    obtain ⟨j, hlt, ho⟩ := hj hnone
    exact ⟨j, Nat.lt_succ_of_lt hlt, ho⟩
  · exact ⟨hd, fun _ => ⟨r'.next, Nat.lt_succ_self _, hn⟩⟩

theorem le_id_sessionRows (folderId sid : Nat) (ss : List Session) :
    ∀ r ∈ (sessionRows folderId sid ss).session, sid ≤ r.id := by
  induction ss generalizing sid with
  | nil => exact nofun
  | cons s ss ih =>
    intro r hr
    rcases List.mem_append.mp hr with hr | hr
    · rw [List.mem_singleton.mp hr]
      exact Nat.le_refl _
    · exact Nat.le_of_succ_le (ih _ r hr)

mutual

theorem le_id_folderRows (parentId : Option Nat) (n sid : Nat) :
    ∀ f, (∀ r ∈ (folderRows parentId n sid f).sessionFolder, n ≤ r.id) ∧
      ∀ r ∈ (folderRows parentId n sid f).session, sid ≤ r.id
  | ⟨name, folders, sessions⟩ => by
    obtain ⟨hfolders, hsessions⟩ := le_id_subfolderRows n (n + 1) (sid + sessions.length) folders
    rw [folderRows]
    refine ⟨fun r hr => ?_, fun r hr => ?_⟩
    · rw [Tables.sessionFolder_append, Tables.sessionFolder_append, sessionFolder_sessionRows,
        List.nil_append] at hr
      rcases List.mem_append.mp hr with hr | hr
      · rw [List.mem_singleton.mp hr]
      · exact Nat.le_of_succ_le (hfolders r hr)
    · rw [Tables.session_append, Tables.session_append, List.nil_append] at hr
      rcases List.mem_append.mp hr with hr | hr
      · exact le_id_sessionRows n sid sessions r hr
      · exact Nat.le_trans (Nat.le_add_right _ _) (hsessions r hr)

theorem le_id_subfolderRows (parentId n sid : Nat) :
    ∀ fs, (∀ r ∈ (subfolderRows parentId n sid fs).sessionFolder, n ≤ r.id) ∧
      ∀ r ∈ (subfolderRows parentId n sid fs).session, sid ≤ r.id
  | [] => by
    rw [subfolderRows]
    exact ⟨nofun, nofun⟩
  | f :: fs => by
    obtain ⟨hfolder, hsession⟩ := le_id_folderRows (some parentId) n sid f
    obtain ⟨hfolders, hsessions⟩ :=
      le_id_subfolderRows parentId (n + f.folderCount) (sid + f.totalSessions) fs
    rw [subfolderRows]
    refine ⟨fun r hr => ?_, fun r hr => ?_⟩
    · rcases List.mem_append.mp hr with hr | hr
      · exact hfolder r hr
      · exact Nat.le_trans (Nat.le_add_right _ _) (hfolders r hr)
    · rcases List.mem_append.mp hr with hr | hr
      · exact hsession r hr
      · exact Nat.le_trans (Nat.le_add_right _ _) (hsessions r hr)

end

theorem durable_dead {o : Outcomes} {old root : SessionFolder} {r : SaveRun} (hr : r.next = 0)
    (hconn : r.conn = ⟨saveFolder none .empty old, some .empty⟩) (h : o.insert 0 ≠ .ok) :
    (runFolder o none r root).conn.durable = saveFolder none .empty old := by
  obtain ⟨hfolders, hsessions⟩ := le_id_folderRows none 1 1 old
  have hfolder : 0 ∉ folderIds (saveFolder none .empty old) := by
    rw [saved_eq]
    intro h0
    obtain ⟨row, hrow, hid⟩ := List.mem_map.mp h0
    have := hfolders row hrow
    omega
  have hsession : 0 ∉ (saveFolder none .empty old).session.map SessionRow.id := by
    rw [saved_eq]
    intro h0
    obtain ⟨row, hrow, hid⟩ := List.mem_map.mp h0
    have := hsessions row hrow
    omega
  have hfirst : Dead (saveFolder none .empty old) (r.insert o (insertFolder none root.name)).2 ∧
      (r.insert o (insertFolder none root.name)).1 = false := by
    rw [SaveRun.insert]
    rcases exec_cases r.conn (o.insert r.next) (insertFolder none root.name) with
      ⟨ho, -⟩ | ⟨-, -, he⟩ | ⟨-, he⟩
    · exact absurd (hr ▸ ho) h
    · rw [he]
      exact ⟨.inl hconn, rfl⟩
    · rw [he]
      exact ⟨.inr (by rw [hconn]; rfl), rfl⟩
  rcases (dead_tracks o hfolder hsession).root hfirst.1 (by rw [hfirst.2]; rfl) with hd | hd
  · rw [hd]
  · rw [hd]

-- A save succeeds as a whole, or the tree stored before is what the store still holds.
def Atomic (o : Outcomes) (old new : SessionFolder) : Prop :=
  let done := saveTree o ⟨saveFolder none .empty old, none⟩ new
  (done.1 = true → done.2 = ⟨saveFolder none .empty new, none⟩) ∧
    (done.1 = false → loadTree done.2.tables = loadTree (saveFolder none .empty old))

def Safe (o : Outcomes) (m : Nat) : Prop :=
  (o.delete = .ok → o.begin = true ∧
    (Cancelled o m → o.insert 0 = .ok → Quiet o m) ∧
    (¬Cancelled o m → o.commit ≠ .failed ∧ (o.commit = .ok → ∀ k < m, o.insert k = .ok))) ∧
  (o.delete ≠ .ok → o.begin = false ∨ o.delete = .rolledBack ∨ o.commit ≠ .ok ∨ Cancelled o m)

theorem atomic_of_durable {o : Outcomes} {old new : SessionFolder} {c : Connection}
    (hsave : saveTree o ⟨saveFolder none .empty old, none⟩ new = c.commit o.commit)
    (hd : c.durable = saveFolder none .empty old) (h : c.pending = none ∨ o.commit = .rolledBack) :
    Atomic o old new := by
  obtain ⟨durable, pending⟩ := c
  obtain rfl : durable = saveFolder none .empty old := hd
  rw [Atomic, hsave]
  cases pending with
  | none => exact ⟨nofun, fun _ => rfl⟩
  | some t =>
    rw [h.resolve_left (by simp)]
    exact ⟨nofun, fun _ => rfl⟩

-- Where the old rows are not deleted, the save adds rows that the old tree does not show.
theorem saveTree_not_deleted {o : Outcomes} (old new : SessionFolder) (h : o.delete ≠ .ok) :
    ∃ r : SaveRun, saveTree o ⟨saveFolder none .empty old, none⟩ new = r.conn.commit o.commit ∧
      ExtraRun old r ∧ (o.begin = false ∨ o.delete = .rolledBack ∨ Cancelled o (statements new) →
        r.conn.pending = none) := by
  let c := ((Connection.mk (saveFolder none .empty old) none).begin o.begin).exec o.delete
    fun _ => some .empty
  have hc : c.2.durable = saveFolder none .empty old ∧
      (∀ t, c.2.pending = some t → t = saveFolder none .empty old) ∧
      (o.begin = false ∨ o.delete = .rolledBack → c.2.pending = none) := by
    cases hb : o.begin <;> cases hd : o.delete <;>
      simp_all [c, Connection.begin, Connection.exec, Connection.cancel]
  obtain ⟨hdurable, hpending, hgone⟩ := hc
  have hself := Extra.self old
  refine ⟨runFolder o none ⟨c.2, 0⟩ new, rfl, extra_runFolder o new ⟨?_, ?_⟩, ?_⟩
  · rw [hdurable]
    exact hself
  · intro t ht
    rw [hpending t ht]
    exact hself
  · rintro (hb | hd | hcancelled)
    · exact closed_kept o new (hgone (.inl hb))
    · exact closed_kept o new (hgone (.inr hd))
    · exact closed_after new rfl hcancelled

theorem atomic_of_safe (o : Outcomes) (old new : SessionFolder) (h : Safe o (statements new)) :
    Atomic o old new := by
  obtain ⟨hok, hnot⟩ := h
  by_cases hdelete : o.delete = .ok
  · obtain ⟨hbegin, hcancelled, hwhole⟩ := hok hdelete
    have hsave : saveTree o ⟨saveFolder none .empty old, none⟩ new =
        (runFolder o none ⟨⟨saveFolder none .empty old, some .empty⟩, 0⟩ new).conn.commit
          o.commit := by
      simp only [saveTree, Connection.begin, hbegin, hdelete, if_true, Connection.exec,
        Connection.write]
    by_cases hc : Cancelled o (statements new)
    · refine atomic_of_durable hsave ?_ (.inl (closed_after new rfl hc))
      by_cases hfirst : o.insert 0 = .ok
      · exact durable_kept new rfl (by simp) (hcancelled hc hfirst)
      · exact durable_dead rfl rfl hfirst
    · obtain ⟨hcommit, hall⟩ := hwhole hc
      have hquiet : Quiet o (statements new) :=
        fun j k hjk hk ho => absurd ⟨j, Nat.lt_trans hjk hk, ho⟩ hc
      cases hco : o.commit with
      | ok =>
        have hrun := @runFolder_ok o none new ⟨⟨saveFolder none .empty old, some .empty⟩, 0⟩
          (fun _ hpid => absurd hpid (by simp)) fun k _ hk => hall hco k (by simpa using hk)
        rw [Atomic, hsave, hrun, hco]
        exact ⟨fun _ => rfl, fun (hfailed : true = false) => Bool.noConfusion hfailed⟩
      | failed => exact absurd hco hcommit
      | rolledBack =>
        exact atomic_of_durable hsave (durable_kept new rfl (by simp) hquiet) (.inr hco)
  · obtain ⟨⟨⟨durable, pending⟩, next⟩, hsave, hextra, hclosed⟩ :=
      saveTree_not_deleted old new hdelete
    rw [Atomic, hsave]
    cases pending with
    | none => exact ⟨fun hok => absurd hok (by simp [Connection.commit]), fun _ => hextra.1.load⟩
    | some t =>
      cases hco : o.commit with
      | ok =>
        have hgone := hclosed (by
          rcases hnot hdelete with hb | hd | hne | hc
          · exact .inl hb
          · exact .inr (.inl hd)
          · exact absurd hco hne
          · exact .inr (.inr hc))
        exact absurd hgone (by simp)
      | failed =>
        exact ⟨fun hok => absurd hok (by simp [Connection.commit]), fun _ => (hextra.2 t rfl).load⟩
      | rolledBack =>
        exact ⟨fun hok => absurd hok (by simp [Connection.commit]), fun _ => hextra.1.load⟩

section Flat

variable {o : Outcomes}

def plainSession : Session := ⟨"s", .ssh, .empty⟩

-- A folder of sessions without parameters: every insert but the first is one of a session.
def flat (name : QString) (n : Nat) : SessionFolder := ⟨name, [], List.replicate n plainSession⟩

theorem statements_flat (name : QString) (n : Nat) : statements (flat name n) = n + 1 := by
  simp [statements, flat, allStatements, sessionStatements, plainSession, QMap.empty, Nat.add_comm]

theorem stored_flat (name : QString) (n : Nat) :
    (saveFolder none .empty (flat name n)).sessionFolder = [⟨1, none, name⟩] ∧
      (saveFolder none .empty (flat name n)).session.length = n := by
  have hlength (folderId sid : Nat) (ss : List Session) :
      (sessionRows folderId sid ss).session.length = ss.length := by
    induction ss generalizing sid with
    | nil => rfl
    | cons s ss ih =>
      rw [sessionRows, Tables.session_append, List.length_append, ih]
      simp [Nat.add_comm]
  rw [saved_eq, flat, folderRows, subfolderRows]
  constructor
  · simp [sessionFolder_sessionRows, Tables.empty]
  · simp [hlength, Tables.empty]

def flatFolderId (o : Outcomes) (r : SaveRun) (name : QString) : Nat :=
  lastInsertId (r.insert o (insertFolder none name)).1 r.conn.tables.nextFolder

theorem flat_induct {I : SaveRun → Prop} {r : SaveRun} (hr : r.next = 0) (name : QString) (n : Nat)
    (hfirst : I (r.insert o (insertFolder none name)).2)
    (hstep : ∀ r', 0 < r'.next → r'.next < n + 1 → I r' →
      I (r'.insert o (insertSession (flatFolderId o r name) plainSession)).2) :
    I (runFolder o none r (flat name n)) ∧ (runFolder o none r (flat name n)).next = n + 1 := by
  have hsessions (k : Nat) (r' : SaveRun) (hpos : 0 < r'.next) (hk : r'.next + k = n + 1)
      (hI : I r') :
      I ((List.replicate k plainSession).foldl (runSession o (flatFolderId o r name)) r') ∧
        ((List.replicate k plainSession).foldl (runSession o (flatFolderId o r name)) r').next =
          n + 1 := by
    induction k generalizing r' with
    | zero => exact ⟨hI, hk⟩
    | succ k ih =>
      rw [List.replicate_succ, List.foldl_cons]
      have hnext : (runSession o (flatFolderId o r name) r' plainSession).next = r'.next + 1 := rfl
      exact ih _ (by omega) (by omega) (hstep r' hpos (by omega) hI)
  have hone : (r.insert o (insertFolder none name)).2.next = 1 := by
    change r.next + 1 = 1
    omega
  rw [flat, runFolder, runFolders]
  exact hsessions n _ (by omega) (by omega) hfirst

theorem load_single {t : Tables} {name : QString} (h : t.sessionFolder = [⟨1, none, name⟩]) :
    loadTree t = some ⟨name, [], (t.sessionsOf 1).map (readSession t)⟩ := by
  have hsub : t.foldersOf 1 = [] := by
    rw [Tables.foldersOf, h]
    rfl
  rw [loadTree, h]
  change fill t 1 1 name = _
  rw [fill, hsub]
  rfl

theorem load_none {t : Tables} (h : t.sessionFolder = []) :
    loadTree t = some ⟨"Sessions", [], []⟩ := by
  rw [loadTree, h]
  rfl

theorem insertSession_folders {folderId : Nat} {s : Session} {t u : Tables}
    (h : insertSession folderId s t = some u) : u.sessionFolder = t.sessionFolder := by
  rw [insertSession] at h
  split at h
  · obtain rfl := Option.some.inj h
    rfl
  · cases h

theorem insert_tables {r : SaveRun} (change : Tables → Option Tables)
    (h : r.conn.pending = none ∨ o.insert r.next ≠ .rolledBack) :
    ((r.insert o change).2.conn.pending = none ↔ r.conn.pending = none) ∧
      (r.insert o change).2.conn.tables =
        if o.insert r.next = .ok then (change r.conn.tables).getD r.conn.tables
        else r.conn.tables := by
  rw [SaveRun.insert]
  rcases exec_cases r.conn (o.insert r.next) change with ⟨ho, t, ht, he⟩ | ⟨-, hc, he⟩ | ⟨ho, he⟩
  · rw [he, if_pos ho, ht]
    exact ⟨pending_write _ _, Connection.tables_write _ _⟩
  · rw [he]
    refine ⟨Iff.rfl, ?_⟩
    split
    · rename_i hok
      rw [hc hok]
      rfl
    · rfl
  · have hnone := h.resolve_right (not_not.mpr ho)
    have hsame : r.conn.cancel = r.conn := by
      obtain ⟨⟨durable, pending⟩, next⟩ := r
      obtain rfl : pending = none := hnone
      rfl
    rw [he, hsame, ho, if_neg (by decide)]
    exact ⟨Iff.rfl, rfl⟩

theorem not_rolledBack {m k : Nat} (h : ¬Cancelled o m) (hk : k < m) :
    o.insert k ≠ .rolledBack := fun ho => h ⟨k, hk, ho⟩

theorem flat_folders {r : SaveRun} {name : QString} {n : Nat} (hr : r.next = 0)
    (hempty : r.conn.tables = .empty) (hgone : r.conn.pending = none ∨ ¬Cancelled o (n + 1)) :
    ((runFolder o none r (flat name n)).conn.pending = none ↔ r.conn.pending = none) ∧
      (runFolder o none r (flat name n)).conn.tables.sessionFolder =
        if o.insert 0 = .ok then [⟨1, none, name⟩] else [] := by
  refine (@flat_induct o (fun r' => (r'.conn.pending = none ↔ r.conn.pending = none) ∧
    r'.conn.tables.sessionFolder = if o.insert 0 = .ok then [⟨1, none, name⟩] else []) r hr name n
    ?_ ?_).1
  · obtain ⟨hp, ht⟩ := insert_tables (insertFolder none name)
      (hgone.imp_right fun h => not_rolledBack h (by omega))
    refine ⟨hp, ?_⟩
    rw [ht, hr, hempty]
    split <;> rfl
  · rintro r' - hn ⟨hp, hf⟩
    obtain ⟨hp', ht⟩ := insert_tables (insertSession (flatFolderId o r name) plainSession)
      (hgone.imp hp.mpr fun h => not_rolledBack h hn)
    refine ⟨hp'.trans hp, ?_⟩
    rw [ht, ← hf]
    split
    · cases hc : insertSession (flatFolderId o r name) plainSession r'.conn.tables with
      | none => rfl
      | some u => exact insertSession_folders hc
    · rfl

theorem load_renamed {t : Tables} (h : t.sessionFolder = if o.insert 0 = .ok then
    [⟨1, none, "b".toList⟩] else []) : loadTree t ≠ loadTree (saveFolder none .empty (flat "a" 0)) := by
  rw [load_single (stored_flat "a" 0).1]
  split at h
  · rw [load_single h]
    intro he
    have hname : "b".toList = "a".toList := congrArg SessionFolder.name (Option.some.inj he)
    exact absurd hname (by decide)
  · rw [load_none h]
    intro he
    have hname : "Sessions".toList = "a".toList := congrArg SessionFolder.name (Option.some.inj he)
    exact absurd hname (by decide)

theorem begun_of_atomic {n : Nat} (h : Atomic o (flat "a" 0) (flat "b" n)) (hd : o.delete = .ok) :
    o.begin = true := by
  by_contra hb
  rw [Bool.not_eq_true] at hb
  have hsave : saveTree o ⟨saveFolder none .empty (flat "a" 0), none⟩ (flat "b" n) =
      (runFolder o none ⟨⟨.empty, none⟩, 0⟩ (flat "b" n)).conn.commit o.commit := by
    simp [saveTree, Connection.begin, hb, hd, Connection.exec, Connection.write]
  obtain ⟨hp, hf⟩ := @flat_folders o ⟨⟨.empty, none⟩, 0⟩ "b" n rfl rfl (.inl rfl)
  rw [Atomic, hsave, Connection.commit, hp.mpr rfl] at h
  exact load_renamed hf (h.2 rfl)

theorem insertSession_length {folderId : Nat} {s : Session} (t : Tables) :
    ((insertSession folderId s t).getD t).session.length ≤ t.session.length + 1 := by
  rw [insertSession]
  split
  · simp
  · exact Nat.le_succ _

theorem flat_sessions {r : SaveRun} {name : QString} {n : Nat} (hr : r.next = 0)
    (hempty : r.conn.tables = .empty) (hgone : ¬Cancelled o (n + 1)) {k : Nat} (hk : 0 < k)
    (hkn : k < n + 1) (ho : o.insert k ≠ .ok) :
    (runFolder o none r (flat name n)).conn.tables.session.length < n := by
  have hrun := @flat_induct o (fun r' => r'.conn.tables.session.length + 1 ≤ r'.next ∧
    (k < r'.next → r'.conn.tables.session.length + 1 < r'.next)) r hr name n ?_ ?_
  · have hlt := hrun.1.2 (by rw [hrun.2]; exact hkn)
    rw [hrun.2] at hlt
    omega
  · have ht := (@insert_tables o r (insertFolder none name)
      (.inr (not_rolledBack hgone (by omega)))).2
    have hone : (r.insert o (insertFolder none name)).2.next = 1 := congrArg (· + 1) hr
    have hzero : (r.insert o (insertFolder none name)).2.conn.tables.session.length = 0 := by
      rw [ht, hempty]
      split <;> rfl
    omega
  · rintro r' - hn ⟨hle, hlt⟩
    have ht := (@insert_tables o r' (insertSession (flatFolderId o r name) plainSession)
      (.inr (not_rolledBack hgone hn))).2
    have hlength := @insertSession_length (flatFolderId o r name) plainSession r'.conn.tables
    have hnext : (r'.insert o (insertSession (flatFolderId o r name) plainSession)).2.next =
        r'.next + 1 := rfl
    rw [ht, hnext]
    split
    · rename_i hok
      have hne : k ≠ r'.next := fun he => ho (he ▸ hok)
      omega
    · omega

theorem commit_of_atomic {n : Nat} (h : Atomic o (flat "a" 0) (flat "b" n)) (hd : o.delete = .ok)
    (hb : o.begin = true) (hc : ¬Cancelled o (n + 1)) :
    o.commit ≠ .failed ∧ (o.commit = .ok → ∀ k < n + 1, o.insert k = .ok) := by
  have hsave : saveTree o ⟨saveFolder none .empty (flat "a" 0), none⟩ (flat "b" n) =
      (runFolder o none ⟨⟨saveFolder none .empty (flat "a" 0), some .empty⟩, 0⟩
        (flat "b" n)).conn.commit o.commit := by
    simp [saveTree, Connection.begin, hb, hd, Connection.exec, Connection.write]
  obtain ⟨hp, hf⟩ := @flat_folders o ⟨⟨saveFolder none .empty (flat "a" 0), some .empty⟩, 0⟩ "b" n
    rfl rfl (.inr hc)
  have hs {k : Nat} := @flat_sessions o ⟨⟨saveFolder none .empty (flat "a" 0), some .empty⟩, 0⟩ "b" n
    rfl rfl hc k
  rw [Atomic, hsave] at h
  revert h hp hf hs
  generalize (runFolder o none ⟨⟨saveFolder none .empty (flat "a" 0), some .empty⟩, 0⟩
    (flat "b" n)).conn = c
  intro h hp hf hs
  obtain ⟨durable, pending⟩ := c
  cases pending with
  | none => exact absurd (hp.mp rfl) (by simp)
  | some t =>
    constructor
    · intro hco
      rw [hco] at h
      exact load_renamed hf (h.2 rfl)
    · intro hco k hk
      rw [hco] at h
      have ht : t = saveFolder none .empty (flat "b" n) := congrArg Connection.durable (h.1 rfl)
      obtain ⟨hfolders, hlength⟩ := stored_flat "b" n
      by_contra hne
      rcases Nat.eq_zero_or_pos k with rfl | hpos
      · rw [if_neg hne, Connection.tables, Option.getD_some, ht, hfolders] at hf
        exact absurd hf (by simp)
      · have hlt := hs hpos hk hne
        rw [Connection.tables, Option.getD_some, ht, hlength] at hlt
        exact Nat.lt_irrefl _ hlt

theorem insertSession_in {folderId : Nat} {t : Tables} (h : folderId ∈ folderIds t) (s : Session) :
    ∃ u, insertSession folderId s t = some u ∧ u.sessionFolder = t.sessionFolder ∧
      u.sessionsOf folderId ≠ [] := by
  refine ⟨_, if_pos h, rfl, ?_⟩
  simp [Tables.sessionsOf, sessionRow]

-- A save whose transaction goes with insert j, and the session that insert k puts in the old tree.
structure Straying (j k : Nat) (r : SaveRun) : Prop where
  folders : r.conn.durable.sessionFolder = [⟨1, none, "a"⟩]
  gone : j < r.next → r.conn.pending = none
  stray : k < r.next → r.conn.durable.sessionsOf 1 ≠ []

theorem Straying.insert_closed {r : SaveRun} {j k : Nat} (h : Straying j k r)
    (hp : r.conn.pending = none) (hok : o.insert k = .ok) :
    Straying j k (r.insert o (insertSession 1 plainSession)).2 := by
  have htables : r.conn.tables = r.conn.durable := by
    rw [Connection.tables, hp]
    rfl
  have hin : 1 ∈ folderIds r.conn.tables := by
    rw [htables, folderIds, h.folders]
    exact List.mem_singleton_self 1
  obtain ⟨u, hu, huf, hus⟩ := insertSession_in hin plainSession
  rw [SaveRun.insert]
  rcases exec_cases r.conn (o.insert r.next) (insertSession 1 plainSession) with
    ⟨-, t, ht, he⟩ | ⟨-, hnone, he⟩ | ⟨hrb, he⟩
  · obtain rfl := Option.some.inj (hu.symm.trans ht)
    have hd : (r.conn.write u).durable = u := by rw [Connection.write, hp]
    rw [he]
    refine ⟨?_, fun _ => (pending_write _ _).mpr hp, fun _ => ?_⟩
    · rw [hd, huf, htables, h.folders]
    · rw [hd]
      exact hus
  · have hne : k ≠ r.next := fun heq => by
      have hrow := hnone (heq ▸ hok)
      rw [hu] at hrow
      cases hrow
    rw [he]
    refine ⟨h.folders, fun _ => hp, fun hlt => h.stray ?_⟩
    dsimp only at hlt
    omega
  · have hne : k ≠ r.next := fun heq => by
      rw [← heq, hok] at hrb
      cases hrb
    rw [he]
    refine ⟨h.folders, fun _ => rfl, fun hlt => h.stray ?_⟩
    dsimp only at hlt
    omega

theorem Straying.insert_open {r : SaveRun} {j k : Nat} (h : Straying j k r) (hjk : j < k)
    (hp : r.conn.pending ≠ none) (hj : o.insert j = .rolledBack) :
    Straying j k (r.insert o (insertSession 1 plainSession)).2 := by
  have hnot : r.next ≤ j := Nat.not_lt.mp fun hlt => hp (h.gone hlt)
  rw [SaveRun.insert]
  rcases exec_cases r.conn (o.insert r.next) (insertSession 1 plainSession) with
    ⟨ho, t, -, he⟩ | ⟨ho, -, he⟩ | ⟨-, he⟩
  · have hne : j ≠ r.next := fun heq => by
      rw [← heq, hj] at ho
      cases ho
    rw [he]
    refine ⟨by rw [durable_write t hp]; exact h.folders, fun hlt => ?_, fun hlt => ?_⟩ <;>
      · dsimp only at hlt
        omega
  · have hne : j ≠ r.next := fun heq => ho (heq ▸ hj)
    rw [he]
    refine ⟨h.folders, fun hlt => ?_, fun hlt => ?_⟩ <;>
      · dsimp only at hlt
        omega
  · rw [he]
    refine ⟨h.folders, fun _ => rfl, fun hlt => ?_⟩
    dsimp only at hlt
    omega

-- A session that is inserted after the transaction is gone ends up in the old tree.
theorem strays {r : SaveRun} {n j k : Nat} (hr : r.next = 0)
    (hconn : r.conn = ⟨saveFolder none .empty (flat "a" 0), some .empty⟩)
    (hfirst : o.insert 0 = .ok) (hjk : j < k) (hk : k < n + 1) (hj : o.insert j = .rolledBack)
    (hok : o.insert k = .ok) :
    (runFolder o none r (flat "b" n)).conn.durable.sessionFolder = [⟨1, none, "a"⟩] ∧
      (runFolder o none r (flat "b" n)).conn.durable.sessionsOf 1 ≠ [] := by
  have hrow : insertFolder none "b" r.conn.tables = some ⟨[⟨1, none, "b"⟩], [], []⟩ := by
    rw [hconn]
    rfl
  have hinsert : r.insert o (insertFolder none "b") =
      (true, ⟨r.conn.write ⟨[⟨1, none, "b"⟩], [], []⟩, r.next + 1⟩) :=
    insert_ok (hr ▸ hfirst) hrow
  have hid : flatFolderId o r "b" = 1 := by
    rw [flatFolderId, hinsert, hconn]
    rfl
  have hrun := @flat_induct o (Straying j k) r hr "b" n ?_ ?_
  · exact ⟨hrun.1.folders, hrun.1.stray (by rw [hrun.2]; exact hk)⟩
  · have hj0 : j ≠ 0 := fun he => by
      rw [he, hfirst] at hj
      cases hj
    rw [hinsert, hconn, hr]
    exact ⟨(stored_flat "a" 0).1, fun hlt => by dsimp only at hlt; omega,
      fun hlt => by dsimp only at hlt; omega⟩
  · rintro r' - hn h
    rw [hid]
    by_cases hp : r'.conn.pending = none
    · exact h.insert_closed hp hok
    · exact h.insert_open hjk hp hj

theorem quiet_of_atomic {n : Nat} (h : Atomic o (flat "a" 0) (flat "b" n)) (hd : o.delete = .ok)
    (hb : o.begin = true) (hc : Cancelled o (n + 1)) (hfirst : o.insert 0 = .ok) :
    Quiet o (n + 1) := by
  intro j k hjk hk hj hok
  have hsave : saveTree o ⟨saveFolder none .empty (flat "a" 0), none⟩ (flat "b" n) =
      (runFolder o none ⟨⟨saveFolder none .empty (flat "a" 0), some .empty⟩, 0⟩
        (flat "b" n)).conn.commit o.commit := by
    simp [saveTree, Connection.begin, hb, hd, Connection.exec, Connection.write]
  obtain ⟨hfolders, hsessions⟩ := @strays o ⟨⟨saveFolder none .empty (flat "a" 0), some .empty⟩, 0⟩
    n j k rfl rfl hfirst hjk hk hj hok
  have hgone := @closed_after o (flat "b" n) ⟨⟨saveFolder none .empty (flat "a" 0), some .empty⟩, 0⟩
    rfl ((statements_flat "b" n).symm ▸ hc)
  rw [Atomic, hsave, Connection.commit, hgone] at h
  have hload := h.2 rfl
  rw [Connection.tables, hgone, Option.getD_none, load_single hfolders,
    load_single (stored_flat "a" 0).1] at hload
  have hold : (saveFolder none .empty (flat "a" 0)).sessionsOf 1 = [] := by
    rw [Tables.sessionsOf, List.length_eq_zero_iff.mp (stored_flat "a" 0).2]
    rfl
  have hmap := congrArg SessionFolder.sessions (Option.some.inj hload)
  rw [hold] at hmap
  exact hsessions (List.map_eq_nil_iff.mp hmap)

theorem open_kept {r : SaveRun} (root : SessionFolder) (hr : r.next = 0)
    (hc : ¬Cancelled o (statements root)) (h : r.conn.pending ≠ none) :
    (runFolder o none r root).conn.pending ≠ none := by
  refine (@runFolder_induct o (statements root) (fun r => r.conn.pending ≠ none) ?_ none root r
    (by omega) h).1
  intro r' change hm hI hnone
  exact hI ((insert_tables change (.inr (not_rolledBack hc hm))).1.mp hnone)

theorem noticed_of_atomic {n : Nat} (h : Atomic o (flat "a" 0) (flat "b" n)) (hd : o.delete ≠ .ok) :
    o.begin = false ∨ o.delete = .rolledBack ∨ o.commit ≠ .ok ∨ Cancelled o (n + 1) := by
  by_contra hnot
  simp only [not_or, not_not, Bool.not_eq_false] at hnot
  obtain ⟨hb, hr, hco, hc⟩ := hnot
  have hf : o.delete = .failed := by
    cases hdelete : o.delete with
    | ok => exact absurd hdelete hd
    | failed => rfl
    | rolledBack => exact absurd hdelete hr
  have hsave : saveTree o ⟨saveFolder none .empty (flat "a" 0), none⟩ (flat "b" n) =
      (runFolder o none ⟨⟨saveFolder none .empty (flat "a" 0),
        some (saveFolder none .empty (flat "a" 0))⟩, 0⟩ (flat "b" n)).conn.commit o.commit := by
    simp [saveTree, Connection.begin, hb, hf, Connection.exec]
  have hself := Extra.self (flat "a" 0)
  have hextra := @extra_runFolder o (flat "a" 0) (flat "b" n) ⟨⟨saveFolder none .empty (flat "a" 0),
    some (saveFolder none .empty (flat "a" 0))⟩, 0⟩ ⟨hself, fun t ht => Option.some.inj ht ▸ hself⟩
  have hopen := @open_kept o ⟨⟨saveFolder none .empty (flat "a" 0),
    some (saveFolder none .empty (flat "a" 0))⟩, 0⟩ (flat "b" n) rfl
    ((statements_flat "b" n).symm ▸ hc) (by simp)
  rw [Atomic, hsave] at h
  revert h hextra hopen
  generalize runFolder o none ⟨⟨saveFolder none .empty (flat "a" 0),
    some (saveFolder none .empty (flat "a" 0))⟩, 0⟩ (flat "b" n) = r
  intro h hextra hopen
  obtain ⟨⟨durable, pending⟩, next⟩ := r
  cases pending with
  | none => exact hopen rfl
  | some t =>
    rw [hco] at h
    have ht : t = saveFolder none .empty (flat "b" n) := congrArg Connection.durable (h.1 rfl)
    obtain ⟨u, hu, -⟩ := hextra.2 t rfl
    have hrows := congrArg Tables.sessionFolder (ht.symm.trans hu)
    rw [(stored_flat "b" n).1, Tables.sessionFolder_append, ← saved_eq,
      (stored_flat "a" 0).1] at hrows
    have hname := congrArg FolderRow.name (List.cons.inj hrows).1
    exact absurd hname (by decide)

end Flat

theorem saveTree_atomic_iff (o : Outcomes) (n : Nat) :
    (∀ old new, statements new = n + 1 → Atomic o old new) ↔ Safe o (n + 1) := by
  constructor
  · intro h
    have hflat := h (flat "a" 0) (flat "b" n) (statements_flat "b" n)
    refine ⟨fun hd => ?_, noticed_of_atomic hflat⟩
    have hb := begun_of_atomic hflat hd
    exact ⟨hb, quiet_of_atomic hflat hd hb, commit_of_atomic hflat hd hb⟩
  · intro h old new hn
    exact atomic_of_safe o old new (hn ▸ h)

theorem failed_insert_commits :
    ¬Atomic ⟨true, .ok, fun k => if k = 1 then .failed else .ok, .ok⟩ (flat "a" 0) (flat "b" 1) := by
  intro h
  have hstored := congrArg (fun c => c.durable.session.length) (h.1 (by decide +kernel))
  exact absurd hstored (by decide +kernel)

end Core
