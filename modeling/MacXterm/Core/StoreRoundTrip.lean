import MacXterm.Core.LoadTree

namespace Core

open Qt SessionFolder

attribute [ext] Tables

namespace Tables

def append (t u : Tables) : Tables :=
  ⟨t.sessionFolder ++ u.sessionFolder, t.session ++ u.session, t.sessionParam ++ u.sessionParam⟩

instance : Append Tables := ⟨append⟩

def nextFolder (t : Tables) : Nat := nextId (t.sessionFolder.map FolderRow.id)

@[simp] theorem foldersOf_append (t u : Tables) (i : Nat) :
    (t ++ u).foldersOf i = t.foldersOf i ++ u.foldersOf i := List.filter_append _ _

@[simp] theorem sessionsOf_append (t u : Tables) (i : Nat) :
    (t ++ u).sessionsOf i = t.sessionsOf i ++ u.sessionsOf i := List.filter_append _ _

@[simp] theorem paramsOf_append (t u : Tables) (i : Nat) :
    (t ++ u).paramsOf i = t.paramsOf i ++ u.paramsOf i := List.filter_append _ _

@[simp] theorem sessionFolder_append (t u : Tables) :
    (t ++ u).sessionFolder = t.sessionFolder ++ u.sessionFolder := rfl

@[simp] theorem session_append (t u : Tables) : (t ++ u).session = t.session ++ u.session := rfl

@[simp] theorem sessionParam_append (t u : Tables) :
    (t ++ u).sessionParam = t.sessionParam ++ u.sessionParam := rfl

theorem append_assoc (t u v : Tables) : t ++ u ++ v = t ++ (u ++ v) := by
  ext1 <;> simp

theorem append_empty (t : Tables) : t ++ empty = t := by
  ext1 <;> simp [empty]

end Tables

def sessionRows (folderId : Nat) : Nat → List Session → Tables
  | _, [] => .empty
  | sid, s :: ss =>
      ⟨[], [sessionRow sid folderId s], s.params.entries.map fun e => ⟨sid, e.1, e.2⟩⟩ ++
        sessionRows folderId (sid + 1) ss

mutual

-- The rows that a folder adds, when the next folder is `n` and the next session is `sid`.
def folderRows (parentId : Option Nat) (n sid : Nat) : SessionFolder → Tables
  | ⟨name, folders, sessions⟩ =>
      ⟨[⟨n, parentId, name⟩], [], []⟩ ++
        (sessionRows n sid sessions ++ subfolderRows n (n + 1) (sid + sessions.length) folders)

def subfolderRows (parentId n sid : Nat) : List SessionFolder → Tables
  | [] => .empty
  | f :: fs =>
      folderRows (some parentId) n sid f ++
        subfolderRows parentId (n + f.folderCount) (sid + f.totalSessions) fs

end

-- The ids that come next, and no parameter of a session to come.
structure Counts (t : Tables) (n sid : Nat) : Prop where
  folder : t.nextFolder = n
  session : t.nextSession = sid
  fresh : t.Fresh

theorem foldl_replaceParam_append (sid : Nat) (es : List (QString × QString)) (t : Tables)
    (hes : es.Pairwise fun a b => units a.1 < units b.1)
    (h : ∀ r ∈ t.sessionParam, r.sessionId = sid → ∀ e ∈ es, r.key ≠ e.1) :
    es.foldl (fun t e => t.replaceParam ⟨sid, e.1, e.2⟩) t =
      t ++ ⟨[], [], es.map fun e => ⟨sid, e.1, e.2⟩⟩ := by
  induction es generalizing t with
  | nil => exact (Tables.append_empty t).symm
  | cons e es ih =>
    obtain ⟨he, hrest⟩ := List.pairwise_cons.mp hes
    have hkeep : t.replaceParam ⟨sid, e.1, e.2⟩ = t ++ ⟨[], [], [⟨sid, e.1, e.2⟩]⟩ := by
      have hall : t.sessionParam.filter (fun r => ¬(r.sessionId = sid ∧ r.key = e.1)) =
          t.sessionParam := by
        rw [List.filter_eq_self]
        intro r hr
        simp only [decide_eq_true_eq]
        exact fun hsame => h r hr hsame.1 e List.mem_cons_self hsame.2
      change Tables.mk _ _ (_ ++ _) = Tables.append t _
      rw [hall]
      simp [Tables.append]
    rw [List.foldl_cons, hkeep, ih _ hrest, Tables.append_assoc]
    · rfl
    · intro r hr hsid d hd
      rcases List.mem_append.mp hr with hr | hr
      · exact h r hr hsid d (List.mem_cons_of_mem _ hd)
      · rw [List.mem_singleton.mp hr]
        intro hkey
        have hlt := he d hd
        rw [show e.1 = d.1 from hkey] at hlt
        exact lt_irrefl _ hlt

theorem saveSession_eq (folderId : Nat) {t : Tables} {n sid : Nat} (h : Counts t n sid)
    (s : Session) :
    saveSession folderId t s = t ++ sessionRows folderId sid [s] ∧
      Counts (saveSession folderId t s) n (sid + 1) := by
  obtain ⟨hn, hsid, hfresh⟩ := h
  have hrow : saveSession folderId t s = t ++ sessionRows folderId sid [s] := by
    rw [saveSession, hsid, foldl_replaceParam_append sid _ _ s.params.sorted]
    · ext1 <;> simp [sessionRows, Tables.empty]
    · intro r hr he
      have hlt := hfresh r hr
      omega
  refine ⟨hrow, ?_, ?_, fresh_saveSession folderId s hfresh⟩
  · rw [hrow, ← hn]
    exact congrArg (fun rows => nextId (rows.map FolderRow.id)) (List.append_nil _)
  · rw [nextSession_saveSession, hsid]

theorem foldl_saveSession_eq (folderId : Nat) (ss : List Session) {t : Tables} {n sid : Nat}
    (h : Counts t n sid) :
    ss.foldl (saveSession folderId) t = t ++ sessionRows folderId sid ss ∧
      Counts (ss.foldl (saveSession folderId) t) n (sid + ss.length) := by
  induction ss generalizing t sid with
  | nil => exact ⟨(Tables.append_empty t).symm, h⟩
  | cons s ss ih =>
    obtain ⟨hrow, hnext⟩ := saveSession_eq folderId h s
    obtain ⟨hrows, hcounts⟩ := ih hnext
    rw [List.foldl_cons]
    refine ⟨?_, ?_⟩
    · rw [hrows, hrow, Tables.append_assoc]
      simp only [sessionRows, Tables.append_empty]
    · rw [List.length_cons, Nat.add_comm ss.length, ← Nat.add_assoc]
      exact hcounts

theorem counts_folder {t : Tables} {n sid : Nat} (h : Counts t n sid) (parentId : Option Nat)
    (name : QString) : Counts (t ++ ⟨[⟨n, parentId, name⟩], [], []⟩) (n + 1) sid := by
  obtain ⟨rfl, hsid, hfresh⟩ := h
  have hsession : (t ++ ⟨[⟨t.nextFolder, parentId, name⟩], [], []⟩).nextSession =
      t.nextSession := by simp [Tables.nextSession]
  refine ⟨?_, hsession.trans hsid, ?_⟩
  · simp only [Tables.nextFolder, Tables.sessionFolder_append, List.map_append, List.map_cons,
      List.map_nil]
    exact nextId_append _
  · intro r hr
    rw [hsession]
    simp only [Tables.sessionParam_append, List.append_nil] at hr
    exact hfresh r hr

mutual

theorem saveFolder_eq (parentId : Option Nat) {t : Tables} {n sid : Nat} (h : Counts t n sid) :
    ∀ f, saveFolder parentId t f = t ++ folderRows parentId n sid f ∧
      Counts (saveFolder parentId t f) (n + f.folderCount) (sid + f.totalSessions)
  | ⟨name, folders, sessions⟩ => by
    have htop : ({ t with sessionFolder := t.sessionFolder ++ [⟨n, parentId, name⟩] } : Tables) =
        t ++ ⟨[⟨n, parentId, name⟩], [], []⟩ := by
      ext1 <;> simp
    obtain ⟨hrows, hcounts⟩ := foldl_saveSession_eq n sessions (counts_folder h parentId name)
    obtain ⟨hsub, hall⟩ := saveFolders_eq n hcounts folders
    rw [saveFolder, show nextId (t.sessionFolder.map FolderRow.id) = n from h.folder, htop]
    refine ⟨?_, ?_⟩
    · rw [hsub, hrows, folderRows, Tables.append_assoc, Tables.append_assoc]
    · rw [SessionFolder.folderCount, SessionFolder.totalSessions, ← Nat.add_assoc, ← Nat.add_assoc]
      exact hall

theorem saveFolders_eq (parentId : Nat) {t : Tables} {n sid : Nat} (h : Counts t n sid) :
    ∀ fs, saveFolders parentId t fs = t ++ subfolderRows parentId n sid fs ∧
      Counts (saveFolders parentId t fs) (n + folderCounts fs) (sid + totalInFolders fs)
  | [] => by
    rw [subfolderRows]
    exact ⟨(Tables.append_empty t).symm, h⟩
  | f :: fs => by
    obtain ⟨hrow, hnext⟩ := saveFolder_eq (some parentId) h f
    obtain ⟨hrows, hall⟩ := saveFolders_eq parentId hnext fs
    rw [saveFolders]
    refine ⟨?_, ?_⟩
    · rw [hrows, hrow, subfolderRows, Tables.append_assoc]
    · rw [folderCounts, totalInFolders, ← Nat.add_assoc, ← Nat.add_assoc]
      exact hall

end

theorem counts_empty : Counts .empty 1 1 := ⟨rfl, rfl, nofun⟩

-- The two tables give the same answers about the folders and sessions with ids in the bounds.
structure Agrees (t u : Tables) (lo hi slo shi : Nat) : Prop where
  folders : ∀ i, lo ≤ i → i < hi → t.foldersOf i = u.foldersOf i
  sessions : ∀ i, lo ≤ i → i < hi → t.sessionsOf i = u.sessionsOf i
  params : ∀ i, slo ≤ i → i < shi → t.paramsOf i = u.paramsOf i

-- No row belongs to a folder or a session with an id in the bounds.
structure Avoids (t : Tables) (lo hi slo shi : Nat) : Prop where
  folders : ∀ i, lo ≤ i → i < hi → t.foldersOf i = []
  sessions : ∀ i, lo ≤ i → i < hi → t.sessionsOf i = []
  params : ∀ i, slo ≤ i → i < shi → t.paramsOf i = []

theorem Agrees.refl (t : Tables) (lo hi slo shi : Nat) : Agrees t t lo hi slo shi :=
  ⟨fun _ _ _ => rfl, fun _ _ _ => rfl, fun _ _ _ => rfl⟩

theorem Agrees.left {t u v : Tables} {lo hi slo shi hi' shi' : Nat}
    (h : Agrees t (u ++ v) lo hi slo shi) (hv : Avoids v lo hi' slo shi') (hhi : hi' ≤ hi)
    (hshi : shi' ≤ shi) : Agrees t u lo hi' slo shi' := by
  refine ⟨fun i h1 h2 => ?_, fun i h1 h2 => ?_, fun i h1 h2 => ?_⟩
  · rw [h.folders i h1 (by omega), Tables.foldersOf_append, hv.folders i h1 h2, List.append_nil]
  · rw [h.sessions i h1 (by omega), Tables.sessionsOf_append, hv.sessions i h1 h2, List.append_nil]
  · rw [h.params i h1 (by omega), Tables.paramsOf_append, hv.params i h1 h2, List.append_nil]

theorem Agrees.right {t u v : Tables} {lo hi slo shi lo' slo' : Nat}
    (h : Agrees t (u ++ v) lo hi slo shi) (hu : Avoids u lo' hi slo' shi) (hlo : lo ≤ lo')
    (hslo : slo ≤ slo') : Agrees t v lo' hi slo' shi := by
  refine ⟨fun i h1 h2 => ?_, fun i h1 h2 => ?_, fun i h1 h2 => ?_⟩
  · rw [h.folders i (by omega) h2, Tables.foldersOf_append, hu.folders i h1 h2, List.nil_append]
  · rw [h.sessions i (by omega) h2, Tables.sessionsOf_append, hu.sessions i h1 h2, List.nil_append]
  · rw [h.params i (by omega) h2, Tables.paramsOf_append, hu.params i h1 h2, List.nil_append]

theorem Avoids.append {t u : Tables} {lo hi slo shi : Nat} (ht : Avoids t lo hi slo shi)
    (hu : Avoids u lo hi slo shi) : Avoids (t ++ u) lo hi slo shi := by
  refine ⟨fun i h1 h2 => ?_, fun i h1 h2 => ?_, fun i h1 h2 => ?_⟩
  · rw [Tables.foldersOf_append, ht.folders i h1 h2, hu.folders i h1 h2, List.append_nil]
  · rw [Tables.sessionsOf_append, ht.sessions i h1 h2, hu.sessions i h1 h2, List.append_nil]
  · rw [Tables.paramsOf_append, ht.params i h1 h2, hu.params i h1 h2, List.append_nil]

theorem avoids_empty (lo hi slo shi : Nat) : Avoids .empty lo hi slo shi :=
  ⟨fun _ _ _ => rfl, fun _ _ _ => rfl, fun _ _ _ => rfl⟩

theorem avoids_folder {parentId : Option Nat} {n : Nat} {name : QString} {lo hi slo shi : Nat}
    (h : ∀ i, parentId = some i → i < lo ∨ hi ≤ i) :
    Avoids ⟨[⟨n, parentId, name⟩], [], []⟩ lo hi slo shi := by
  refine ⟨fun i h1 h2 => ?_, fun _ _ _ => rfl, fun _ _ _ => rfl⟩
  refine List.filter_eq_nil_iff.mpr fun r hr => ?_
  rw [List.mem_singleton.mp hr]
  intro he
  have := h i (of_decide_eq_true he)
  omega

theorem avoids_sessionRows {folderId sid : Nat} {ss : List Session} {lo hi slo shi : Nat}
    (hfolder : folderId < lo ∨ hi ≤ folderId) (hsid : sid + ss.length ≤ slo ∨ shi ≤ sid) :
    Avoids (sessionRows folderId sid ss) lo hi slo shi := by
  induction ss generalizing sid with
  | nil => exact avoids_empty lo hi slo shi
  | cons s ss ih =>
    rw [List.length_cons] at hsid
    refine .append ⟨fun _ _ _ => rfl, fun i h1 h2 => ?_, fun i h1 h2 => ?_⟩ (ih (by omega))
    · refine List.filter_eq_nil_iff.mpr fun r hr => ?_
      rw [List.mem_singleton.mp hr]
      intro he
      have hi : folderId = i := of_decide_eq_true he
      omega
    · refine List.filter_eq_nil_iff.mpr fun r hr => ?_
      obtain ⟨e, -, rfl⟩ := List.mem_map.mp hr
      intro he
      have hi : sid = i := of_decide_eq_true he
      omega

mutual

theorem avoids_folderRows {parentId : Option Nat} {n sid lo hi slo shi : Nat} :
    ∀ {f : SessionFolder}, (∀ i, parentId = some i → i < lo ∨ hi ≤ i) →
      (n + f.folderCount ≤ lo ∨ hi ≤ n) → (sid + f.totalSessions ≤ slo ∨ shi ≤ sid) →
      Avoids (folderRows parentId n sid f) lo hi slo shi
  | ⟨name, folders, sessions⟩, hparent, hn, hsid => by
    rw [SessionFolder.folderCount] at hn
    rw [SessionFolder.totalSessions] at hsid
    rw [folderRows]
    refine .append (avoids_folder hparent) (.append (avoids_sessionRows ?_ ?_) ?_)
    · omega
    · omega
    · exact avoids_subfolderRows (by omega) (by omega) (by omega)

theorem avoids_subfolderRows {parentId n sid lo hi slo shi : Nat} :
    ∀ {fs : List SessionFolder}, (parentId < lo ∨ hi ≤ parentId) →
      (n + folderCounts fs ≤ lo ∨ hi ≤ n) → (sid + totalInFolders fs ≤ slo ∨ shi ≤ sid) →
      Avoids (subfolderRows parentId n sid fs) lo hi slo shi
  | [], _, _, _ => by
    rw [subfolderRows]
    exact avoids_empty lo hi slo shi
  | f :: fs, hparent, hn, hsid => by
    rw [folderCounts] at hn
    rw [totalInFolders] at hsid
    rw [subfolderRows]
    refine .append (avoids_folderRows ?_ (by omega) (by omega))
      (avoids_subfolderRows hparent (by omega) (by omega))
    rintro i ⟨⟩
    exact hparent

end

theorem sessionsOf_sessionRows (folderId sid : Nat) (ss : List Session) :
    (sessionRows folderId sid ss).sessionsOf folderId = (sessionRows folderId sid ss).session := by
  induction ss generalizing sid with
  | nil => rfl
  | cons s ss ih =>
    rw [sessionRows, Tables.sessionsOf_append, ih]
    refine congrArg (· ++ _) (List.filter_eq_self.mpr fun r hr => ?_)
    rw [List.mem_singleton.mp hr]
    exact decide_eq_true rfl

theorem sessionFolder_sessionRows (folderId sid : Nat) (ss : List Session) :
    (sessionRows folderId sid ss).sessionFolder = [] := by
  induction ss generalizing sid with
  | nil => rfl
  | cons s ss ih =>
    rw [sessionRows, Tables.sessionFolder_append, ih]
    rfl

theorem foldersOf_sessionRows (folderId sid i : Nat) (ss : List Session) :
    (sessionRows folderId sid ss).foldersOf i = [] := by
  rw [Tables.foldersOf, sessionFolder_sessionRows]
  rfl

theorem read_sessionRows {t : Tables} {folderId sid : Nat} {ss : List Session}
    (h : ∀ i, sid ≤ i → i < sid + ss.length →
      t.paramsOf i = (sessionRows folderId sid ss).paramsOf i) :
    (sessionRows folderId sid ss).session.map (readSession t) = ss.map reloaded := by
  induction ss generalizing sid with
  | nil => rfl
  | cons s ss ih =>
    rw [List.length_cons] at h
    have hlater : Avoids (sessionRows folderId (sid + 1) ss) folderId folderId sid (sid + 1) :=
      avoids_sessionRows (.inr (Nat.le_refl _)) (.inr (Nat.le_refl _))
    have hfirst : t.paramsOf sid = s.params.entries.map fun e => ⟨sid, e.1, e.2⟩ := by
      rw [h sid (Nat.le_refl _) (by omega), sessionRows, Tables.paramsOf_append,
        hlater.params sid (Nat.le_refl _) (Nat.lt_succ_self _), List.append_nil]
      refine List.filter_eq_self.mpr fun r hr => ?_
      obtain ⟨e, -, rfl⟩ := List.mem_map.mp hr
      exact decide_eq_true rfl
    rw [sessionRows, Tables.session_append, List.map_append, ih, List.map_singleton,
      readSession_sessionRow folderId hfirst]
    · rfl
    · intro i h1 h2
      rw [h i (by omega) (by omega), sessionRows, Tables.paramsOf_append]
      refine (congrArg (· ++ _) (List.filter_eq_nil_iff.mpr fun r hr => ?_)).trans (List.nil_append _)
      obtain ⟨e, -, rfl⟩ := List.mem_map.mp hr
      intro he
      have hi : sid = i := of_decide_eq_true he
      omega

def topRows (parentId : Nat) : Nat → List SessionFolder → List FolderRow
  | _, [] => []
  | n, f :: fs => ⟨n, some parentId, f.name⟩ :: topRows parentId (n + f.folderCount) fs

theorem parent_subfolderRows {parentId n : Nat} (sid : Nat) (h : parentId < n)
    (fs : List SessionFolder) :
    (subfolderRows parentId n sid fs).foldersOf parentId = topRows parentId n fs ∧
      (subfolderRows parentId n sid fs).sessionsOf parentId = [] := by
  induction fs generalizing n sid with
  | nil => simp [subfolderRows, topRows, Tables.empty, Tables.foldersOf, Tables.sessionsOf]
  | cons f fs ih =>
    obtain ⟨name, folders, sessions⟩ := f
    have hinner : Avoids (sessionRows n sid sessions ++
        subfolderRows n (n + 1) (sid + sessions.length) folders) parentId (parentId + 1) 0 0 :=
      .append (avoids_sessionRows (by omega) (by omega))
        (avoids_subfolderRows (by omega) (by omega) (by omega))
    have hfolders := hinner.folders parentId (Nat.le_refl _) (Nat.lt_succ_self _)
    have hsessions := hinner.sessions parentId (Nat.le_refl _) (Nat.lt_succ_self _)
    obtain ⟨hrest, hnone⟩ := ih (sid + (SessionFolder.mk name folders sessions).totalSessions)
      (Nat.lt_of_lt_of_le h (Nat.le_add_right n (SessionFolder.mk name folders sessions).folderCount))
    rw [subfolderRows, Tables.foldersOf_append, Tables.sessionsOf_append, hrest, hnone, folderRows,
      Tables.foldersOf_append, Tables.sessionsOf_append, hfolders, hsessions, topRows,
      List.append_nil]
    refine ⟨congrArg (· ++ _) (List.filter_eq_self.mpr fun r hr => ?_), rfl⟩
    rw [List.mem_singleton.mp hr]
    exact decide_eq_true rfl

mutual

theorem fill_folderRows {t : Tables} {fuel : Nat} {parentId : Option Nat} {n sid : Nat} :
    ∀ {f : SessionFolder}, f.folderCount ≤ fuel → (∀ i, parentId = some i → i < n) →
      Agrees t (folderRows parentId n sid f) n (n + f.folderCount) sid (sid + f.totalSessions) →
      fill t fuel n f.name = some (mapSessions reloaded f)
  | ⟨name, folders, sessions⟩, hfuel, hparent, h => by
    rw [SessionFolder.folderCount] at hfuel h
    rw [SessionFolder.totalSessions, folderRows, ← Nat.add_assoc, ← Nat.add_assoc] at h
    cases fuel with
    | zero => omega
    | succ fuel =>
      have hbody := h.right (avoids_folder fun i hi => .inl (hparent i hi)) (Nat.le_refl _)
        (Nat.le_refl _)
      obtain ⟨htop, hnone⟩ := parent_subfolderRows (sid + sessions.length) (Nat.lt_succ_self n)
        folders
      have hlater : Avoids (subfolderRows n (n + 1) (sid + sessions.length) folders) 0 0 sid
          (sid + sessions.length) := avoids_subfolderRows (by omega) (by omega) (by omega)
      have hfolders : t.foldersOf n = topRows n (n + 1) folders := by
        rw [hbody.folders n (Nat.le_refl _) (by omega), Tables.foldersOf_append,
          foldersOf_sessionRows, List.nil_append, htop]
      have hsessions : t.sessionsOf n = (sessionRows n sid sessions).session := by
        rw [hbody.sessions n (Nat.le_refl _) (by omega), Tables.sessionsOf_append,
          sessionsOf_sessionRows, hnone, List.append_nil]
      have hread : ∀ i, sid ≤ i → i < sid + sessions.length →
          t.paramsOf i = (sessionRows n sid sessions).paramsOf i := by
        intro i h1 h2
        rw [hbody.params i h1 (by omega), Tables.paramsOf_append, hlater.params i h1 h2,
          List.append_nil]
      have hsub : Agrees t (subfolderRows n (n + 1) (sid + sessions.length) folders) (n + 1)
          (n + 1 + folderCounts folders) (sid + sessions.length)
          (sid + sessions.length + totalInFolders folders) :=
        hbody.right (avoids_sessionRows (by omega) (by omega)) (by omega) (by omega)
      rw [fill, hfolders, fill_subfolderRows (by omega) (Nat.lt_succ_self n) hsub, hsessions,
        read_sessionRows hread, mapSessions]
      rfl

theorem fill_subfolderRows {t : Tables} {fuel parentId n sid : Nat} :
    ∀ {fs : List SessionFolder}, folderCounts fs ≤ fuel → parentId < n →
      Agrees t (subfolderRows parentId n sid fs) n (n + folderCounts fs) sid
        (sid + totalInFolders fs) →
      (topRows parentId n fs).mapM (fun r => fill t fuel r.id r.name) =
        some (mapInFolders reloaded fs)
  | [], _, _, _ => by
    rw [topRows, mapInFolders]
    rfl
  | f :: fs, hfuel, hparent, h => by
    rw [folderCounts] at hfuel h
    rw [totalInFolders, subfolderRows, ← Nat.add_assoc, ← Nat.add_assoc] at h
    have hfirst : Agrees t (folderRows (some parentId) n sid f) n (n + f.folderCount) sid
        (sid + f.totalSessions) :=
      h.left (avoids_subfolderRows (by omega) (by omega) (by omega)) (by omega) (by omega)
    have hrest : Agrees t (subfolderRows parentId (n + f.folderCount) (sid + f.totalSessions) fs)
        (n + f.folderCount) (n + f.folderCount + folderCounts fs) (sid + f.totalSessions)
        (sid + f.totalSessions + totalInFolders fs) := by
      refine h.right (avoids_folderRows ?_ (by omega) (by omega)) (by omega) (by omega)
      rintro i ⟨⟩
      omega
    rw [topRows, List.mapM_cons, fill_folderRows (by omega) ?_ hfirst,
      fill_subfolderRows (by omega) (by omega) hrest, mapInFolders]
    · rfl
    · rintro i ⟨⟩
      exact hparent

end

theorem saved_eq (root : SessionFolder) :
    saveFolder none .empty root = folderRows none 1 1 root :=
  (saveFolder_eq none counts_empty root).1

mutual

theorem length_folderRows (parentId : Option Nat) (n sid : Nat) :
    ∀ f, (folderRows parentId n sid f).sessionFolder.length = f.folderCount
  | ⟨name, folders, sessions⟩ => by
    have hnone : (sessionRows n sid sessions).sessionFolder = [] :=
      sessionFolder_sessionRows n sid sessions
    rw [folderRows, SessionFolder.folderCount, Tables.sessionFolder_append,
      Tables.sessionFolder_append, hnone, List.nil_append, List.length_append,
      length_subfolderRows]
    rfl

theorem length_subfolderRows (parentId n sid : Nat) :
    ∀ fs, (subfolderRows parentId n sid fs).sessionFolder.length = folderCounts fs
  | [] => by
    rw [subfolderRows, folderCounts]
    rfl
  | f :: fs => by
    rw [subfolderRows, folderCounts, Tables.sessionFolder_append, List.length_append,
      length_folderRows, length_subfolderRows]

end

theorem folderRows_head (parentId : Option Nat) (n sid : Nat) (f : SessionFolder) :
    ∃ rest, (folderRows parentId n sid f).sessionFolder = ⟨n, parentId, f.name⟩ :: rest := by
  obtain ⟨name, folders, sessions⟩ := f
  rw [folderRows]
  exact ⟨_, rfl⟩

-- Tables that hold the rows of a tree first, and nothing more under its ids, load as that tree.
theorem loadTree_agrees {t : Tables} {root : SessionFolder} {rest : List FolderRow}
    (hfirst : t.sessionFolder = ⟨1, none, root.name⟩ :: rest)
    (hlength : root.folderCount ≤ t.sessionFolder.length)
    (h : Agrees t (folderRows none 1 1 root) 1 (1 + root.folderCount) 1 (1 + root.totalSessions)) :
    loadTree t = some (mapSessions reloaded root) := by
  have hfind : t.sessionFolder.find? (fun r => r.parentId = none) = some ⟨1, none, root.name⟩ := by
    rw [hfirst]
    rfl
  rw [loadTree, hfind]
  refine fill_folderRows hlength ?_ h
  intro i hi
  cases hi

theorem loadTree_saved (root : SessionFolder) :
    loadTree (saveFolder none .empty root) = some (mapSessions reloaded root) := by
  obtain ⟨rest, hrest⟩ := folderRows_head none 1 1 root
  rw [saved_eq]
  exact loadTree_agrees hrest (length_folderRows none 1 1 root).ge (.refl _ _ _ _ _)

theorem AllSessions.congr {P Q : Session → Prop} (h : ∀ s, P s ↔ Q s) (f : SessionFolder) :
    AllSessions P f ↔ AllSessions Q f := by
  rw [show P = Q from funext fun s => propext (h s)]

theorem loadTree_saveTree_iff {store : Store} (h : store.isOpen = true) (root : SessionFolder) :
    loadTree (store.saveTree root).2.tables = some root ↔
      AllSessions (fun s => s.params.contains "port" = true) root := by
  have hsave : (store.saveTree root).2.tables = saveFolder none .empty root := by
    simp [Store.saveTree, h]
  rw [hsave, loadTree_saved, Option.some.injEq, mapSessions_eq_iff]
  exact AllSessions.congr reloaded_eq_iff root

def withPort : Session := ⟨"web", .ssh, QMap.empty.insert "port" "22"⟩

theorem loadTree_saveTree_withPort :
    loadTree ((Store.mk true .empty).saveTree ⟨"Sessions", [], [withPort]⟩).2.tables =
      some ⟨"Sessions", [], [withPort]⟩ :=
  (loadTree_saveTree_iff rfl _).mpr ⟨by decide, trivial⟩

theorem port_invented :
    loadTree ((Store.mk true .empty).saveTree ⟨"Sessions", [], [⟨"web", .ssh, .empty⟩]⟩).2.tables ≠
      some ⟨"Sessions", [], [⟨"web", .ssh, .empty⟩]⟩ := by
  intro h
  have hloaded := (loadTree_saved ⟨"Sessions", [], [⟨"web", .ssh, .empty⟩]⟩).symm.trans h
  rw [Option.some.injEq, mapSessions_eq_iff] at hloaded
  exact absurd ((reloaded_eq_iff _).mp (hloaded.1 _ List.mem_cons_self)) (by decide)

end Core
