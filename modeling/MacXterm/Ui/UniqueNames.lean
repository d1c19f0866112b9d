import MacXterm.Ui.Association

namespace Ui

open Qt Core MainWindow

namespace MainWindow

-- The body that importSshConfig, importPutty, importWinScp, importSharedSessions and the WSL
-- session share.
def merge (w : MainWindow) (imported : List Session) : MainWindow :=
  imported.foldl (fun w s =>
    if (w.sessions.findSession s.name).isNone then { w with sessions := w.sessions.addSession s }
    else w) w

def importSessions (w : MainWindow) (imported : List Session) : MainWindow :=
  (w.merge imported).persistSessions

end MainWindow

inductive ListOperation where
  | perform (op : Operation)
  | importSessions (imported : List Session)

namespace ListOperation

def apply (w : MainWindow) : ListOperation → MainWindow
  | .perform op => w.perform op
  | .importSessions imported => w.importSessions imported

def run (w : MainWindow) (ops : List ListOperation) : MainWindow := ops.foldl apply w

end ListOperation

namespace MainWindow

def names (w : MainWindow) : List QString := w.sessions.sessions.map Session.name

-- Each row of the tree hands on its session's name; the lookups by that name find the row again.
def Selects (w : MainWindow) : Prop :=
  ∀ (i : Nat) (s : Session), w.sessions.sessions[i]? = some s →
    find w.sessions.sessions s.name = some i ∧ w.sessions.findSession s.name = some s

def Distinct (w : MainWindow) : Prop := w.names.Nodup ∧ w.Selects

def others (w : MainWindow) (name : QString) : List QString :=
  if name ≠ [] then (w.deleteSession name).names else w.names

def Fresh (w : MainWindow) : ListOperation → Prop
  | .perform (.add dlg) => dlg.onAccept = true → dlg.name ∉ w.names
  | .perform (.edit name dlg) =>
      (w.sessions.findSession name).isSome = true → dlg.onAccept = true → dlg.name ∉ w.others name
  | _ => True

def AllFresh (w : MainWindow) : List ListOperation → Prop
  | [] => True
  | op :: ops => w.Fresh op ∧ (op.apply w).AllFresh ops

variable {w : MainWindow}

theorem findSession_of_find {folder : SessionFolder} {name : QString} {i : Nat} {s : Session}
    (h : find folder.sessions name = some i) (hs : folder.sessions[i]? = some s) :
    folder.findSession name = some s := by
  have hflat : (⟨folder.name, [], folder.sessions⟩ : SessionFolder).findSession name =
      (find folder.sessions name).bind fun i => folder.sessions[i]? := findSession_flat rfl name
  obtain ⟨label, folders, sessions⟩ := folder
  rw [h, Option.bind_some, hs] at hflat
  simp only [SessionFolder.findSession, SessionFolder.findInFolders, Option.or_none] at hflat
  rw [SessionFolder.findSession, hflat, Option.some_or]

theorem find_of_nodup {list : List Session} (h : (list.map Session.name).Nodup) {i : Nat}
    {s : Session} (hs : list[i]? = some s) : find list s.name = some i := by
  obtain ⟨hi, rfl⟩ := List.getElem?_eq_some_iff.mp hs
  refine List.findIdx?_eq_some_iff_getElem.mpr ⟨hi, by simp, fun j hj => ?_⟩
  have hne : list[j].name ≠ list[i].name := by
    intro heq
    have hlength : (list.map Session.name).length = list.length := List.length_map _
    refine Nat.ne_of_lt hj ((List.getElem?_inj (by omega) h).mp ?_)
    simp [heq, hi, Nat.lt_trans hj hi]
  simpa using hne

theorem distinct_iff : w.Distinct ↔ w.names.Nodup := by
  refine ⟨And.left, fun h => ⟨h, fun i s hs => ?_⟩⟩
  have hfind := find_of_nodup h hs
  exact ⟨hfind, findSession_of_find hfind hs⟩

theorem storePassword_name (w : MainWindow) (s : Session) :
    (w.storePassword s).2.name = s.name := by
  unfold storePassword
  split <;> rfl

theorem names_addAndSaveSession (w : MainWindow) (s : Session) :
    (w.addAndSaveSession s).names = w.names ++ [s.name] := by
  rw [names, sessions_addAndSaveSession, SessionFolder.addSession, List.map_append,
    List.map_singleton, storePassword_name]
  rfl

theorem nodup_concat_iff {l : List QString} (h : l.Nodup) (a : QString) :
    (l ++ [a]).Nodup ↔ a ∉ l := by
  rw [List.nodup_append]
  constructor
  · rintro ⟨-, -, hdisjoint⟩ ha
    exact hdisjoint a ha a (List.mem_singleton.mpr rfl) rfl
  · intro ha
    refine ⟨h, List.nodup_singleton a, fun b hb c hc => ?_⟩
    rw [List.mem_singleton.mp hc]
    rintro rfl
    exact ha hb

theorem names_deleteSession_sublist (w : MainWindow) (name : QString) :
    (w.deleteSession name).names.Sublist w.names := by
  rw [deleteSession]
  split
  · exact (List.eraseIdx_sublist ..).map _
  · exact List.Sublist.refl _

theorem others_nodup (h : w.names.Nodup) (name : QString) : (w.others name).Nodup := by
  rw [others]
  split
  · exact h.sublist (names_deleteSession_sublist w name)
  · exact h

theorem names_openSessionEditor {dlg : SessionDialog} (h : dlg.onAccept = true)
    (replaceName : QString) :
    (w.openSessionEditor replaceName dlg).names = w.others replaceName ++ [dlg.name] := by
  rw [openSessionEditor, h, Bool.not_true, if_neg Bool.false_ne_true, names_addAndSaveSession,
    SessionDialog.session_name, others]
  split <;> rfl

theorem openSessionEditor_closed {dlg : SessionDialog} (h : ¬dlg.onAccept = true)
    (replaceName : QString) : w.openSessionEditor replaceName dlg = w := by
  rw [openSessionEditor, Bool.eq_false_iff.mpr h]
  rfl

theorem editor_nodup_iff (h : w.names.Nodup) (replaceName : QString) (dlg : SessionDialog) :
    (w.openSessionEditor replaceName dlg).names.Nodup ↔
      (dlg.onAccept = true → dlg.name ∉ w.others replaceName) := by
  by_cases haccept : dlg.onAccept = true
  · rw [names_openSessionEditor haccept, nodup_concat_iff (others_nodup h replaceName)]
    exact ⟨fun hnot _ => hnot, fun himp => himp haccept⟩
  · rw [openSessionEditor_closed haccept]
    exact iff_of_true h (fun hyes => absurd hyes haccept)

theorem map_name_modify (list : List Session) (i : Nat) {f : Session → Session}
    {g : QString → QString} (h : ∀ s, (f s).name = g s.name) :
    (list.modify i f).map Session.name = (list.map Session.name).modify i g := by
  induction list generalizing i with
  | nil => simp
  | cons s list ih =>
    cases i with
    | zero => simp [h]
    | succ i => simp [ih]

theorem free_of_others {list : List Session} {i : Nat} {s : Session} {target : QString}
    (hs : list[i]? = some s) (hne : target ≠ s.name)
    (hfree : ¬((list.eraseIdx i).any fun s => s.name = target) = true) :
    target ∉ list.map Session.name := by
  intro hmem
  obtain ⟨t, ht, rfl⟩ := List.mem_map.mp hmem
  obtain ⟨k, hk⟩ := List.getElem?_of_mem ht
  by_cases hki : k = i
  · rw [hki, hs] at hk
    exact hne (congrArg Session.name (Option.some.inj hk)).symm
  · refine hfree (List.any_eq_true.mpr ⟨t, ?_, by simp⟩)
    exact List.mem_eraseIdx_iff_getElem?.mpr ⟨k, hki, hk⟩

theorem rename_nodup {list : List Session} (h : (list.map Session.name).Nodup)
    (name neu : QString) : ((renameSessionInList list name neu).2.map Session.name).Nodup := by
  unfold renameSessionInList
  extract_lets target
  split
  · exact h
  · split
    · exact h
    · rename_i i hfind
      split
      · exact h
      · rename_i hne
        split
        · exact h
        · rename_i hfree
          obtain ⟨s, hs, rfl⟩ := find_some hfind
          rw [map_name_modify list i (g := fun _ => target) (fun s => rfl), ← List.set_eq_modify]
          exact h.set (free_of_others hs hne hfree)

theorem setParam_names (list : List Session) (name key value : QString) :
    (setParamInList list name key value).2.map Session.name = list.map Session.name := by
  rw [setParamInList]
  split
  · rfl
  · rename_i i _
    have hnames := map_name_modify list i (f := fun s => s.setParam key value) (g := id)
      (fun s => rfl)
    rwa [List.modify_id] at hnames

theorem renameFolder_names (list : List Session) (folder neu : QString) :
    (renameFolderInList list folder neu).2.map Session.name = list.map Session.name := by
  rw [renameFolderInList, List.map_map]
  refine List.map_congr_left fun s _ => ?_
  dsimp only [Function.comp_apply]
  split <;> rfl

theorem freeCopy_free {list : List Session} {base copy : QString} {fuel n : Nat}
    (h : freeCopy list base fuel n = some copy) : copy ∉ list.map Session.name := by
  induction fuel generalizing n with
  | zero => simp [freeCopy] at h
  | succ fuel ih =>
    rw [freeCopy] at h
    split at h
    · exact ih h
    · rename_i hfree
      obtain rfl := Option.some.inj h
      simpa using hfree

theorem merge_nodup (h : w.names.Nodup) (imported : List Session) :
    (w.merge imported).names.Nodup := by
  induction imported generalizing w with
  | nil => exact h
  | cons s imported ih =>
    rw [merge, List.foldl_cons]
    apply ih
    split
    · rename_i hnone
      have hnames : ({ w with sessions := w.sessions.addSession s } : MainWindow).names =
          w.names ++ [s.name] := by
        rw [names, SessionFolder.addSession, List.map_append, List.map_singleton]
        rfl
      rw [hnames, nodup_concat_iff h]
      intro hmem
      obtain ⟨t, ht, hname⟩ := List.mem_map.mp hmem
      obtain ⟨i, hi⟩ := List.getElem?_of_mem ht
      rw [← hname, ((distinct_iff.mpr h).2 i t hi).2] at hnone
      exact Bool.false_ne_true hnone
    · exact h

theorem renameSession_nodup (h : w.names.Nodup) (name neu : QString) :
    (w.renameSession name neu).names.Nodup := by
  have hrename := rename_nodup h name neu
  rw [renameSession]
  generalize renameSessionInList w.sessions.sessions name neu = r at hrename
  obtain ⟨renamed, list⟩ := r
  dsimp only
  split
  · exact h
  · exact hrename

theorem duplicateSession_nodup (h : w.names.Nodup) (name : QString) :
    (w.duplicateSession name).names.Nodup := by
  rw [duplicateSession]
  split
  · rename_i s copy hs hcopy
    rw [names_addAndSaveSession]
    exact (nodup_concat_iff h copy).mpr (freeCopy_free hcopy)
  · exact h

theorem editSession_nodup_iff (h : w.names.Nodup) (name : QString) (dlg : SessionDialog) :
    (w.editSession name dlg).names.Nodup ↔ w.Fresh (.perform (.edit name dlg)) := by
  rw [editSession]
  split
  · rename_i s hs
    exact (editor_nodup_iff h name dlg).trans
      ⟨fun hfresh _ => hfresh, fun hfresh => hfresh (by rw [hs]; rfl)⟩
  · rename_i hnone
    exact iff_of_true h (fun hsome => absurd hsome (by rw [hnone]; exact Bool.false_ne_true))

theorem apply_nodup_iff (h : w.names.Nodup) (op : ListOperation) :
    (op.apply w).names.Nodup ↔ w.Fresh op := by
  cases op with
  | importSessions imported => exact iff_of_true (merge_nodup h imported) trivial
  | perform op =>
    cases op with
    | add dlg => exact editor_nodup_iff h [] dlg
    | rename name neu => exact iff_of_true (renameSession_nodup h name neu) trivial
    | duplicate name => exact iff_of_true (duplicateSession_nodup h name) trivial
    | edit name dlg => exact editSession_nodup_iff h name dlg
    | delete name =>
      exact iff_of_true (h.sublist (names_deleteSession_sublist w name)) trivial
    | setIcon name glyph =>
      refine iff_of_true ?_ trivial
      change ((setSessionIcon w.sessions.sessions name glyph).2.map Session.name).Nodup
      rw [setSessionIcon, setParam_names]
      exact h
    | moveTo name folder =>
      refine iff_of_true ?_ trivial
      change ((moveSessionToFolder w.sessions.sessions name folder).2.map Session.name).Nodup
      rw [moveSessionToFolder, setParam_names]
      exact h
    | renameFolder folder neu =>
      refine iff_of_true ?_ trivial
      change ((renameFolderInList w.sessions.sessions folder neu).2.map Session.name).Nodup
      rw [renameFolder_names]
      exact h

theorem names_stay_distinct_iff (w : MainWindow) (h : w.names.Nodup) (ops : List ListOperation) :
    (∀ done, done <+: ops → (ListOperation.run w done).Distinct) ↔ w.AllFresh ops := by
  induction ops generalizing w with
  | nil =>
    refine iff_of_true (fun done hdone => ?_) trivial
    rw [List.prefix_nil.mp hdone]
    exact distinct_iff.mpr h
  | cons op ops ih =>
    have hfirst := apply_nodup_iff h op
    constructor
    · intro hall
      have hnext : (op.apply w).names.Nodup :=
        distinct_iff.mp (hall [op] ⟨ops, rfl⟩)
      refine ⟨hfirst.mp hnext, (ih _ hnext).mp fun done hdone => ?_⟩
      exact hall (op :: done) (List.cons_prefix_cons.mpr ⟨rfl, hdone⟩)
    · rintro ⟨hfresh, hlater⟩ done hdone
      have hnext := hfirst.mpr hfresh
      cases done with
      | nil => exact distinct_iff.mpr h
      | cons op' done =>
        obtain ⟨rfl, hrest⟩ := List.cons_prefix_cons.mp hdone
        exact (ih _ hnext).mpr hlater done hrest

def addSession (name : QString) : ListOperation := .perform (.add (History.sshDialog name []))

theorem names_stay_distinct_two :
    (∀ done, done <+: [addSession "web", addSession "db"] →
        (ListOperation.run History.emptyWindow done).Distinct) ↔
      History.emptyWindow.AllFresh [addSession "web", addSession "db"] :=
  names_stay_distinct_iff History.emptyWindow List.nodup_nil [addSession "web", addSession "db"]

theorem second_web_hides :
    ¬ ∀ w : MainWindow, w.names.Nodup → ∀ ops, (ListOperation.run w ops).Distinct := by
  intro h
  have hnodup := (h History.emptyWindow List.nodup_nil [addSession "web", addSession "web"]).1
  exact absurd hnodup (by decide)

end MainWindow

end Ui
