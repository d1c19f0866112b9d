import MacXterm.Ui.Passwords

namespace Ui

open Qt Core MainWindow

theorem find_some {list : List Session} {name : QString} {i : Nat} (h : find list name = some i) :
    ∃ s, list[i]? = some s ∧ s.name = name := by
  obtain ⟨hi, hs, _⟩ := List.findIdx?_eq_some_iff_getElem.mp h
  exact ⟨list[i], List.getElem?_eq_getElem hi, by simpa using hs⟩

theorem findSession_flat {folder : SessionFolder} (h : folder.folders = []) (name : QString) :
    folder.findSession name = (find folder.sessions name).bind fun i => folder.sessions[i]? := by
  obtain ⟨label, folders, sessions⟩ := folder
  obtain rfl : folders = [] := h
  simp only [SessionFolder.findSession, SessionFolder.findInFolders, Option.or_none, find]
  induction sessions with
  | nil => rfl
  | cons s ss ih =>
    rw [List.find?_cons, List.findIdx?_cons]
    by_cases hs : s.name = name
    · simp [hs]
    · simp only [hs, decide_false, Bool.false_eq_true, if_false, ih]
      cases List.findIdx? (fun s => decide (s.name = name)) ss <;> simp

theorem vaultRef_ne_nil (name : QString) : vaultRef name ≠ [] :=
  List.append_ne_nil_of_left_ne_nil (by decide) name

section Lists

variable {vault : CredentialVault} {ss : List Session} {es : List Tracked}

theorem agrees_setParam {key value : QString} (hpassword : "password".toList ≠ key)
    (href : "vault_ref".toList ≠ key) (s : Session) (e : Tracked) (h : Agrees vault s e) :
    Agrees vault (s.setParam key value) e := by
  apply h.of_params
  · exact h.named
  · rw [Session.find_setParam, if_neg hpassword]
  · rw [Session.find_setParam, if_neg href]

theorem agrees_setParamInList {key value : QString} (hpassword : "password".toList ≠ key)
    (href : "vault_ref".toList ≠ key) (name : QString) (h : List.Forall₂ (Agrees vault) ss es) :
    List.Forall₂ (Agrees vault) (setParamInList ss name key value).2 es := by
  unfold setParamInList
  split
  · exact h
  · exact forall₂_modify (agrees_setParam hpassword href) h _

theorem agrees_renameFolder (folder neu : QString) (h : List.Forall₂ (Agrees vault) ss es) :
    List.Forall₂ (Agrees vault) (renameFolderInList ss folder neu).2 es := by
  simp only [renameFolderInList]
  rw [List.forall₂_map_left_iff]
  refine h.imp ?_
  intro s e hse
  split
  · exact agrees_setParam (by decide) (by decide) s e hse
  · exact hse

theorem agrees_rename (name neu : QString) (h : List.Forall₂ (Agrees vault) ss es) :
    List.Forall₂ (Agrees vault) (renameSessionInList ss name neu).2 es := by
  simp only [renameSessionInList]
  split
  · exact h
  · rename_i htarget
    split
    · exact h
    · split
      · exact h
      · split
        · exact h
        · apply forall₂_modify _ h
          intro s e hse
          exact hse.of_params htarget rfl rfl

end Lists

section Save

variable {w : MainWindow} {ss : List Session} {es : List Tracked}

theorem agrees_save_plain {s : Session} {e : Tracked} (h : List.Forall₂ (Agrees w.vault) ss es)
    (hs : Agrees w.vault s e) :
    List.Forall₂ (Agrees (w.storePassword s).1.vault) (ss ++ [(w.storePassword s).2]) (es ++ [e]) := by
  have hparam : s.param "password" = [] := by rw [Session.param_eq, hs.plain]; rfl
  have hkeep : w.storePassword s = (w, s) := by
    rw [storePassword, hparam]
    exact if_neg fun hc => hc.1 rfl
  rw [hkeep]
  exact List.rel_append h (.cons hs .nil)

theorem agrees_setSecret {ref password : QString} (h : List.Forall₂ (Agrees w.vault) ss es)
    (hfree : ∀ s ∈ ss, s.param "vault_ref" = ref → w.vault.secret ref = password) :
    List.Forall₂ (Agrees (w.vault.setSecret ref password)) ss es := by
  induction h with
  | nil => exact .nil
  | @cons s e ss es hse _ ih =>
    refine .cons ?_ (ih fun t ht => hfree t (List.mem_cons_of_mem _ ht))
    refine ⟨hse.named, hse.plain, hse.entered.imp id ?_⟩
    rintro ⟨r, hr, hne, hfind⟩
    refine ⟨r, hr, hne, ?_⟩
    simp only [CredentialVault.setSecret, QMap.find_insert]
    split
    · rename_i heq
      have hparam : s.param "vault_ref" = ref := by rw [Session.param_eq, hr, heq]; rfl
      have hsecret := hfree s List.mem_cons_self hparam
      rw [CredentialVault.secret, QMap.value, ← heq, hfind] at hsecret
      exact congrArg some hsecret.symm
    · exact hfind

theorem agrees_save_password {s : Session} {password : QString} (id : Nat)
    (h : List.Forall₂ (Agrees w.vault) ss es) (hw : w.vaultUnlocked = true) (hname : s.name ≠ [])
    (hpassword : s.params.find "password" = some password) (hne : password ≠ [])
    (hfree : ∀ t ∈ ss, t.param "vault_ref" = vaultRef s.name →
      w.vault.secret (vaultRef s.name) = password) :
    List.Forall₂ (Agrees (w.storePassword s).1.vault) (ss ++ [(w.storePassword s).2])
      (es ++ [⟨id, password⟩]) := by
  have hparam : s.param "password" = password := by rw [Session.param_eq, hpassword]; rfl
  have hstore : w.storePassword s =
      ({ w with vault := w.vault.setSecret (vaultRef s.name) password },
        (s.setParam "vault_ref" (vaultRef s.name)).setParams
          ((s.setParam "vault_ref" (vaultRef s.name)).params.remove "password")) := by
    rw [storePassword, hparam]
    exact if_pos ⟨hne, hw⟩
  rw [hstore]
  refine List.rel_append (agrees_setSecret h hfree) (.cons ?_ .nil)
  refine ⟨hname, ?_, .inr ⟨vaultRef s.name, ?_, vaultRef_ne_nil _, ?_⟩⟩
  · rw [Session.setParams, QMap.find_remove, if_pos rfl]
  · have hother : "vault_ref".toList ≠ "password".toList := by decide
    rw [Session.setParams, QMap.find_remove, if_neg hother, Session.find_setParam, if_pos rfl]
  · simp [CredentialVault.setSecret]

theorem agrees_save_dialog (dlg : SessionDialog) (id : Nat) (entered : QString)
    (h : List.Forall₂ (Agrees w.vault) ss es) (hw : w.vaultUnlocked = true)
    (haccept : dlg.onAccept = true)
    (hblank : dlg.password = [] → entered = [])
    (htyped : dlg.password ≠ [] → entered = dlg.password ∧
      ∀ t ∈ ss, t.param "vault_ref" = vaultRef dlg.name →
        w.vault.secret (vaultRef dlg.name) = dlg.password) :
    List.Forall₂ (Agrees (w.storePassword dlg.session).1.vault)
      (ss ++ [(w.storePassword dlg.session).2]) (es ++ [⟨id, entered⟩]) := by
  have hname : dlg.session.name ≠ [] := by
    rw [dlg.session_name]
    exact SessionDialog.name_of_onAccept haccept
  have hpassword := dlg.session_password
  by_cases hp : dlg.password = []
  · rw [if_pos hp] at hpassword
    exact agrees_save_plain h ⟨hname, hpassword, .inl ⟨dlg.session_vault_ref, hblank hp⟩⟩
  · rw [if_neg hp] at hpassword
    obtain ⟨rfl, hfree⟩ := htyped hp
    refine agrees_save_password id h hw hname hpassword hp ?_
    rw [dlg.session_name]
    exact hfree

end Save

namespace History

structure Aligned (h : History) : Prop where
  unlocked : h.window.vaultUnlocked = true
  flat : h.window.sessions.folders = []
  agrees : List.Forall₂ (Agrees h.window.vault) h.list h.tracked

theorem entry_eq {h : History} {i : Nat} {e : Tracked} (he : h.tracked[i]? = some e) :
    h.entry i = e := by
  rw [entry, List.getD_eq_getElem?_getD, he]
  rfl

theorem Aligned.found {h : History} (ha : h.Aligned) {name : QString} {i : Nat}
    (hi : h.position name = some i) :
    ∃ s e, h.list[i]? = some s ∧ h.tracked[i]? = some e ∧ s.name = name ∧
      Agrees h.window.vault s e ∧ h.window.sessions.findSession name = some s := by
  obtain ⟨s, hs, hname⟩ := find_some hi
  obtain ⟨e, he, hse⟩ := forall₂_entry ha.agrees hs
  refine ⟨s, e, hs, he, hname, hse, ?_⟩
  have hfind : find h.window.sessions.sessions name = some i := hi
  rw [findSession_flat ha.flat, hfind]
  exact hs

theorem Aligned.missing {h : History} (ha : h.Aligned) {name : QString}
    (hi : h.position name = none) : h.window.sessions.findSession name = none := by
  have hfind : find h.window.sessions.sessions name = none := hi
  rw [findSession_flat ha.flat, hfind]
  rfl

theorem aligned_save {w : MainWindow} {s : Session} {es : List Tracked} (next : Nat)
    (hw : w.vaultUnlocked = true) (hflat : w.sessions.folders = [])
    (h : List.Forall₂ (Agrees (w.storePassword s).1.vault)
      (w.sessions.sessions ++ [(w.storePassword s).2]) es) :
    Aligned ⟨w.addAndSaveSession s, es, next⟩ := by
  constructor
  · rw [vaultUnlocked_addAndSaveSession]
    exact hw
  · rw [sessions_addAndSaveSession]
    exact hflat
  · rw [vault_addAndSaveSession, list, sessions_addAndSaveSession]
    exact h

theorem aligned_setSessions {h : History} {ss : List Session} {es : List Tracked} (next : Nat)
    (ha : h.Aligned) (hs : List.Forall₂ (Agrees h.window.vault) ss es) :
    Aligned ⟨(h.window.setSessions ss).persistSessions, es, next⟩ :=
  ⟨ha.unlocked, ha.flat, hs⟩

theorem aligned_same {h : History} (next : Nat) (ha : h.Aligned) :
    Aligned ⟨h.window, h.tracked, next⟩ := ⟨ha.unlocked, ha.flat, ha.agrees⟩

section Steps

variable {h : History}

theorem aligned_add (inherits : Bool) (dlg : SessionDialog) (ha : h.Aligned)
    (hc : h.Clean inherits (.add dlg)) : (h.step inherits (.add dlg)).Aligned := by
  cases haccept : dlg.onAccept with
  | false =>
    have hstep : h.step inherits (.add dlg) = ⟨h.window, h.tracked, h.next + 1⟩ := by
      simp [step, MainWindow.perform, newSession, openSessionEditor, track, haccept]
    rw [hstep]
    exact aligned_same _ ha
  | true =>
    have hstep : h.step inherits (.add dlg) =
        ⟨h.window.addAndSaveSession dlg.session, h.tracked ++ [⟨h.next, dlg.password⟩],
          h.next + 1⟩ := by
      simp [step, MainWindow.perform, newSession, openSessionEditor, track, haccept]
    rw [hstep]
    apply aligned_save _ ha.unlocked ha.flat
    apply agrees_save_dialog dlg _ _ ha.agrees ha.unlocked haccept id
    intro hp
    exact ⟨rfl, hc haccept hp⟩

theorem aligned_duplicate (inherits : Bool) (name : QString) (ha : h.Aligned)
    (hc : h.Clean inherits (.duplicate name)) :
    (h.step inherits (.duplicate name)).Aligned := by
  cases hi : h.position name with
  | none =>
    have hstep : h.step inherits (.duplicate name) = ⟨h.window, h.tracked, h.next + 1⟩ := by
      simp [step, MainWindow.perform, duplicateSession, ha.missing hi, track, hi]
    rw [hstep]
    exact aligned_same _ ha
  | some i =>
    obtain ⟨s, e, hs, he, -, hse, hfind⟩ := ha.found hi
    obtain ⟨copy, hcopy⟩ := Option.isSome_iff_exists.mp
      (uniqueCopyName_isSome h.window.sessions.sessions name)
    have hstep : h.step inherits (.duplicate name) =
        ⟨h.window.addAndSaveSession (s.setName copy),
          h.tracked ++ [⟨h.next, if inherits then e.entered else []⟩], h.next + 1⟩ := by
      simp [step, MainWindow.perform, duplicateSession, hfind, hcopy, track, hi, entry_eq he]
    rw [hstep]
    apply aligned_save _ ha.unlocked ha.flat
    apply agrees_save_plain ha.agrees
    have hcopied : Agrees h.window.vault (s.setName copy) e :=
      hse.of_params (freeCopy_ne_nil hcopy) rfl rfl
    refine ⟨hcopied.named, hcopied.plain, ?_⟩
    cases inherits with
    | true => exact hcopied.entered
    | false =>
      have hblank := (hc.resolve_left (by decide)) s hfind
      exact .inl ⟨(hse.noRef hblank).1, rfl⟩

theorem aligned_delete (inherits : Bool) (name : QString) (ha : h.Aligned) :
    (h.step inherits (.delete name)).Aligned := by
  cases hi : h.position name with
  | none =>
    have hfind : find h.window.sessions.sessions name = none := hi
    have hstep : h.step inherits (.delete name) =
        ⟨h.window.persistSessions, h.tracked, h.next + 1⟩ := by
      simp [step, MainWindow.perform, deleteSession, hfind, track, hi]
    rw [hstep]
    exact ⟨ha.unlocked, ha.flat, ha.agrees⟩
  | some i =>
    have hfind : find h.window.sessions.sessions name = some i := hi
    have hstep : h.step inherits (.delete name) =
        ⟨(h.window.setSessions (h.list.eraseIdx i)).persistSessions, h.tracked.eraseIdx i,
          h.next + 1⟩ := by
      simp [step, MainWindow.perform, deleteSession, hfind, track, hi, list]
    rw [hstep]
    exact aligned_setSessions _ ha (forall₂_eraseIdx ha.agrees i)

theorem aligned_edit (inherits : Bool) (name : QString) (dlg : SessionDialog) (ha : h.Aligned)
    (hc : h.Clean inherits (.edit name dlg)) : (h.step inherits (.edit name dlg)).Aligned := by
  cases hi : h.position name with
  | none =>
    have hstep : h.step inherits (.edit name dlg) = ⟨h.window, h.tracked, h.next + 1⟩ := by
      simp [step, MainWindow.perform, editSession, ha.missing hi, track, hi]
    rw [hstep]
    exact aligned_same _ ha
  | some i =>
    obtain ⟨s, e, hs, he, hname, hse, hfound⟩ := ha.found hi
    cases haccept : dlg.onAccept with
    | false =>
      have hstep : h.step inherits (.edit name dlg) = ⟨h.window, h.tracked, h.next + 1⟩ := by
        simp [step, MainWindow.perform, editSession, openSessionEditor, hfound, track, hi, haccept]
      rw [hstep]
      exact aligned_same _ ha
    | true =>
      have hfind : find h.window.sessions.sessions name = some i := hi
      have hne : name ≠ [] := hname ▸ hse.named
      let rest := (h.window.setSessions (h.list.eraseIdx i)).persistSessions
      have hstep : h.step inherits (.edit name dlg) =
          ⟨rest.addAndSaveSession dlg.session,
            h.tracked.eraseIdx i ++
              [⟨e.id, if dlg.password = [] then e.entered else dlg.password⟩], h.next + 1⟩ := by
        simp [step, MainWindow.perform, editSession, openSessionEditor, hfound, deleteSession,
          hfind, hne, track, hi, haccept, entry_eq he, rest, list]
      rw [hstep]
      have hclean := hc i s hi hs haccept
      have hunlocked : rest.vaultUnlocked = true := ha.unlocked
      have hflat : rest.sessions.folders = [] := ha.flat
      have hrest : List.Forall₂ (Agrees rest.vault) rest.sessions.sessions (h.tracked.eraseIdx i) :=
        forall₂_eraseIdx ha.agrees i
      apply aligned_save _ hunlocked hflat
      apply agrees_save_dialog dlg _ _ hrest hunlocked haccept
      · intro hp
        rw [if_pos hp] at hclean ⊢
        exact (hse.noRef hclean).2
      · intro hp
        rw [if_neg hp] at hclean ⊢
        exact ⟨rfl, hclean⟩

theorem aligned_step (inherits : Bool) (op : Operation) (ha : h.Aligned)
    (hc : h.Clean inherits op) : (h.step inherits op).Aligned := by
  cases op with
  | add dlg => exact aligned_add inherits dlg ha hc
  | duplicate name => exact aligned_duplicate inherits name ha hc
  | edit name dlg => exact aligned_edit inherits name dlg ha hc
  | delete name => exact aligned_delete inherits name ha
  | rename name neu =>
    have hrename := agrees_rename name neu ha.agrees
    cases hr : (renameSessionInList h.list name neu).1 with
    | false =>
      have hstep : h.step inherits (.rename name neu) = ⟨h.window, h.tracked, h.next + 1⟩ := by
        simp only [list] at hr
        simp [step, MainWindow.perform, renameSession, hr, track]
      rw [hstep]
      exact aligned_same _ ha
    | true =>
      have hstep : h.step inherits (.rename name neu) =
          ⟨(h.window.setSessions (renameSessionInList h.list name neu).2).persistSessions,
            h.tracked, h.next + 1⟩ := by
        simp only [list] at hr
        simp [step, MainWindow.perform, renameSession, hr, track, list]
      rw [hstep]
      exact aligned_setSessions _ ha hrename
  | setIcon name glyph =>
    exact aligned_setSessions _ ha
      (agrees_setParamInList (by decide) (by decide) name ha.agrees)
  | moveTo name folder =>
    exact aligned_setSessions _ ha
      (agrees_setParamInList (by decide) (by decide) name ha.agrees)
  | renameFolder folder neu =>
    exact aligned_setSessions _ ha (agrees_renameFolder folder neu ha.agrees)

end Steps

theorem aligned_of_run {inherits : Bool} {h : History} (hr : Run inherits (Clean inherits) h) :
    h.Aligned := by
  induction hr with
  | start w hunlocked hfolders hsessions =>
    refine ⟨hunlocked, hfolders, ?_⟩
    rw [list, hsessions]
    exact .nil
  | step _ hc ih => exact aligned_step inherits _ ih hc

theorem Aligned.resolves {h : History} (ha : h.Aligned) : h.Resolves :=
  ha.agrees.imp fun _ _ hse => hse.password ha.unlocked

theorem Resolves.passwordOf {h : History} (hr : h.Resolves) (id : Nat) :
    h.passwordOf id = (h.tracked.find? fun e => e.id = id).map Tracked.entered := by
  have hzip {ss : List Session} {es : List Tracked}
      (hse : List.Forall₂ (fun s e => h.password s = e.entered) ss es) :
      ((ss.zip es).find? fun p => p.2.id = id).map (fun p => h.password p.1) =
        (es.find? fun e => e.id = id).map Tracked.entered := by
    induction hse with
    | nil => rfl
    | @cons s e ss es hp _ ih =>
      rw [List.zip_cons_cons, List.find?_cons, List.find?_cons]
      by_cases he : e.id = id
      · simp [he, hp]
      · simpa [he] using ih
  exact hzip hr

theorem find?_eraseIdx {es : List Tracked} {i id : Nat} {e : Tracked} (he : es[i]? = some e)
    (hne : e.id ≠ id) :
    ((es.eraseIdx i).find? fun e => e.id = id) = es.find? fun e => e.id = id := by
  induction es generalizing i with
  | nil => rfl
  | cons d es ih =>
    cases i with
    | zero =>
      obtain rfl : d = e := by simpa using he
      simp [hne]
    | succ i =>
      rw [List.eraseIdx_cons_succ, List.find?_cons, List.find?_cons, ih (by simpa using he)]

theorem find?_append_new {es : List Tracked} {new : Tracked} {id : Nat} (hne : new.id ≠ id) :
    ((es ++ [new]).find? fun e => e.id = id) = es.find? fun e => e.id = id := by
  rw [List.find?_append]
  simp [hne]

theorem track_other (inherits : Bool) {h : History} (ha : h.Aligned) (op : Operation) {id : Nat}
    (hid : id < h.next) (htarget : h.target op ≠ some id) :
    ((h.track inherits op).find? fun e => e.id = id) = h.tracked.find? fun e => e.id = id := by
  have hnew : h.next ≠ id := Nat.ne_of_gt hid
  have entry {name : QString} {i : Nat} (hi : h.position name = some i)
      (ht : (h.position name).map (fun i => (h.entry i).id) ≠ some id) :
      ∃ e, h.tracked[i]? = some e ∧ h.entry i = e ∧ e.id ≠ id := by
    obtain ⟨_, e, _, he, _⟩ := ha.found hi
    refine ⟨e, he, entry_eq he, ?_⟩
    intro heq
    rw [hi, Option.map_some, entry_eq he, heq] at ht
    exact ht rfl
  cases op with
  | add dlg =>
    simp only [track]
    split
    · exact find?_append_new hnew
    · rfl
  | duplicate name =>
    simp only [track]
    split
    · rfl
    · exact find?_append_new hnew
  | edit name dlg =>
    simp only [track]
    split
    · rfl
    · rename_i i hi
      obtain ⟨e, he, hentry, hne⟩ := entry hi htarget
      split
      · rw [find?_append_new (by rw [hentry]; exact hne), find?_eraseIdx he hne]
      · rfl
  | delete name =>
    simp only [track]
    split
    · rfl
    · rename_i i hi
      obtain ⟨e, he, -, hne⟩ := entry hi htarget
      exact find?_eraseIdx he hne
  | rename name neu => rfl
  | setIcon name glyph => rfl
  | moveTo name folder => rfl
  | renameFolder folder neu => rfl

theorem undisturbed_of_clean {inherits : Bool} {h : History} {op : Operation} (ha : h.Aligned)
    (hc : h.Clean inherits op) : h.Undisturbed inherits op := by
  intro id hid htarget
  have hafter : (h.step inherits op).Resolves := (aligned_step inherits op ha hc).resolves
  rw [hafter.passwordOf, ha.resolves.passwordOf]
  exact congrArg _ (track_other inherits ha op hid htarget)

theorem password_association (inherits : Bool) {h : History}
    (hr : Run inherits (Clean inherits) h) :
    h.Resolves ∧ ∀ op, h.Clean inherits op → h.Undisturbed inherits op := by
  have ha := aligned_of_run hr
  constructor
  · exact ha.resolves
  · intro op hc
    exact undisturbed_of_clean ha hc

def emptyWindow : MainWindow := ⟨⟨"Sessions", [], []⟩, ⟨.empty⟩, true, ⟨true, .empty⟩⟩

def sshDialog (name password : QString) : SessionDialog where
  name := name
  type := ⟨.ssh, ssh_mem_typeItems⟩
  host := "web.example"
  port := 0
  user := []
  password := password
  keyfile := []
  passphrase := []
  gateway := []
  shell := []
  folder := []
  icon := []
  compression := false
  x11 := true
  agent := false
  agentForward := false
  sshKeepalive := 0
  sshRemoteCmd := []
  sshStayOpen := false
  gwUser := []
  gwPassword := []
  gwPassphrase := []
  domain := []
  rdpResolution := ⟨"Default", default_mem_resolutionItems⟩
  rdpClipboard := true
  rdpDrives := false
  rdpAudio := false
  rdpNla := true
  rdpIgnoreCert := false
  vncViewOnly := false
  termFont := []
  termFontSize := 0
  termScheme := ⟨"", by decide⟩
  termScrollback := ⟨-1, by decide⟩
  termBackspace := ⟨"", by decide⟩

def startHistory : History := ⟨emptyWindow, [], 0⟩

def addedHistory : History := startHistory.step true (.add (sshDialog "web" "first"))

def renamedHistory : History := addedHistory.step true (.rename "web" "old")

theorem password_association_renamed :
    renamedHistory.Resolves ∧
      ∀ op, renamedHistory.Clean true op → renamedHistory.Undisturbed true op := by
  refine password_association true (.step (.step (.start emptyWindow rfl rfl rfl) ?_) trivial)
  intro _ _ s hs
  exact absurd hs List.not_mem_nil

theorem readded_name_replaces_password :
    ¬ ∀ inherits h, Run inherits (fun _ _ => True) h →
      h.Resolves ∧ ∀ op, h.Undisturbed inherits op := by
  intro hall
  have hrun : Run true (fun _ _ => True) renamedHistory :=
    .step (.step (.start emptyWindow rfl rfl rfl) trivial) trivial
  have hsame := (hall true _ hrun).2 (.add (sshDialog "web" "second")) 0 (by decide) (by decide)
  have hbefore : renamedHistory.passwordOf 0 = some "first".toList := by decide
  have hafter : (renamedHistory.step true (.add (sshDialog "web" "second"))).passwordOf 0 =
      some "second".toList := by decide
  rw [hbefore, hafter] at hsame
  exact absurd hsame (by decide)

end History

end Ui
