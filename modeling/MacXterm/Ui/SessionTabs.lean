import MacXterm.Core.Session
import MacXterm.Qt.Hash

namespace Ui

open Qt Core

-- The terminal panes of a tab; another surface is none.
abbrev Tab := List Nat

structure SessionWindow where
  tabs : List Tab := []
  -- Those taken into windows of their own; closing such a window leaves the records alone.
  detached : List Tab := []
  next : Nat := 0
  tabSessions : QHash Nat Session := []
  -- What the two browsers were opened for last, none once they are closed.
  sftpPanel : Option Session := none
  ftpPanel : Option Session := none

inductive WindowEvent where
  | openSession (s : Session)
  | openSftpBrowser (s : Session)
  | splitCurrent (current : Nat) (focused : Option Nat)
  | splitQuad (current : Nat) (focused : Option Nat)
  | closeTab (i : Nat)
  | detachCurrentTab (current : Nat)

namespace SessionWindow

variable (w : SessionWindow)

def showSftpFor (s : Session) : SessionWindow := { w with sftpPanel := some s }

def showFtpFor (s : Session) : SessionWindow := { w with ftpPanel := some s }

-- Only an SSH connection brings the browser up.
def makePane (s : Session) : SessionWindow :=
  let w := { w with next := w.next + 1, tabSessions := w.tabSessions.insert w.next s }
  if s.type = .ssh then w.showSftpFor s else w

def addTab (tab : Tab) : SessionWindow := { w with tabs := w.tabs ++ [tab] }

def openSession (webEngine : Bool) (s : Session) : SessionWindow :=
  match s.type with
  | .s3 => w
  | .browser => if webEngine then w.addTab [] else w
  | .rdp | .vnc => w.addTab []
  | .sftp => w.showSftpFor s
  | .ftp => w.showFtpFor s
  | _ => (w.makePane s).addTab [w.next]

def localShell : Session := ⟨"local", .shell, .empty⟩

def currentPane (tab : Tab) (focused : Option Nat) : Option Nat :=
  (tab.find? fun p => some p = focused).or tab.head?

def paneSession (tab : Tab) (focused : Option Nat) : Session :=
  match currentPane tab focused with
  | none => localShell
  | some p => w.tabSessions.value p localShell

def setTab (i : Nat) (tab : Tab) : SessionWindow := { w with tabs := w.tabs.set i tab }

def splitCurrent (current : Nat) (focused : Option Nat) : SessionWindow :=
  match w.tabs[current]? with
  | none => w
  | some tab =>
      let s := w.paneSession tab focused
      (w.makePane s).setTab current (tab ++ [w.next])

def splitQuad (current : Nat) (focused : Option Nat) : SessionWindow :=
  match w.tabs[current]? with
  | none => w
  | some tab =>
      let s := w.paneSession tab focused
      (((w.makePane s).makePane s).makePane s).setTab current
        (tab ++ [w.next] ++ [w.next + 1] ++ [w.next + 2])

def syncRemoteDocks : SessionWindow :=
  let needSftp := w.tabSessions.any fun e => e.2.type = .ssh || e.2.type = .sftp
  let needFtp := w.tabSessions.any fun e => e.2.type = .ftp
  { w with
    sftpPanel := if needSftp then w.sftpPanel else none
    ftpPanel := if needFtp then w.ftpPanel else none }

def closeTab (i : Nat) : SessionWindow :=
  match w.tabs[i]? with
  | none => w
  | some tab =>
      { w with
        tabs := w.tabs.eraseIdx i
        tabSessions := tab.foldl QHash.erase w.tabSessions }.syncRemoteDocks

def detachCurrentTab (current : Nat) : SessionWindow :=
  match w.tabs[current]? with
  | none => w
  | some tab => { w with tabs := w.tabs.eraseIdx current, detached := w.detached ++ [tab] }

def step (webEngine : Bool) (w : SessionWindow) : WindowEvent → SessionWindow
  | .openSession s => w.openSession webEngine s
  | .openSftpBrowser s => w.showSftpFor s
  | .splitCurrent current focused => w.splitCurrent current focused
  | .splitQuad current focused => w.splitQuad current focused
  | .closeTab i => w.closeTab i
  | .detachCurrentTab current => w.detachCurrentTab current

def session (id : Nat) : Option Session := w.tabSessions.find id

def groups : List Tab := w.tabs ++ w.detached

-- The types that a terminal pane is made for.
def Terminal (type : SessionType) : Prop :=
  type ∉ [SessionType.s3, .browser, .rdp, .vnc, .sftp, .ftp]

structure Kept (groups : List Tab) (w : SessionWindow) : Prop where
  keys : (w.tabSessions.map (·.1)).Nodup
  nodup : groups.flatten.Nodup
  below : ∀ id ∈ groups.flatten, id < w.next
  recorded : ∀ id, id ∈ groups.flatten ↔ (w.session id).isSome
  typed : ∀ id s, w.session id = some s → Terminal s.type
  alike : ∀ tab ∈ groups, ∀ a ∈ tab, ∀ b ∈ tab, w.session a = w.session b
  browsed : ∀ id s, w.session id = some s → s.type = .ssh → w.sftpPanel.isSome

section Kept

variable {w} {groups : List Tab} {s : Session} {tab : Tab}

theorem Kept.perm {groups' : List Tab} (h : Kept groups w) (hperm : groups.Perm groups') :
    Kept groups' w where
  keys := h.keys
  nodup := hperm.flatten.nodup_iff.mp h.nodup
  below id hid := h.below id (hperm.flatten.mem_iff.mpr hid)
  recorded id := hperm.flatten.mem_iff.symm.trans (h.recorded id)
  typed := h.typed
  alike tab htab := h.alike tab (hperm.mem_iff.mpr htab)
  browsed := h.browsed

theorem session_makePane (s : Session) (id : Nat) :
    (w.makePane s).session id = if id = w.next then some s else w.session id := by
  unfold makePane
  split
  · exact QHash.find_insert w.tabSessions w.next id s
  · exact QHash.find_insert w.tabSessions w.next id s

theorem sftpPanel_makePane (s : Session) :
    (w.makePane s).sftpPanel = if s.type = .ssh then some s else w.sftpPanel := by
  unfold makePane
  split
  · rfl
  · rfl

theorem next_makePane (s : Session) : (w.makePane s).next = w.next + 1 := by
  unfold makePane
  split
  · rfl
  · rfl

theorem Kept.fresh (h : Kept groups w) : w.next ∉ groups.flatten := fun hmem =>
  lt_irrefl w.next (h.below w.next hmem)

theorem Kept.session_mirrored (h : Kept (tab :: groups) w)
    (htab : ∀ a ∈ tab, w.session a = some s) :
    ∀ a ∈ tab ++ [w.next], (w.makePane s).session a = some s := by
  intro a ha
  rw [session_makePane]
  rcases List.mem_append.mp ha with ha | ha
  · have hne : a ≠ w.next := fun heq => h.fresh (List.mem_append_left _ (heq ▸ ha))
    rw [if_neg hne]
    exact htab a ha
  · rw [if_pos (List.mem_singleton.mp ha)]

theorem Kept.makePane (h : Kept (tab :: groups) w) (htab : ∀ a ∈ tab, w.session a = some s)
    (hs : Terminal s.type) : Kept ((tab ++ [w.next]) :: groups) (w.makePane s) := by
  have hfresh : w.next ∉ tab ++ groups.flatten := h.fresh
  have hold {id : Nat} (hid : id ≠ w.next) : (w.makePane s).session id = w.session id := by
    rw [session_makePane, if_neg hid]
  have hperm : ((tab ++ [w.next]) :: groups).flatten.Perm
      (w.next :: (tab :: groups).flatten) := by
    rw [List.flatten_cons, List.flatten_cons, List.append_assoc, List.singleton_append]
    exact List.perm_middle
  refine ⟨?_, ?_, fun id hid => ?_, fun id => ?_, fun id r hr => ?_,
    fun other hother a ha b hb => ?_, fun id r hr hssh => ?_⟩
  · have hkeys : (w.makePane s).tabSessions = w.tabSessions.insert w.next s := by
      unfold SessionWindow.makePane
      split
      · rfl
      · rfl
    rw [hkeys]
    exact QHash.nodup_insert h.keys w.next s
  · rw [hperm.nodup_iff]
    exact List.nodup_cons.mpr ⟨hfresh, h.nodup⟩
  · rw [next_makePane]
    rcases List.mem_cons.mp (hperm.mem_iff.mp hid) with rfl | hid
    · exact Nat.lt_succ_self _
    · exact Nat.lt_succ_of_lt (h.below id hid)
  · rw [hperm.mem_iff, List.mem_cons, h.recorded id, session_makePane]
    split
    · rename_i hid
      simp [hid]
    · rename_i hid
      simp [hid]
  · rw [session_makePane] at hr
    split at hr
    · cases hr
      exact hs
    · exact h.typed id r hr
  · rcases List.mem_cons.mp hother with rfl | hother
    · rw [h.session_mirrored htab a ha, h.session_mirrored htab b hb]
    · have hne {c : Nat} (hc : c ∈ other) : c ≠ w.next := by
        rintro rfl
        exact hfresh (List.mem_append_right _ (List.mem_flatten.mpr ⟨other, hother, hc⟩))
      rw [hold (hne ha), hold (hne hb)]
      exact h.alike other (List.mem_cons_of_mem _ hother) a ha b hb
  · rw [sftpPanel_makePane]
    split
    · rfl
    · rename_i htype
      rw [session_makePane] at hr
      split at hr
      · cases hr
        exact absurd hssh htype
      · exact h.browsed id r hr hssh

theorem Kept.place (h : Kept groups w) (tabs detached : List Tab) :
    Kept groups { w with tabs, detached } :=
  ⟨h.keys, h.nodup, h.below, h.recorded, h.typed, h.alike, h.browsed⟩

theorem Kept.empty (h : Kept groups w) : Kept ([] :: groups) w where
  keys := h.keys
  nodup := h.nodup
  below := h.below
  recorded := h.recorded
  typed := h.typed
  alike tab htab := by
    rcases List.mem_cons.mp htab with rfl | htab
    · exact fun a ha => absurd ha List.not_mem_nil
    · exact h.alike tab htab
  browsed := h.browsed

theorem Kept.showSftpFor (h : Kept groups w) (s : Session) : Kept groups (w.showSftpFor s) :=
  ⟨h.keys, h.nodup, h.below, h.recorded, h.typed, h.alike, fun _ _ _ _ => rfl⟩

theorem Kept.showFtpFor (h : Kept groups w) (s : Session) : Kept groups (w.showFtpFor s) :=
  ⟨h.keys, h.nodup, h.below, h.recorded, h.typed, h.alike, h.browsed⟩

-- The records without those of one tab.
def forget (w : SessionWindow) (tab : Tab) : SessionWindow :=
  { w with tabSessions := tab.foldl QHash.erase w.tabSessions }

theorem session_forget (id : Nat) :
    (w.forget tab).session id = if id ∈ tab then none else w.session id :=
  QHash.find_foldl_erase tab w.tabSessions id

theorem Kept.forget (h : Kept (tab :: groups) w) : Kept groups (w.forget tab) := by
  have hnodup : (tab ++ groups.flatten).Nodup := h.nodup
  have hdisjoint := List.disjoint_of_nodup_append hnodup
  have hold {id : Nat} {r : Session} (hid : (w.forget tab).session id = some r) :
      w.session id = some r := by
    rw [session_forget] at hid
    split at hid
    · cases hid
    · exact hid
  have hother {id : Nat} (hid : id ∈ groups.flatten) :
      (w.forget tab).session id = w.session id := by
    rw [session_forget, if_neg fun htab => hdisjoint htab hid]
  refine ⟨QHash.nodup_foldl_erase tab h.keys, hnodup.of_append_right, fun id hid => ?_,
    fun id => ?_, fun id r hr => h.typed id r (hold hr), fun other hmem a ha b hb => ?_,
    fun id r hr => h.browsed id r (hold hr)⟩
  · exact h.below id (List.mem_append_right _ hid)
  · rw [session_forget]
    split
    · rename_i htab
      exact iff_of_false (hdisjoint htab) (by simp)
    · rename_i htab
      rw [← h.recorded id, List.flatten_cons, List.mem_append, or_iff_right htab]
  · rw [hother (List.mem_flatten.mpr ⟨other, hmem, ha⟩),
      hother (List.mem_flatten.mpr ⟨other, hmem, hb⟩)]
    exact h.alike other (List.mem_cons_of_mem _ hmem) a ha b hb

theorem Kept.needs_ssh (h : Kept groups w) :
    (w.tabSessions.any fun e => e.2.type = .ssh || e.2.type = .sftp) = true ↔
      ∃ id s, w.session id = some s ∧ s.type = .ssh := by
  rw [List.any_eq_true]
  constructor
  · rintro ⟨⟨id, s⟩, hmem, htype⟩
    have hfind : w.session id = some s := QHash.find_of_mem h.keys hmem
    have hterminal := h.typed id s hfind
    refine ⟨id, s, hfind, ?_⟩
    rcases (Bool.or_eq_true _ _).mp htype with hssh | hsftp
    · exact of_decide_eq_true hssh
    · have hsftp : s.type = .sftp := of_decide_eq_true hsftp
      rw [hsftp] at hterminal
      exact absurd hterminal (by simp [Terminal])
  · rintro ⟨id, s, hfind, hssh⟩
    exact ⟨(id, s), QHash.mem_of_find hfind, by simp [hssh]⟩

theorem Kept.needs_ftp (h : Kept groups w) :
    (w.tabSessions.any fun e => e.2.type = .ftp) = false := by
  rw [List.any_eq_false]
  rintro ⟨id, s⟩ hmem htype
  have hterminal := h.typed id s (QHash.find_of_mem h.keys hmem)
  have hftp : s.type = .ftp := of_decide_eq_true htype
  rw [hftp] at hterminal
  exact absurd hterminal (by simp [Terminal])

theorem Kept.syncRemoteDocks (h : Kept groups w) : Kept groups w.syncRemoteDocks := by
  refine ⟨h.keys, h.nodup, h.below, h.recorded, h.typed, h.alike, fun id s hid hssh => ?_⟩
  have hneed := h.needs_ssh.mpr ⟨id, s, hid, hssh⟩
  change (if _ then w.sftpPanel else none).isSome
  rw [if_pos hneed]
  exact h.browsed id s hid hssh

theorem sftpPanel_syncRemoteDocks (h : Kept groups w) : w.syncRemoteDocks.sftpPanel.isSome ↔
    ∃ id s, w.session id = some s ∧ s.type = .ssh := by
  rw [← h.needs_ssh]
  constructor
  · intro hopen
    by_contra hneed
    change (if _ then w.sftpPanel else none).isSome at hopen
    rw [if_neg hneed] at hopen
    cases hopen
  · intro hneed
    obtain ⟨id, s, hid, hssh⟩ := h.needs_ssh.mp hneed
    exact h.syncRemoteDocks.browsed id s hid hssh

theorem ftpPanel_syncRemoteDocks (h : Kept groups w) : w.syncRemoteDocks.ftpPanel = none := by
  change (if _ then w.ftpPanel else none) = none
  rw [if_neg (by rw [h.needs_ftp]; exact Bool.false_ne_true)]

end Kept

-- One tab among the others.
theorem split_tab {tabs : List Tab} {i : Nat} {tab : Tab} (h : tabs[i]? = some tab) :
    ∃ pre post, tabs = pre ++ tab :: post ∧ tabs.eraseIdx i = pre ++ post ∧
      ∀ new, tabs.set i new = pre ++ new :: post := by
  induction tabs generalizing i with
  | nil => cases h
  | cons t tabs ih =>
    cases i with
    | zero =>
      cases h
      exact ⟨[], tabs, rfl, rfl, fun _ => rfl⟩
    | succ i =>
      obtain ⟨pre, post, hsplit, herase, hset⟩ := ih h
      exact ⟨t :: pre, post, congrArg (t :: ·) hsplit, congrArg (t :: ·) herase,
        fun new => congrArg (t :: ·) (hset new)⟩

section Step

variable {w} {s : Session} {tab : Tab}

theorem tabs_makePane (s : Session) :
    (w.makePane s).tabs = w.tabs ∧ (w.makePane s).detached = w.detached := by
  unfold makePane
  split
  · exact ⟨rfl, rfl⟩
  · exact ⟨rfl, rfl⟩

theorem perm_tab (pre post detached : List Tab) (tab : Tab) :
    (pre ++ tab :: post ++ detached).Perm (tab :: (pre ++ post ++ detached)) := by
  rw [List.append_assoc, List.append_assoc]
  exact List.perm_middle

-- The tab that a step is about is taken to the front.
theorem Kept.front (h : Kept w.groups w) {i : Nat} (htab : w.tabs[i]? = some tab) :
    ∃ pre post, Kept (tab :: (pre ++ post ++ w.detached)) w ∧
      w.tabs.eraseIdx i = pre ++ post ∧ ∀ new, w.tabs.set i new = pre ++ new :: post := by
  obtain ⟨pre, post, hsplit, herase, hset⟩ := split_tab htab
  refine ⟨pre, post, h.perm ?_, herase, hset⟩
  rw [groups, hsplit]
  exact perm_tab pre post w.detached tab

theorem terminal_localShell : Terminal localShell.type := by simp [Terminal, localShell]

-- A split mirrors the session that all panes of the tab have.
theorem Kept.paneSession {groups : List Tab} (h : Kept (tab :: groups) w) (focused : Option Nat) :
    (∀ a ∈ tab, w.session a = some (w.paneSession tab focused)) ∧
      Terminal (w.paneSession tab focused).type := by
  have hcurrent (p : Nat) (hp : currentPane tab focused = some p) : p ∈ tab := by
    rcases Option.or_eq_some_iff.mp hp with hfind | ⟨-, hhead⟩
    · exact List.mem_of_find?_eq_some hfind
    · exact List.mem_of_mem_head? hhead
  unfold SessionWindow.paneSession
  cases hp : currentPane tab focused with
  | none =>
    have hnil : tab = [] := by
      have hhead := (Option.or_eq_none_iff.mp hp).2
      exact List.head?_eq_none_iff.mp hhead
    rw [hnil]
    exact ⟨fun a ha => absurd ha List.not_mem_nil, terminal_localShell⟩
  | some p =>
    have hmem := hcurrent p hp
    obtain ⟨r, hr⟩ := Option.isSome_iff_exists.mp
      ((h.recorded p).mp (List.mem_append_left _ hmem))
    have hvalue : w.tabSessions.value p localShell = r := by
      change (w.session p).getD localShell = r
      rw [hr]
      rfl
    simp only [hvalue]
    exact ⟨fun a ha => (h.alike tab List.mem_cons_self a ha p hmem).trans hr, h.typed p r hr⟩

theorem perm_addTab (tab : Tab) : (tab :: w.groups).Perm (w.tabs ++ [tab] ++ w.detached) := by
  rw [List.append_assoc, List.singleton_append]
  exact List.perm_middle.symm

theorem kept_addTab (h : Kept w.groups w) : Kept (w.addTab []).groups (w.addTab []) :=
  (h.empty.perm (perm_addTab [])).place _ _

theorem kept_openPane (h : Kept w.groups w) (hs : Terminal s.type) :
    Kept ((w.makePane s).addTab [w.next]).groups ((w.makePane s).addTab [w.next]) := by
  have hpane := h.empty.makePane (s := s) (fun a ha => absurd ha List.not_mem_nil) hs
  have hgroups : ((w.makePane s).addTab [w.next]).groups =
      w.tabs ++ [[w.next]] ++ w.detached := by
    rw [groups, addTab, (tabs_makePane s).1, (tabs_makePane s).2]
  rw [hgroups]
  exact (hpane.perm (perm_addTab [w.next])).place _ _

theorem openSession_cases (webEngine : Bool) (s : Session) :
    w.openSession webEngine s = w ∨ w.openSession webEngine s = w.addTab [] ∨
      w.openSession webEngine s = w.showSftpFor s ∨ w.openSession webEngine s = w.showFtpFor s ∨
      Terminal s.type ∧ w.openSession webEngine s = (w.makePane s).addTab [w.next] := by
  unfold openSession
  cases htype : s.type with
  | s3 => exact .inl rfl
  | browser =>
    cases webEngine with
    | false => exact .inl rfl
    | true => exact .inr (.inl rfl)
  | rdp => exact .inr (.inl rfl)
  | vnc => exact .inr (.inl rfl)
  | sftp => exact .inr (.inr (.inl rfl))
  | ftp => exact .inr (.inr (.inr (.inl rfl)))
  | ssh | telnet | rsh | rlogin | serial | mosh | shell | xdmcp | unknown =>
    exact .inr (.inr (.inr (.inr ⟨by simp [Terminal], rfl⟩)))

theorem kept_openSession (h : Kept w.groups w) (webEngine : Bool) (s : Session) :
    Kept (w.openSession webEngine s).groups (w.openSession webEngine s) := by
  rcases openSession_cases webEngine s with hrun | hrun | hrun | hrun | ⟨hs, hrun⟩
  · rw [hrun]
    exact h
  · rw [hrun]
    exact kept_addTab h
  · rw [hrun]
    exact h.showSftpFor s
  · rw [hrun]
    exact h.showFtpFor s
  · rw [hrun]
    exact kept_openPane h hs

theorem groups_setTab {v : SessionWindow} {pre post : List Tab} {i : Nat}
    (hkeeps : v.tabs = w.tabs ∧ v.detached = w.detached) {new : Tab}
    (hset : w.tabs.set i new = pre ++ new :: post) :
    (v.setTab i new).groups = pre ++ new :: post ++ w.detached := by
  rw [groups, setTab, hkeeps.1, hkeeps.2, hset]

theorem kept_splitCurrent (h : Kept w.groups w) (current : Nat) (focused : Option Nat) :
    Kept (w.splitCurrent current focused).groups (w.splitCurrent current focused) := by
  unfold splitCurrent
  cases htab : w.tabs[current]? with
  | none => exact h
  | some tab =>
    obtain ⟨pre, post, hfront, -, hset⟩ := h.front htab
    obtain ⟨hall, hterminal⟩ := hfront.paneSession focused
    have hpane := hfront.makePane hall hterminal
    rw [groups_setTab (tabs_makePane _) (hset _)]
    exact (hpane.perm (perm_tab pre post w.detached _).symm).place _ _

theorem kept_splitQuad (h : Kept w.groups w) (current : Nat) (focused : Option Nat) :
    Kept (w.splitQuad current focused).groups (w.splitQuad current focused) := by
  unfold splitQuad
  cases htab : w.tabs[current]? with
  | none => exact h
  | some tab =>
    obtain ⟨pre, post, hfront, -, hset⟩ := h.front htab
    obtain ⟨hall, hterminal⟩ := hfront.paneSession focused
    dsimp only
    generalize w.paneSession tab focused = s at hall hterminal ⊢
    have hone := hfront.makePane hall hterminal
    have hmirrored := hfront.session_mirrored hall
    have htwo := hone.makePane hmirrored hterminal
    have hthree := htwo.makePane (hone.session_mirrored hmirrored) hterminal
    have hkeeps : (((w.makePane s).makePane s).makePane s).tabs = w.tabs ∧
        (((w.makePane s).makePane s).makePane s).detached = w.detached := by
      rw [(tabs_makePane s).1, (tabs_makePane s).1, (tabs_makePane s).1, (tabs_makePane s).2,
        (tabs_makePane s).2, (tabs_makePane s).2]
      exact ⟨rfl, rfl⟩
    simp only [next_makePane] at hthree
    rw [groups_setTab hkeeps (hset _)]
    exact (hthree.perm (perm_tab pre post w.detached _).symm).place _ _

theorem closeTab_eq {i : Nat} (htab : w.tabs[i]? = some tab) :
    w.closeTab i = ({ w.forget tab with
      tabs := w.tabs.eraseIdx i, detached := w.detached } : SessionWindow).syncRemoteDocks := by
  unfold closeTab
  rw [htab]
  rfl

theorem kept_closing (h : Kept w.groups w) {i : Nat} (htab : w.tabs[i]? = some tab) :
    Kept (w.tabs.eraseIdx i ++ w.detached) ({ w.forget tab with
      tabs := w.tabs.eraseIdx i, detached := w.detached } : SessionWindow) := by
  obtain ⟨pre, post, hfront, herase, -⟩ := h.front htab
  rw [herase]
  exact hfront.forget.place _ _

theorem kept_closeTab (h : Kept w.groups w) (i : Nat) :
    Kept (w.closeTab i).groups (w.closeTab i) := by
  cases htab : w.tabs[i]? with
  | none =>
    have hsame : w.closeTab i = w := by
      unfold closeTab
      rw [htab]
    rw [hsame]
    exact h
  | some tab =>
    rw [closeTab_eq htab]
    exact (kept_closing h htab).syncRemoteDocks

theorem kept_detachCurrentTab (h : Kept w.groups w) (current : Nat) :
    Kept (w.detachCurrentTab current).groups (w.detachCurrentTab current) := by
  unfold detachCurrentTab
  cases htab : w.tabs[current]? with
  | none => exact h
  | some tab =>
    obtain ⟨pre, post, hfront, herase, -⟩ := h.front htab
    have hperm : (tab :: (pre ++ post ++ w.detached)).Perm
        (w.tabs.eraseIdx current ++ (w.detached ++ [tab])) := by
      rw [herase, ← List.append_assoc]
      exact (List.perm_append_singleton tab _).symm
    exact (hfront.perm hperm).place _ _

theorem kept_step (h : Kept w.groups w) (webEngine : Bool) (e : WindowEvent) :
    Kept (step webEngine w e).groups (step webEngine w e) := by
  cases e with
  | openSession s => exact kept_openSession h webEngine s
  | openSftpBrowser s => exact h.showSftpFor s
  | splitCurrent current focused => exact kept_splitCurrent h current focused
  | splitQuad current focused => exact kept_splitQuad h current focused
  | closeTab i => exact kept_closeTab h i
  | detachCurrentTab current => exact kept_detachCurrentTab h current

end Step

section Detached

variable {w} {id : Nat}

theorem session_makePane_of_lt (s : Session) (h : id < w.next) :
    (w.makePane s).session id = w.session id := by
  rw [session_makePane, if_neg (Nat.ne_of_lt h)]

theorem session_panes (s : Session) (h : id < w.next) :
    (((w.makePane s).makePane s).makePane s).session id = w.session id := by
  rw [session_makePane_of_lt, session_makePane_of_lt, session_makePane_of_lt s h]
  · rw [next_makePane]
    omega
  · rw [next_makePane, next_makePane]
    omega

theorem detached_panes (s : Session) :
    (((w.makePane s).makePane s).makePane s).detached = w.detached := by
  rw [(tabs_makePane s).2, (tabs_makePane s).2, (tabs_makePane s).2]

-- What has been taken out of the tabs is left alone.
theorem detached_step (hw : Kept w.groups w) (webEngine : Bool) (e : WindowEvent)
    (hid : id ∈ w.detached.flatten) : id ∈ (step webEngine w e).detached.flatten ∧
      (step webEngine w e).session id = w.session id := by
  have hgroups : id ∈ w.groups.flatten := by
    rw [groups, List.flatten_append]
    exact List.mem_append_right _ hid
  have hbelow := hw.below id hgroups
  cases e with
  | openSession s =>
    change id ∈ (w.openSession webEngine s).detached.flatten ∧
      (w.openSession webEngine s).session id = w.session id
    rcases openSession_cases webEngine s with hrun | hrun | hrun | hrun | ⟨-, hrun⟩
    · rw [hrun]
      exact ⟨hid, rfl⟩
    · rw [hrun]
      exact ⟨hid, rfl⟩
    · rw [hrun]
      exact ⟨hid, rfl⟩
    · rw [hrun]
      exact ⟨hid, rfl⟩
    · rw [hrun]
      refine ⟨?_, session_makePane_of_lt s hbelow⟩
      rw [addTab, (tabs_makePane s).2]
      exact hid
  | openSftpBrowser s => exact ⟨hid, rfl⟩
  | splitCurrent current focused =>
    change id ∈ (w.splitCurrent current focused).detached.flatten ∧
      (w.splitCurrent current focused).session id = w.session id
    unfold splitCurrent
    cases htab : w.tabs[current]? with
    | none => exact ⟨hid, rfl⟩
    | some tab =>
      refine ⟨?_, session_makePane_of_lt _ hbelow⟩
      dsimp only
      rw [setTab, (tabs_makePane _).2]
      exact hid
  | splitQuad current focused =>
    change id ∈ (w.splitQuad current focused).detached.flatten ∧
      (w.splitQuad current focused).session id = w.session id
    unfold splitQuad
    cases htab : w.tabs[current]? with
    | none => exact ⟨hid, rfl⟩
    | some tab =>
      refine ⟨?_, session_panes _ hbelow⟩
      dsimp only
      rw [setTab, detached_panes]
      exact hid
  | closeTab i =>
    change id ∈ (w.closeTab i).detached.flatten ∧ (w.closeTab i).session id = w.session id
    cases htab : w.tabs[i]? with
    | none =>
      unfold closeTab
      rw [htab]
      exact ⟨hid, rfl⟩
    | some tab =>
      rw [closeTab_eq htab]
      refine ⟨hid, (@session_forget w tab id).trans ?_⟩
      have hother : id ∉ tab := by
        intro hmem
        have hnodup : (w.tabs.flatten ++ w.detached.flatten).Nodup := by
          rw [← List.flatten_append]
          exact hw.nodup
        have htabs : id ∈ w.tabs.flatten :=
          List.mem_flatten.mpr ⟨tab, List.mem_of_getElem? htab, hmem⟩
        exact List.disjoint_of_nodup_append hnodup htabs hid
      rw [if_neg hother]
  | detachCurrentTab current =>
    change id ∈ (w.detachCurrentTab current).detached.flatten ∧
      (w.detachCurrentTab current).session id = w.session id
    unfold detachCurrentTab
    cases htab : w.tabs[current]? with
    | none => exact ⟨hid, rfl⟩
    | some tab =>
      refine ⟨?_, rfl⟩
      dsimp only
      rw [List.flatten_append]
      exact List.mem_append_left _ hid

end Detached

def reached (webEngine : Bool) (es : List WindowEvent) : SessionWindow :=
  es.foldl (step webEngine) {}

section Run

variable (webEngine : Bool) (es : List WindowEvent)

theorem kept_run {w : SessionWindow} (h : Kept w.groups w) :
    Kept (es.foldl (step webEngine) w).groups (es.foldl (step webEngine) w) := by
  induction es generalizing w with
  | nil => exact h
  | cons e es ih => exact ih (kept_step h webEngine e)

theorem detached_run {w : SessionWindow} (h : Kept w.groups w) {id : Nat}
    (hid : id ∈ w.detached.flatten) :
    (es.foldl (step webEngine) w).session id = w.session id := by
  induction es generalizing w with
  | nil => rfl
  | cons e es ih =>
    obtain ⟨hnext, hsession⟩ := detached_step h webEngine e hid
    exact (ih (kept_step h webEngine e) hnext).trans hsession

theorem kept_reached : Kept (reached webEngine es).groups (reached webEngine es) :=
  kept_run webEngine es
    ⟨List.nodup_nil, List.nodup_nil, fun _ h => absurd h List.not_mem_nil,
      fun _ => iff_of_false List.not_mem_nil Bool.false_ne_true, nofun,
      fun _ h => absurd h List.not_mem_nil, nofun⟩

-- Each pane is in one tab, has its session on record and shares it with the panes beside it.
theorem panes_recorded : (reached webEngine es).groups.flatten.Nodup ∧
    (∀ id, id ∈ (reached webEngine es).groups.flatten ↔
      ((reached webEngine es).session id).isSome) ∧
    ∀ tab ∈ (reached webEngine es).groups, ∀ a ∈ tab, ∀ b ∈ tab,
      (reached webEngine es).session a = (reached webEngine es).session b :=
  ⟨(kept_reached webEngine es).nodup, (kept_reached webEngine es).recorded,
    (kept_reached webEngine es).alike⟩

-- Closing any tab closes the FTP browser, and the SFTP browser unless an SSH pane is on record;
-- one taken out of the tabs stays there for good.
theorem browsers_closed :
    (∀ i < (reached webEngine es).tabs.length,
      ((reached webEngine es).closeTab i).ftpPanel = none ∧
        (((reached webEngine es).closeTab i).sftpPanel.isSome ↔
          ∃ id s, ((reached webEngine es).closeTab i).session id = some s ∧ s.type = .ssh)) ∧
      ∀ tab ∈ (reached webEngine es).detached, ∀ id ∈ tab, ∀ s,
        (reached webEngine es).session id = some s → s.type = .ssh →
          ∀ later, (reached webEngine (es ++ later)).sftpPanel.isSome := by
  refine ⟨fun i hi => ?_, fun tab htab id hid s hs hssh later => ?_⟩
  · have hkept := kept_reached webEngine es
    have hget : (reached webEngine es).tabs[i]? = some ((reached webEngine es).tabs[i]) :=
      List.getElem?_eq_getElem hi
    have hclosing := kept_closing hkept hget
    rw [closeTab_eq hget]
    exact ⟨ftpPanel_syncRemoteDocks hclosing, sftpPanel_syncRemoteDocks hclosing⟩
  · have hkept := kept_reached webEngine es
    have hsplit : reached webEngine (es ++ later) =
        later.foldl (step webEngine) (reached webEngine es) := List.foldl_append
    have hsame := detached_run webEngine later hkept (List.mem_flatten.mpr ⟨tab, htab, hid⟩)
    rw [hsplit]
    exact (kept_run webEngine later hkept).browsed id s (hsame.trans hs) hssh

end Run

end SessionWindow

end Ui
