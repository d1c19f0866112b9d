import MacXterm.Core.CredentialVault
import MacXterm.Core.Store
import MacXterm.Ui.SessionDialog

namespace Ui

open Qt Core

structure MainWindow where
  sessions : SessionFolder
  vault : CredentialVault
  vaultUnlocked : Bool
  store : Store

namespace MainWindow

def vaultRef (name : QString) : QString := "session:".toList ++ name

def resolveSecrets (w : MainWindow) (s : Session) : Session :=
  let ref := s.param "vault_ref"
  if ref ≠ [] ∧ w.vaultUnlocked ∧ w.vault.hasSecret ref then
    s.setParam "password" (w.vault.secret ref)
  else s

def setSessions (w : MainWindow) (list : List Session) : MainWindow :=
  { w with sessions := { w.sessions with sessions := list } }

def persistSessions (w : MainWindow) : MainWindow :=
  { w with store := (w.store.saveTree w.sessions).2 }

-- The first half of addAndSaveSession; the vault file that persistVault rewrites is left out.
def storePassword (w : MainWindow) (s : Session) : MainWindow × Session :=
  if s.param "password" ≠ [] ∧ w.vaultUnlocked then
    let ref := vaultRef s.name
    let w := { w with vault := w.vault.setSecret ref (s.param "password") }
    let s := s.setParam "vault_ref" ref
    (w, s.setParams (s.params.remove "password"))
  else (w, s)

def addAndSaveSession (w : MainWindow) (sIn : Session) : MainWindow :=
  let (w, s) := w.storePassword sIn
  { w with sessions := w.sessions.addSession s }.persistSessions

def deleteSession (w : MainWindow) (name : QString) : MainWindow :=
  match find w.sessions.sessions name with
  | some i => (w.setSessions (w.sessions.sessions.eraseIdx i)).persistSessions
  | none => w.persistSessions

-- The dialog as it stands when the user presses OK; while it does not validate it stays open, and
-- cancelling it changes nothing.
def openSessionEditor (w : MainWindow) (replaceName : QString) (dlg : SessionDialog) :
    MainWindow :=
  if !dlg.onAccept then w
  else
    let w := if replaceName ≠ [] then w.deleteSession replaceName else w
    w.addAndSaveSession dlg.session

def newSession (w : MainWindow) (dlg : SessionDialog) : MainWindow := w.openSessionEditor [] dlg

def editSession (w : MainWindow) (name : QString) (dlg : SessionDialog) : MainWindow :=
  match w.sessions.findSession name with
  | some _ => w.openSessionEditor name dlg
  | none => w

def renameSession (w : MainWindow) (name neu : QString) : MainWindow :=
  let (renamed, list) := renameSessionInList w.sessions.sessions name neu
  if !renamed then w else (w.setSessions list).persistSessions

def duplicateSession (w : MainWindow) (name : QString) : MainWindow :=
  match w.sessions.findSession name, uniqueCopyName w.sessions.sessions name with
  | some s, some copy => w.addAndSaveSession (s.setName copy)
  | _, _ => w

def setIcon (w : MainWindow) (name glyph : QString) : MainWindow :=
  (w.setSessions (setSessionIcon w.sessions.sessions name glyph).2).persistSessions

def moveTo (w : MainWindow) (name folder : QString) : MainWindow :=
  (w.setSessions (moveSessionToFolder w.sessions.sessions name folder).2).persistSessions

def renameFolder (w : MainWindow) (folder neu : QString) : MainWindow :=
  (w.setSessions (renameFolderInList w.sessions.sessions folder neu).2).persistSessions

section Fields

variable (w : MainWindow)

@[simp] theorem sessions_persistSessions : w.persistSessions.sessions = w.sessions := rfl

@[simp] theorem vaultUnlocked_persistSessions :
    w.persistSessions.vaultUnlocked = w.vaultUnlocked := rfl

end Fields

theorem storePassword_window (w : MainWindow) (s : Session) :
    (w.storePassword s).1 = { w with vault := (w.storePassword s).1.vault } := by
  unfold storePassword
  split <;> rfl

@[simp] theorem sessions_addAndSaveSession (w : MainWindow) (s : Session) :
    (w.addAndSaveSession s).sessions = w.sessions.addSession (w.storePassword s).2 := by
  simp only [addAndSaveSession, sessions_persistSessions]
  rw [storePassword_window]

@[simp] theorem vault_addAndSaveSession (w : MainWindow) (s : Session) :
    (w.addAndSaveSession s).vault = (w.storePassword s).1.vault := rfl

@[simp] theorem vaultUnlocked_addAndSaveSession (w : MainWindow) (s : Session) :
    (w.addAndSaveSession s).vaultUnlocked = w.vaultUnlocked := by
  simp only [addAndSaveSession, vaultUnlocked_persistSessions]
  rw [storePassword_window]

end MainWindow

end Ui
