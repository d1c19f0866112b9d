import MacXterm.Core.VaultFile
import MacXterm.Core.VaultRoundTrip
import MacXterm.Ui.MainWindow

namespace Ui

open Qt Core CredentialVault

structure VaultWindow extends MainWindow where
  vaultDpapi : Bool
  masterPassword : QString
  vaultFile : VaultFile

namespace VaultWindow

variable (o : OpenSsl) (d : Dpapi) (x : Writing) (w : VaultWindow) (s : Session)

def protection : Protection := if w.vaultDpapi then .account else .password w.masterPassword

-- With the result of the save, which the source drops.
def persistVault : Bool × VaultWindow :=
  let (saved, file) :=
    if w.vaultDpapi then saveDpapi d x w.vault w.vaultFile
    else save o x w.vault w.vaultFile w.masterPassword
  (saved, { w with vaultFile := file })

def addAndSaveSession : Option Bool × VaultWindow :=
  if s.param "password" ≠ [] ∧ w.vaultUnlocked then
    let ref := MainWindow.vaultRef s.name
    let w := { w with vault := w.vault.setSecret ref (s.param "password") }
    let (saved, w) := w.persistVault o d x
    let s := s.setParam "vault_ref" ref
    let s := s.setParams (s.params.remove "password")
    let window := { w.toMainWindow with sessions := w.sessions.addSession s }.persistSessions
    (some saved, { w with toMainWindow := window })
  else
    let window := { w.toMainWindow with sessions := w.sessions.addSession s }.persistSessions
    (none, { w with toMainWindow := window })

def StoresPassword : Prop := s.param "password" ≠ [] ∧ w.vaultUnlocked = true

def vaultWithPassword : CredentialVault :=
  w.vault.setSecret (MainWindow.vaultRef s.name) (s.param "password")

def StrandsPassword : Prop :=
  (w.addAndSaveSession o d x s).1 = some false ∧ s.param "password" ≠ [] ∧
    ∃ t ∈ (w.addAndSaveSession o d x s).2.sessions.sessions.getLast?, t.param "password" = []

theorem persistVault_fst :
    (w.persistVault o d x).1 = (saveWith o d x w.vault w.vaultFile w.protection).1 := by
  unfold persistVault protection
  cases w.vaultDpapi with
  | false => rfl
  | true => rfl

theorem toMainWindow_addAndSaveSession :
    (w.addAndSaveSession o d x s).2.toMainWindow = w.toMainWindow.addAndSaveSession s := by
  unfold addAndSaveSession MainWindow.addAndSaveSession MainWindow.storePassword
  split
  · rfl
  · rfl

theorem outcome_eq (h : w.StoresPassword s) : (w.addAndSaveSession o d x s).1 =
    some (saveWith o d x (w.vaultWithPassword s) w.vaultFile w.protection).1 := by
  unfold StoresPassword at h
  rw [addAndSaveSession, if_pos h]
  exact congrArg some (persistVault_fst o d x _)

theorem outcome_none (h : ¬w.StoresPassword s) : (w.addAndSaveSession o d x s).1 = none := by
  unfold StoresPassword at h
  rw [addAndSaveSession, if_neg h]

theorem saved_session (h : w.StoresPassword s) :
    ∃ t ∈ (w.addAndSaveSession o d x s).2.sessions.sessions.getLast?, t.param "password" = [] := by
  rw [toMainWindow_addAndSaveSession, MainWindow.sessions_addAndSaveSession]
  refine ⟨(w.toMainWindow.storePassword s).2, ?_, ?_⟩
  · simp [SessionFolder.addSession]
  · unfold StoresPassword at h
    rw [MainWindow.storePassword, if_pos h]
    simp [Session.param, Session.setParams, QMap.value]

theorem strands_iff (opens : Bool) (written : Int) :
    (∀ landed, ¬w.StrandsPassword o d ⟨opens, written, landed⟩ s) ↔
      (w.StoresPassword s →
        Persisted o d (w.vaultWithPassword s) opens written w.protection) := by
  constructor
  · intro h hstores
    by_contra hnot
    refine h 0 ⟨?_, hstores.1, saved_session o d _ w s hstores⟩
    rw [outcome_eq o d _ w s hstores]
    exact congrArg some (Bool.eq_false_iff.mpr (mt (saved_iff o d _ _ _ _).mp hnot))
  · rintro h landed ⟨hfailed, -, -⟩
    by_cases hstores : w.StoresPassword s
    · rw [outcome_eq o d _ w s hstores] at hfailed
      have hsaved := (saved_iff o d ⟨opens, written, landed⟩ _ w.vaultFile _).mpr (h hstores)
      rw [hsaved] at hfailed
      exact absurd hfailed (by decide)
    · rw [outcome_none o d _ w s hstores] at hfailed
      exact absurd hfailed (by decide)

theorem failed_save_keeps_iff (v : CredentialVault) (q : Protection) {p : Protection}
    {secrets : QMap QString} (hfile : Holds o d w.vaultFile p secrets) (opens : Bool)
    (written : Int) :
    (∀ landed, Kept o d ⟨opens, written, landed⟩ v w.vaultFile q p secrets ∧
        ¬w.StrandsPassword o d ⟨opens, written, landed⟩ s) ↔
      (∀ blob, sealedBlob o d v q = some blob → opens = true → written = blob.length) ∧
        (w.StoresPassword s →
          Persisted o d (w.vaultWithPassword s) opens written w.protection) := by
  rw [forall_and]
  exact and_congr (kept_iff o d v hfile opens written q) (strands_iff o d w s opens written)

def noDpapi : Dpapi := ⟨fun _ => none, fun _ => none⟩

def vaultWindow : VaultWindow :=
  ⟨⟨⟨"Sessions", [], []⟩, ⟨twoSecrets⟩, true, ⟨true, .empty⟩⟩, false, "master",
    some (encrypt toyOpenSsl ⟨twoSecrets⟩ "master")⟩

def newLogin : Session := ⟨"web2", .ssh, QMap.empty.insert "password" "pw"⟩

theorem vaultWindow_holds :
    Holds toyOpenSsl noDpapi vaultWindow.vaultFile (.password "master") twoSecrets := by
  decide +kernel

theorem failed_save_keeps_unopened :
    (∀ landed, Kept toyOpenSsl noDpapi ⟨false, -1, landed⟩ ⟨twoSecrets⟩ vaultWindow.vaultFile
        (.password "master") (.password "master") twoSecrets ∧
        ¬vaultWindow.StrandsPassword toyOpenSsl noDpapi ⟨false, -1, landed⟩ newLogin) ↔
      (∀ blob, sealedBlob toyOpenSsl noDpapi ⟨twoSecrets⟩ (.password "master") = some blob →
          false = true → (-1 : Int) = blob.length) ∧
        (vaultWindow.StoresPassword newLogin →
          Persisted toyOpenSsl noDpapi (vaultWindow.vaultWithPassword newLogin) false (-1)
            vaultWindow.protection) :=
  failed_save_keeps_iff toyOpenSsl noDpapi vaultWindow newLogin ⟨twoSecrets⟩
    (.password "master") vaultWindow_holds false (-1)

theorem full_disk_loses_vault :
    ¬Kept toyOpenSsl noDpapi ⟨true, -1, 0⟩ ⟨twoSecrets⟩ vaultWindow.vaultFile
        (.password "master") (.password "master") twoSecrets ∧
      vaultWindow.StrandsPassword toyOpenSsl noDpapi ⟨true, -1, 0⟩ newLogin := by
  constructor
  · intro h
    exact not_holds_truncated toyOpenSsl noDpapi _ _ (h (by decide +kernel))
  · exact ⟨by decide +kernel, by decide, _, rfl, by decide⟩

end VaultWindow

end Ui
