import MacXterm.Ui.MainWindow

namespace Ui.MainWindow

open Qt Core

structure Secrets where
  password : Option QString
  passphrase : Option QString
  gatewayPassword : Option QString
  gatewayPassphrase : Option QString

def assign (m : QMap QString) (k : QString) : Option QString → QMap QString
  | some v => m.insert k v
  | none => m.remove k

@[simp] theorem find_assign (m : QMap QString) (k j : QString) (v : Option QString) :
    (assign m k v).find j = if j = k then v else m.find j := by
  cases v with
  | none => exact QMap.find_remove m k j
  | some v => exact QMap.find_insert m k j v

def withSecrets (s : Session) (σ : Secrets) : Session :=
  s.setParams (assign (assign (assign (assign s.params "password" σ.password) "passphrase"
    σ.passphrase) "gateway_password" σ.gatewayPassword) "gateway_passphrase" σ.gatewayPassphrase)

def savedRows (w : MainWindow) (s : Session) : Tables := (w.addAndSaveSession s).store.tables

def Vaulted (w : MainWindow) (password : Option QString) : Prop :=
  password.getD [] ≠ [] ∧ w.vaultUnlocked = true

instance (w : MainWindow) (password : Option QString) : Decidable (w.Vaulted password) :=
  inferInstanceAs (Decidable (_ ∧ _))

-- Values that leave no trace but the reference: one that goes to the vault, or none at all where
-- the session already holds the reference.
def Referenced (s : Session) (password : Option QString) : Prop :=
  password.getD [] ≠ [] ∨
    password = none ∧ s.params.find "vault_ref" = some (vaultRef s.name)

theorem find_withSecrets (s : Session) (σ : Secrets) (k : QString) :
    (withSecrets s σ).params.find k =
      if k = "gateway_passphrase".toList then σ.gatewayPassphrase
      else if k = "gateway_password".toList then σ.gatewayPassword
      else if k = "passphrase".toList then σ.passphrase
      else if k = "password".toList then σ.password
      else s.params.find k := by
  simp only [withSecrets, Session.setParams, find_assign]

theorem param_password (s : Session) (σ : Secrets) :
    (withSecrets s σ).param "password" = σ.password.getD [] := by
  rw [Session.param_eq, find_withSecrets]
  rfl

theorem find_storePassword (w : MainWindow) (s : Session) (σ : Secrets) (k : QString) :
    (w.storePassword (withSecrets s σ)).2.params.find k =
      if w.Vaulted σ.password then
        if k = "password".toList then none
        else if k = "vault_ref".toList then some (vaultRef s.name)
        else (withSecrets s σ).params.find k
      else (withSecrets s σ).params.find k := by
  have hparam := param_password s σ
  by_cases hv : w.Vaulted σ.password
  · have hsplit : σ.password.getD [] ≠ [] ∧ w.vaultUnlocked = true := hv
    rw [storePassword, hparam, if_pos hsplit, if_pos hv]
    simp only [Session.setParams, QMap.find_remove, Session.find_setParam]
    rfl
  · have hsplit : ¬(σ.password.getD [] ≠ [] ∧ w.vaultUnlocked = true) := hv
    rw [storePassword, hparam, if_neg hsplit, if_neg hv]

theorem find_storedPassword (w : MainWindow) (s : Session) (σ : Secrets) :
    (w.storePassword (withSecrets s σ)).2.params.find "password" =
      if w.Vaulted σ.password then none else σ.password := by
  have hplain : (withSecrets s σ).params.find "password" = σ.password := by
    rw [find_withSecrets]
    rfl
  rw [find_storePassword, if_pos rfl, hplain]

theorem find_storedRef (w : MainWindow) (s : Session) (σ : Secrets) :
    (w.storePassword (withSecrets s σ)).2.params.find "vault_ref" =
      if w.Vaulted σ.password then some (vaultRef s.name) else s.params.find "vault_ref" := by
  have hplain : (withSecrets s σ).params.find "vault_ref" = s.params.find "vault_ref" := by
    rw [find_withSecrets]
    rfl
  have hne : "vault_ref".toList ≠ "password".toList := by decide
  rw [find_storePassword, if_neg hne, if_pos rfl, hplain]

theorem storePassword_eq (w : MainWindow) (s : Session) (σ τ : Secrets)
    (h : ∀ k, (w.storePassword (withSecrets s σ)).2.params.find k =
      (w.storePassword (withSecrets s τ)).2.params.find k) :
    (w.storePassword (withSecrets s σ)).2 = (w.storePassword (withSecrets s τ)).2 := by
  have hkeep (σ : Secrets) : (w.storePassword (withSecrets s σ)).2.name = s.name ∧
      (w.storePassword (withSecrets s σ)).2.type = s.type := by
    unfold storePassword
    split <;> exact ⟨rfl, rfl⟩
  exact Session.ext ((hkeep σ).1.trans (hkeep τ).1.symm) ((hkeep σ).2.trans (hkeep τ).2.symm)
    (QMap.ext_find h)

theorem savedRows_eq (w : MainWindow) (s : Session) :
    w.savedRows s = if w.store.isOpen then
        saveFolder none .empty (w.sessions.addSession (w.storePassword s).2)
      else w.store.tables := by
  have hstore : (w.storePassword s).1.store = w.store := by rw [storePassword_window]
  have hsessions : (w.storePassword s).1.sessions = w.sessions := by rw [storePassword_window]
  simp only [savedRows, addAndSaveSession, persistSessions, Store.saveTree, hstore, hsessions]
  cases w.store.isOpen <;> rfl

theorem savedRows_agree (w : MainWindow) (s : Session) (σ τ : Secrets) :
    w.savedRows (withSecrets s σ) = w.savedRows (withSecrets s τ) ↔
      w.store.isOpen = false ∨
        ∀ k, (w.storePassword (withSecrets s σ)).2.params.find k =
          (w.storePassword (withSecrets s τ)).2.params.find k := by
  rw [savedRows_eq, savedRows_eq]
  cases w.store.isOpen with
  | false => simp
  | true =>
    simp only [if_true, Bool.true_eq_false, false_or]
    constructor
    · intro h k
      obtain ⟨i, hi⟩ := lastSession_params w.sessions.name w.sessions.folders w.sessions.sessions
      rw [← hi _ k, ← hi _ k]
      exact congrArg (fun t => t.paramValue i k) h
    · intro h
      rw [storePassword_eq w s σ τ h]

theorem passwords_agree (w : MainWindow) (s : Session) (p q : Option QString)
    (hpassword : (if w.Vaulted p then none else p) = if w.Vaulted q then none else q)
    (href : (if w.Vaulted p then some (vaultRef s.name) else s.params.find "vault_ref") =
      if w.Vaulted q then some (vaultRef s.name) else s.params.find "vault_ref") :
    p = q ∨ w.vaultUnlocked = true ∧ Referenced s p ∧ Referenced s q := by
  by_cases hp : w.Vaulted p <;> by_cases hq : w.Vaulted q <;>
    simp only [hp, hq, if_true, if_false] at hpassword href
  · exact .inr ⟨hp.2, .inl hp.1, .inl hq.1⟩
  · exact .inr ⟨hp.2, .inl hp.1, .inr ⟨hpassword.symm, href.symm⟩⟩
  · exact .inr ⟨hq.2, .inr ⟨hpassword, href⟩, .inl hq.1⟩
  · exact .inl hpassword

theorem referenced_password (w : MainWindow) {s : Session} {p : Option QString}
    (hw : w.vaultUnlocked = true) (h : Referenced s p) :
    (if w.Vaulted p then none else p) = none ∧
      (if w.Vaulted p then some (vaultRef s.name) else s.params.find "vault_ref") =
        some (vaultRef s.name) := by
  rcases h with h | ⟨rfl, href⟩
  · have hv : w.Vaulted p := ⟨h, hw⟩
    exact ⟨if_pos hv, if_pos hv⟩
  · rw [href]
    exact ⟨ite_self _, ite_self _⟩

theorem saved_secrets_agree (w : MainWindow) (s : Session) (σ τ : Secrets) :
    (∀ k, (w.storePassword (withSecrets s σ)).2.params.find k =
        (w.storePassword (withSecrets s τ)).2.params.find k) ↔
      σ.passphrase = τ.passphrase ∧ σ.gatewayPassword = τ.gatewayPassword ∧
        σ.gatewayPassphrase = τ.gatewayPassphrase ∧
        (σ.password = τ.password ∨
          w.vaultUnlocked = true ∧ Referenced s σ.password ∧ Referenced s τ.password) := by
  constructor
  · intro h
    have key (k : QString) (hk : k ≠ "password".toList) (hv : k ≠ "vault_ref".toList) :
        (withSecrets s σ).params.find k = (withSecrets s τ).params.find k := by
      simpa only [find_storePassword, if_neg hk, if_neg hv, ite_self] using h k
    refine ⟨?_, ?_, ?_, ?_⟩
    · simpa [find_withSecrets] using key "passphrase" (by decide) (by decide)
    · simpa [find_withSecrets] using key "gateway_password" (by decide) (by decide)
    · simpa [find_withSecrets] using key "gateway_passphrase" (by decide) (by decide)
    · have hpassword := h "password"
      have href := h "vault_ref"
      rw [find_storedPassword, find_storedPassword] at hpassword
      rw [find_storedRef, find_storedRef] at href
      exact passwords_agree w s _ _ hpassword href
  · rintro ⟨hpassphrase, hgateway, hgatewayPassphrase, hpassword⟩ k
    rcases hpassword with hpassword | ⟨hw, hσ, hτ⟩
    · obtain rfl : σ = τ := by
        cases σ
        cases τ
        simp_all
      rfl
    · obtain ⟨hσp, hσr⟩ := referenced_password w hw hσ
      obtain ⟨hτp, hτr⟩ := referenced_password w hw hτ
      by_cases hk : k = "password".toList
      · rw [hk, find_storedPassword, find_storedPassword, hσp, hτp]
      · by_cases hv : k = "vault_ref".toList
        · rw [hv, find_storedRef, find_storedRef, hσr, hτr]
        · simp only [find_storePassword, if_neg hk, if_neg hv, ite_self, find_withSecrets,
            hpassphrase, hgateway, hgatewayPassphrase]

theorem saved_rows_agree_iff (w : MainWindow) (s : Session) (σ τ : Secrets) :
    w.savedRows (withSecrets s σ) = w.savedRows (withSecrets s τ) ↔
      w.store.isOpen = false ∨
        σ.passphrase = τ.passphrase ∧ σ.gatewayPassword = τ.gatewayPassword ∧
          σ.gatewayPassphrase = τ.gatewayPassphrase ∧
          (σ.password = τ.password ∨
            w.vaultUnlocked = true ∧ Referenced s σ.password ∧ Referenced s τ.password) := by
  rw [savedRows_agree, saved_secrets_agree]

def unlockedWindow : MainWindow :=
  ⟨⟨"Sessions", [], []⟩, ⟨.empty⟩, true, ⟨true, .empty⟩⟩

def keySession : Session := ⟨"web", .ssh, QMap.empty.insert "host" "web.example"⟩

def onlyPassphrase (p : QString) : Secrets := ⟨none, some p, none, none⟩

theorem passphrase_reaches_rows :
    ¬ ∀ w s σ τ, savedRows w (withSecrets s σ) = savedRows w (withSecrets s τ) := by
  intro hall
  have hsame := hall unlockedWindow keySession (onlyPassphrase "a") (onlyPassphrase "b")
  exact absurd hsame (by decide)

end Ui.MainWindow
