import MacXterm.Core.CredentialVault

namespace Core

open Qt

def kDpapiMagic : QByteArray := [0x4D, 0x58, 0x56, 0x44, 0x50, 0x41, 0x50, 0x31]

-- CryptProtectData and CryptUnprotectData; a build without them fails every time.
structure Dpapi where
  protect : QByteArray → Option QByteArray
  unprotect : QByteArray → Option QByteArray

-- What the system does to a file opened with WriteOnly | Truncate: whether it opens, what
-- QFile::write returns, and how many bytes of the blob are in the file afterwards.
structure Writing where
  opens : Bool
  written : Int
  landed : Nat

abbrev VaultFile := Option QByteArray

inductive Protection where
  | account
  | password (masterPassword : QString)
deriving DecidableEq

namespace CredentialVault

def writeBlob (x : Writing) (file : VaultFile) (blob : QByteArray) : Bool × VaultFile :=
  if !x.opens then (false, file)
  else (x.written == (blob.length : Int), some (blob.take x.landed))

def save (o : OpenSsl) (x : Writing) (v : CredentialVault) (file : VaultFile)
    (masterPassword : QString) : Bool × VaultFile :=
  let blob := encrypt o v masterPassword
  if blob.isEmpty then (false, file) else writeBlob x file blob

def load (o : OpenSsl) (v : CredentialVault) (file : VaultFile) (masterPassword : QString) :
    Bool × CredentialVault :=
  match file with
  | none => (false, v)
  | some blob => decrypt o v blob masterPassword

def saveDpapi (d : Dpapi) (x : Writing) (v : CredentialVault) (file : VaultFile) :
    Bool × VaultFile :=
  match d.protect (flatten v.secrets) with
  | none => (false, file)
  | some out => writeBlob x file (kDpapiMagic ++ out)

def loadDpapi (d : Dpapi) (v : CredentialVault) (file : VaultFile) : Bool × CredentialVault :=
  match file with
  | none => (false, v)
  | some blob =>
      if blob.length < kDpapiMagic.length then (false, v)
      else if blob.take kDpapiMagic.length ≠ kDpapiMagic then (false, v)
      else
        match d.unprotect (blob.drop kDpapiMagic.length) with
        | none => (false, v)
        | some plain => (true, ⟨unflatten plain⟩)

variable (o : OpenSsl) (d : Dpapi) (x : Writing) (v : CredentialVault)

def saveWith (file : VaultFile) : Protection → Bool × VaultFile
  | .account => saveDpapi d x v file
  | .password masterPassword => save o x v file masterPassword

def loadWith (file : VaultFile) : Protection → Bool × CredentialVault
  | .account => loadDpapi d v file
  | .password masterPassword => load o v file masterPassword

def sealedBlob : Protection → Option QByteArray
  | .account => (d.protect (flatten v.secrets)).map (kDpapiMagic ++ ·)
  | .password masterPassword =>
      let blob := encrypt o v masterPassword
      if blob.isEmpty then none else some blob

def Holds (file : VaultFile) (p : Protection) (secrets : QMap QString) : Prop :=
  loadWith o d ⟨.empty⟩ file p = (true, ⟨secrets⟩)

instance (file : VaultFile) (p : Protection) (secrets : QMap QString) :
    Decidable (Holds o d file p secrets) := inferInstanceAs (Decidable (_ = _))

def Persisted (opens : Bool) (written : Int) (p : Protection) : Prop :=
  ∃ blob, sealedBlob o d v p = some blob ∧ opens = true ∧ written = blob.length

theorem saveWith_eq (file : VaultFile) (p : Protection) :
    saveWith o d x v file p =
      match sealedBlob o d v p with
      | none => (false, file)
      | some blob => writeBlob x file blob := by
  cases p with
  | account =>
    simp only [saveWith, saveDpapi, sealedBlob]
    cases d.protect (flatten v.secrets) with
    | none => rfl
    | some out => rfl
  | password masterPassword =>
    simp only [saveWith, save, sealedBlob]
    split <;> rfl

theorem saved_iff (file : VaultFile) (p : Protection) :
    (saveWith o d x v file p).1 = true ↔ Persisted o d v x.opens x.written p := by
  rw [saveWith_eq, Persisted]
  cases hblob : sealedBlob o d v p with
  | none => simp
  | some blob =>
    simp only [writeBlob]
    cases x.opens with
    | false => simp
    | true => simp

theorem not_holds_truncated (p : Protection) (secrets : QMap QString) :
    ¬Holds o d (some []) p secrets := by
  intro h
  cases p with
  | account => exact absurd (congrArg Prod.fst h) Bool.false_ne_true
  | password masterPassword => exact absurd (congrArg Prod.fst h) Bool.false_ne_true

def Kept (file : VaultFile) (q p : Protection) (secrets : QMap QString) : Prop :=
  (saveWith o d x v file q).1 = false → Holds o d (saveWith o d x v file q).2 p secrets

theorem kept_iff {file : VaultFile} {p : Protection} {secrets : QMap QString}
    (hfile : Holds o d file p secrets) (opens : Bool) (written : Int) (q : Protection) :
    (∀ landed, Kept o d ⟨opens, written, landed⟩ v file q p secrets) ↔
      ∀ blob, sealedBlob o d v q = some blob → opens = true → written = blob.length := by
  constructor
  · intro h blob hblob hopens
    by_contra hne
    have hnot : ¬Persisted o d v opens written q := by
      rintro ⟨blob', hblob', -, hwritten⟩
      rw [hblob] at hblob'
      exact hne (Option.some.inj hblob' ▸ hwritten)
    have hfailed : (saveWith o d ⟨opens, written, 0⟩ v file q).1 = false :=
      Bool.eq_false_iff.mpr (mt (saved_iff o d ⟨opens, written, 0⟩ v file q).mp hnot)
    have hafter : (saveWith o d ⟨opens, written, 0⟩ v file q).2 = some [] := by
      rw [saveWith_eq, hblob, hopens]
      rfl
    have hkept := h 0 hfailed
    rw [hafter] at hkept
    exact not_holds_truncated o d p secrets hkept
  · intro h landed hfailed
    have hnot : ¬Persisted o d v opens written q :=
      mt (saved_iff o d ⟨opens, written, landed⟩ v file q).mpr (Bool.eq_false_iff.mp hfailed)
    rw [saveWith_eq]
    cases hblob : sealedBlob o d v q with
    | none => exact hfile
    | some blob =>
      cases opens with
      | false => exact hfile
      | true => exact absurd ⟨blob, hblob, rfl, h blob hblob rfl⟩ hnot

end CredentialVault

end Core
