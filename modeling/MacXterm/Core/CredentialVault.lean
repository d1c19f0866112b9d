import MacXterm.Qt.Map

namespace Core

open Qt

def kMagic : QByteArray := [0x4D, 0x58, 0x56, 0x41, 0x55, 0x4C, 0x54, 0x31]
def kSaltLen : Nat := 16
def kNonceLen : Nat := 12
def kTagLen : Nat := 16
def KdfArgon2id : UInt8 := 1
def KdfScrypt : UInt8 := 2

-- The OpenSSL calls of one operation: what RAND_bytes fills in, the key derivations the build
-- has, and AES-256-GCM.
structure OpenSsl where
  salt : Option QByteArray
  nonce : Option QByteArray
  preferredKdf : UInt8
  argon2id : QByteArray → QByteArray → Option QByteArray
  scrypt : QByteArray → QByteArray → Option QByteArray
  gcmEncrypt : QByteArray → QByteArray → QByteArray → Option (QByteArray × QByteArray)
  gcmDecrypt : QByteArray → QByteArray → QByteArray → QByteArray → Option QByteArray

structure CredentialVault where
  secrets : QMap QString
  deriving DecidableEq

namespace CredentialVault

def setSecret (v : CredentialVault) (id secret : QString) : CredentialVault :=
  ⟨v.secrets.insert id secret⟩

def secret (v : CredentialVault) (id : QString) : QString := v.secrets.value id []

def hasSecret (v : CredentialVault) (id : QString) : Bool := v.secrets.contains id

def removeSecret (v : CredentialVault) (id : QString) : CredentialVault := ⟨v.secrets.remove id⟩

def flatten (m : QMap QString) : QByteArray :=
  m.entries.flatMap fun e => toUtf8 e.1 ++ toUtf8 ['\t'] ++ toUtf8 e.2 ++ toUtf8 ['\n']

def notTab (c : Char) : Bool := c != '\t'

def insertLine (m : QMap QString) (line : QString) : QMap QString :=
  let id := line.takeWhile notTab
  match line.dropWhile notTab with
  | _ :: secret => if id ≠ [] then m.insert id secret else m
  | [] => m

def unflatten (data : QByteArray) : QMap QString :=
  let lines := ((fromUtf8 data).splitOn '\n').filter (· ≠ [])
  lines.foldl insertLine .empty

def deriveKey (o : OpenSsl) (password : QString) (salt : QByteArray) (kdfId : UInt8) :
    Option QByteArray :=
  if kdfId = KdfArgon2id then o.argon2id (toUtf8 password) salt
  else if kdfId = KdfScrypt then o.scrypt (toUtf8 password) salt
  else none

def encrypt (o : OpenSsl) (v : CredentialVault) (masterPassword : QString) : QByteArray :=
  match o.salt, o.nonce with
  | some salt, some nonce =>
      match deriveKey o masterPassword salt o.preferredKdf with
      | none => []
      | some key =>
          match o.gcmEncrypt key nonce (flatten v.secrets) with
          | none => []
          | some (cipher, tag) => kMagic ++ [o.preferredKdf] ++ salt ++ nonce ++ tag ++ cipher
  | _, _ => []

def mid (b : QByteArray) (off n : Nat) : QByteArray := (b.drop off).take n

def decrypt (o : OpenSsl) (v : CredentialVault) (blob : QByteArray) (masterPassword : QString) :
    Bool × CredentialVault :=
  let header := kMagic.length + 1 + kSaltLen + kNonceLen + kTagLen
  if blob.length < header then (false, v)
  else if blob.take kMagic.length ≠ kMagic then (false, v)
  else
    let off := kMagic.length
    let kdfId := blob.getD off 0
    let off := off + 1
    let salt := mid blob off kSaltLen
    let off := off + kSaltLen
    let nonce := mid blob off kNonceLen
    let off := off + kNonceLen
    let tag := mid blob off kTagLen
    let off := off + kTagLen
    let cipher := blob.drop off
    match deriveKey o masterPassword salt kdfId with
    | none => (false, v)
    | some key =>
        match o.gcmDecrypt key nonce tag cipher with
        | none => (false, v)
        | some plain => (true, ⟨unflatten plain⟩)

end CredentialVault

end Core
