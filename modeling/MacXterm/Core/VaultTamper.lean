import MacXterm.Core.VaultFile
import MacXterm.Lib.GuardedRead

namespace Core

open Qt

def kKeyLen : Nat := 32

inductive EvpCall where
  | decryptInit
  | setIvLen (n : Nat)
  | setKey (key nonce : QByteArray)
  | decryptUpdate (input : QByteArray) (inl : Int)
  | setTag (tag : QByteArray)
  | decryptFinal

-- OpenSSL's side of one EVP_CIPHER_CTX: what the last of these calls returns, and the bytes it
-- puts into its output buffer.
structure Evp where
  ctxNew : Bool
  ret : List EvpCall → Int32
  out : List EvpCall → QByteArray

-- An abstract AES-256-GCM: key, nonce, tag and text.
abbrev TagCheck := QByteArray → QByteArray → QByteArray → QByteArray → Prop

namespace Evp

def session (key nonce tag : QByteArray) (updates : List (QByteArray × Int)) : List EvpCall :=
  [.decryptInit, .setIvLen kNonceLen, .setKey key nonce] ++
    updates.map (fun u => .decryptUpdate u.1 u.2) ++ [.setTag tag]

structure Documented (e : Evp) (verifies : TagCheck) : Prop where
  codes : ∀ calls, e.ret calls = 0 ∨ e.ret calls = 1
  final : ∀ key nonce tag (updates : List (QByteArray × Int)),
    (∀ u ∈ updates, 0 ≤ u.2 ∧ u.2 ≤ u.1.length) →
      (∀ calls, calls ≠ [] → calls <+: session key nonce tag updates → e.ret calls = 1) →
        e.ret (session key nonce tag updates ++ [.decryptFinal]) = 1 →
          verifies key nonce tag (updates.flatMap fun u => u.1.take u.2.toNat)

-- The variable ok after these calls.
def status (e : Evp) : List EvpCall → List EvpCall → Int32 → Int32
  | _, [], ok => ok
  | before, c :: calls, ok => status e (before ++ [c]) calls (ok &&& e.ret (before ++ [c]))

-- cipher.size() is passed as an int.
def updates (cipher : QByteArray) : List (QByteArray × Int) :=
  if cipher = [] then [] else [(cipher, int32 cipher.length)]

def gcmDecrypt (e : Evp) (key nonce tag cipher : QByteArray) : Option QByteArray :=
  if e.ctxNew = false then none
  else
    let calls := session key nonce tag (updates cipher)
    let ok := e.status [] calls 1
    let verified := e.ret (calls ++ [.decryptFinal])
    if ok = 0 ∨ verified ≠ 1 then none
    else
      let text := e.out calls.dropLast
      some (if cipher = [] then [] else text ++ (List.replicate cipher.length 0).drop text.length)

def within (e : Evp) (o : OpenSsl) : OpenSsl := { o with gcmDecrypt := e.gcmDecrypt }

end Evp

namespace CredentialVault

def header : Nat := kMagic.length + 1 + kSaltLen + kNonceLen + kTagLen

def kdfOf (blob : QByteArray) : UInt8 := blob.getD kMagic.length 0

def saltOf (blob : QByteArray) : QByteArray := mid blob (kMagic.length + 1) kSaltLen

def nonceOf (blob : QByteArray) : QByteArray := mid blob (kMagic.length + 1 + kSaltLen) kNonceLen

def tagOf (blob : QByteArray) : QByteArray :=
  mid blob (kMagic.length + 1 + kSaltLen + kNonceLen) kTagLen

def cipherOf (blob : QByteArray) : QByteArray := blob.drop header

def reads (size : Nat) (n : Int) : List Access :=
  .request n :: (List.range n.toNat).map fun (i : Nat) => .read i size

def writes (size : Nat) (n : Int) : List Access :=
  .request n :: (List.range n.toNat).map fun (i : Nat) => .write i size

-- The accesses of decrypt to memory behind plain pointers.
def accesses (o : OpenSsl) (e : Evp) (blob : QByteArray) (masterPassword : QString) :
    List Access :=
  if blob.length < header then []
  else
    reads blob.length kMagic.length ++
      if blob.take kMagic.length ≠ kMagic then []
      else
        .read kMagic.length blob.length ::
          match deriveKey o masterPassword (saltOf blob) (kdfOf blob) with
          | none => []
          | some _ =>
              if e.ctxNew = false then []
              else
                reads kKeyLen kKeyLen ++ reads (nonceOf blob).length kNonceLen ++
                  ((Evp.updates (cipherOf blob)).flatMap fun u =>
                    reads u.1.length u.2 ++ writes u.1.length u.2) ++
                  reads (tagOf blob).length kTagLen

structure Genuine (o : OpenSsl) (verifies : TagCheck) (blob : QByteArray)
    (masterPassword : QString) : Prop where
  long : header ≤ blob.length
  magic : blob.take kMagic.length = kMagic
  tag : ∃ key, deriveKey o masterPassword (saltOf blob) (kdfOf blob) = some key ∧
    verifies key (nonceOf blob) (tagOf blob) (cipherOf blob)

def Intact (v : CredentialVault) (genuine : Prop) (r : Bool × CredentialVault) : Prop :=
  (r.1 = true → genuine) ∧ (r.1 = false → r.2 = v)

structure Guarded (o : OpenSsl) (e : Evp) (verifies : TagCheck) (v : CredentialVault)
    (blob : QByteArray) (masterPassword : QString) : Prop where
  decrypt : Intact v (Genuine o verifies blob masterPassword)
    (decrypt (e.within o) v blob masterPassword)
  load : Intact v (Genuine o verifies blob masterPassword)
    (load (e.within o) v (some blob) masterPassword)
  unreadable : Intact v False (CredentialVault.load (e.within o) v none masterPassword)
  memory : ∀ a ∈ accesses o e blob masterPassword, a.Safe

section Reading

variable {o : OpenSsl} {e : Evp} {verifies : TagCheck} {v : CredentialVault} {blob : QByteArray}
  {pw : QString}

theorem length_cipherOf : (cipherOf blob).length = blob.length - header := List.length_drop

theorem status_of_zero (before calls : List EvpCall) : e.status before calls 0 = 0 := by
  induction calls generalizing before with
  | nil => rfl
  | cons c calls ih =>
    have hzero : (0 : Int32) &&& e.ret (before ++ [c]) = 0 := Int32.zero_and
    rw [Evp.status, hzero]
    exact ih _

theorem rets_of_status (he : ∀ calls, e.ret calls = 0 ∨ e.ret calls = 1)
    {before calls : List EvpCall} (h : e.status before calls 1 ≠ 0) :
    ∀ first, first ≠ [] → first <+: calls → e.ret (before ++ first) = 1 := by
  induction calls generalizing before with
  | nil =>
    intro first hne hstart
    exact absurd (List.prefix_nil.mp hstart) hne
  | cons c calls ih =>
    rw [Evp.status] at h
    rcases he (before ++ [c]) with hret | hret
    · rw [hret] at h
      exact absurd (status_of_zero _ _) h
    · have hone : (1 : Int32) &&& 1 = 1 := by decide
      rw [hret, hone] at h
      intro first hne hstart
      obtain ⟨d, first, rfl⟩ := List.exists_cons_of_ne_nil hne
      obtain ⟨rfl, hmore⟩ := List.cons_prefix_cons.mp hstart
      cases first with
      | nil => exact hret
      | cons d' first =>
        have hrest := ih h (d' :: first) (List.cons_ne_nil _ _) hmore
        rw [List.append_assoc] at hrest
        exact hrest

theorem flatMap_updates {cipher : QByteArray} (h : cipher.length < 2 ^ 31) :
    (∀ u ∈ Evp.updates cipher, 0 ≤ u.2 ∧ u.2 ≤ u.1.length) ∧
      ((Evp.updates cipher).flatMap fun u => u.1.take u.2.toNat) = cipher := by
  have hint : int32 cipher.length = cipher.length := by
    rw [int32_eq] <;> omega
  rw [Evp.updates, hint]
  split
  · rename_i hnil
    exact ⟨nofun, hnil.symm⟩
  · refine ⟨fun u hu => ?_, ?_⟩
    · obtain rfl := List.mem_singleton.mp hu
      exact ⟨Int.natCast_nonneg _, Int.le_refl _⟩
    · simp

theorem verifies_of_gcmDecrypt (he : e.Documented verifies)
    {key nonce tag cipher plain : QByteArray}
    (hlength : cipher.length < 2 ^ 31) (h : e.gcmDecrypt key nonce tag cipher = some plain) :
    verifies key nonce tag cipher := by
  obtain ⟨hupdates, hfed⟩ := flatMap_updates hlength
  rw [Evp.gcmDecrypt] at h
  split at h
  · cases h
  · dsimp only at h
    split at h
    · cases h
    · rename_i hok
      rw [not_or, not_not] at hok
      have hfinal := he.final key nonce tag _ hupdates
        (fun calls hne hstart => rets_of_status he.codes hok.1 calls hne hstart) hok.2
      rwa [hfed] at hfinal

theorem decrypt_eq (o : OpenSsl) (e : Evp) (v : CredentialVault) (blob : QByteArray)
    (pw : QString) :
    decrypt (e.within o) v blob pw =
      if blob.length < header then (false, v)
      else if blob.take kMagic.length ≠ kMagic then (false, v)
      else
        match deriveKey o pw (saltOf blob) (kdfOf blob) with
        | none => (false, v)
        | some key =>
            match e.gcmDecrypt key (nonceOf blob) (tagOf blob) (cipherOf blob) with
            | none => (false, v)
            | some plain => (true, ⟨unflatten plain⟩) := rfl

theorem decrypt_cases (o : OpenSsl) (e : Evp) (v : CredentialVault) (blob : QByteArray)
    (pw : QString) :
    decrypt (e.within o) v blob pw = (false, v) ∨
      header ≤ blob.length ∧ blob.take kMagic.length = kMagic ∧
        ∃ key plain, deriveKey o pw (saltOf blob) (kdfOf blob) = some key ∧
          e.gcmDecrypt key (nonceOf blob) (tagOf blob) (cipherOf blob) = some plain ∧
          decrypt (e.within o) v blob pw = (true, ⟨unflatten plain⟩) := by
  rw [decrypt_eq]
  split
  · exact .inl rfl
  · rename_i hlong
    split
    · exact .inl rfl
    · rename_i hmagic
      cases hkey : deriveKey o pw (saltOf blob) (kdfOf blob) with
      | none => exact .inl rfl
      | some key =>
        dsimp only
        cases hgcm : e.gcmDecrypt key (nonceOf blob) (tagOf blob) (cipherOf blob) with
        | none => exact .inl rfl
        | some plain =>
          exact .inr ⟨Nat.le_of_not_lt hlong, not_not.mp hmagic, key, plain, rfl, hgcm, rfl⟩

theorem intact_decrypt (he : e.Documented verifies) (h : blob.length < header + 2 ^ 31) :
    Intact v (Genuine o verifies blob pw) (decrypt (e.within o) v blob pw) := by
  have hcipher : (cipherOf blob).length < 2 ^ 31 := by
    rw [length_cipherOf]
    omega
  rcases decrypt_cases o e v blob pw with hfalse | ⟨hlong, hmagic, key, plain, hkey, hgcm, htrue⟩
  · rw [hfalse]
    exact ⟨nofun, fun _ => rfl⟩
  · rw [htrue]
    exact ⟨fun _ => ⟨hlong, hmagic, key, hkey, verifies_of_gcmDecrypt he hcipher hgcm⟩, nofun⟩

theorem safe_reads {size : Nat} {n : Int} (h : 0 ≤ n) (hsize : n ≤ size) :
    (∀ a ∈ reads size n, a.Safe) ∧ ∀ a ∈ writes size n, a.Safe := by
  have hregion : ∀ i ∈ List.range n.toNat, (0 : Int) ≤ i ∧ (i : Int) < size := by
    intro i hi
    have hlt := List.mem_range.mp hi
    omega
  refine ⟨List.forall_mem_cons.mpr ⟨h, ?_⟩, List.forall_mem_cons.mpr ⟨h, ?_⟩⟩
  · intro a ha
    obtain ⟨i, hi, rfl⟩ := List.mem_map.mp ha
    exact hregion i hi
  · intro a ha
    obtain ⟨i, hi, rfl⟩ := List.mem_map.mp ha
    exact hregion i hi

theorem length_mid {off n : Nat} (h : off + n ≤ blob.length) : (mid blob off n).length = n := by
  rw [mid, List.length_take, List.length_drop]
  omega

theorem safe_accesses (h : blob.length < header + 2 ^ 31) :
    ∀ a ∈ accesses o e blob pw, a.Safe := by
  have hcipher : (cipherOf blob).length < 2 ^ 31 := by
    rw [length_cipherOf]
    omega
  rw [accesses]
  split
  · exact nofun
  · rename_i hlong
    have hheader : header = 53 := rfl
    have hmagic : kMagic.length = 8 := rfl
    have hnonce : (nonceOf blob).length = kNonceLen :=
      length_mid (by simp only [kSaltLen, kNonceLen, hmagic]; omega)
    have htag : (tagOf blob).length = kTagLen :=
      length_mid (by simp only [kSaltLen, kNonceLen, kTagLen, hmagic]; omega)
    rw [List.forall_mem_append]
    refine ⟨(safe_reads (Int.natCast_nonneg _) (by omega)).1, ?_⟩
    split
    · exact nofun
    · rw [List.forall_mem_cons]
      refine ⟨⟨Int.natCast_nonneg _, by omega⟩, ?_⟩
      cases deriveKey o pw (saltOf blob) (kdfOf blob) with
      | none => exact nofun
      | some key =>
        dsimp only
        split
        · exact nofun
        · rw [List.forall_mem_append, List.forall_mem_append, List.forall_mem_append, hnonce, htag]
          refine ⟨⟨⟨?_, ?_⟩, ?_⟩, ?_⟩
          · exact (safe_reads (by decide) (by decide)).1
          · exact (safe_reads (by decide) (by decide)).1
          · intro a ha
            obtain ⟨u, hu, ha⟩ := List.mem_flatMap.mp ha
            obtain ⟨hnonneg, hle⟩ := (flatMap_updates hcipher).1 u hu
            rcases List.mem_append.mp ha with ha | ha
            · exact (safe_reads hnonneg hle).1 a ha
            · exact (safe_reads hnonneg hle).2 a ha
          · exact (safe_reads (by decide) (by decide)).1

theorem guarded_of_short (he : e.Documented verifies) (h : blob.length < header + 2 ^ 31) :
    Guarded o e verifies v blob pw where
  decrypt := intact_decrypt he h
  load := intact_decrypt he h
  unreadable := ⟨nofun, fun _ => rfl⟩
  memory := safe_accesses h

end Reading

-- A library that verifies every text of less than 2 ^ 31 bytes and no other.
def shortTexts : TagCheck := fun _ _ _ text => text.length < 2 ^ 31

def fed (calls : List EvpCall) : QByteArray :=
  calls.flatMap fun
    | .decryptUpdate input inl => input.take inl.toNat
    | _ => []

def shortEvp : Evp where
  ctxNew := true
  ret calls := if (fed calls).length < 2 ^ 31 then 1 else 0
  out := fed

def oneKey : OpenSsl where
  salt := none
  nonce := none
  preferredKdf := KdfScrypt
  argon2id _ _ := none
  scrypt _ _ := some (List.replicate kKeyLen 0)
  gcmEncrypt _ _ _ := none
  gcmDecrypt _ _ _ _ := none

theorem fed_session (key nonce tag : QByteArray) (updates : List (QByteArray × Int)) :
    fed (Evp.session key nonce tag updates ++ [.decryptFinal]) =
      updates.flatMap fun u => u.1.take u.2.toNat := by
  simp [fed, Evp.session, List.flatMap_append, List.flatMap_map]

theorem shortEvp_documented : shortEvp.Documented shortTexts where
  codes calls := by
    rw [shortEvp]
    dsimp only
    split
    · exact .inr rfl
    · exact .inl rfl
  final key nonce tag updates _ _ h := by
    rw [shortEvp] at h
    dsimp only at h
    rw [fed_session] at h
    split at h
    · assumption
    · exact absurd h (by decide)

def longBlob (n : Nat) : QByteArray :=
  kMagic ++ KdfScrypt :: List.replicate (n - (kMagic.length + 1)) 0

theorem status_of_rets {e : Evp} {before calls : List EvpCall}
    (h : ∀ first, first ≠ [] → first <+: calls → e.ret (before ++ first) = 1) :
    e.status before calls 1 = 1 := by
  induction calls generalizing before with
  | nil => rfl
  | cons c calls ih =>
    have hone : (1 : Int32) &&& 1 = 1 := by decide
    rw [Evp.status, h [c] (List.cons_ne_nil _ _) ⟨calls, rfl⟩, hone]
    refine ih fun first hne hstart => ?_
    have hmore := h (c :: first) (List.cons_ne_nil _ _) (List.cons_prefix_cons.mpr ⟨rfl, hstart⟩)
    rwa [List.append_assoc]

theorem shortEvp_accepts (key nonce tag cipher : QByteArray) :
    ∃ plain, shortEvp.gcmDecrypt key nonce tag cipher = some plain := by
  have hshort : (fed (Evp.session key nonce tag (Evp.updates cipher) ++ [.decryptFinal])).length <
      2 ^ 31 := by
    rw [fed_session, Evp.updates]
    split
    · decide
    · have hlt := int32_lt cipher.length
      rw [List.flatMap_singleton, List.length_take]
      dsimp only
      omega
  have hret (calls : List EvpCall)
      (h : calls <+: Evp.session key nonce tag (Evp.updates cipher) ++ [.decryptFinal]) :
      shortEvp.ret calls = 1 := by
    obtain ⟨more, hmore⟩ := h
    rw [← hmore, fed, List.flatMap_append, List.length_append] at hshort
    exact if_pos (Nat.lt_of_le_of_lt (Nat.le_add_right _ _) hshort)
  have hstatus : shortEvp.status [] (Evp.session key nonce tag (Evp.updates cipher)) 1 = 1 :=
    status_of_rets fun first _ hstart => hret first (hstart.trans (List.prefix_append _ _))
  rw [Evp.gcmDecrypt, if_neg (by decide)]
  dsimp only
  rw [hstatus, hret _ (List.prefix_refl _), if_neg (by decide)]
  exact ⟨_, rfl⟩

theorem guarded_fails {n : Nat} (h : header + 2 ^ 31 ≤ n) (v : CredentialVault) (pw : QString) :
    (longBlob n).length = n ∧ ¬ Guarded oneKey shortEvp shortTexts v (longBlob n) pw := by
  have hheader : header = 53 := rfl
  have hlength : (longBlob n).length = n := by
    have hmagic : kMagic.length = 8 := rfl
    rw [longBlob, List.length_append, List.length_cons, List.length_replicate, hmagic]
    omega
  refine ⟨hlength, fun hguarded => ?_⟩
  have hmagic : (longBlob n).take kMagic.length = kMagic := List.take_left
  have hkey : deriveKey oneKey pw (saltOf (longBlob n)) (kdfOf (longBlob n)) =
      some (List.replicate kKeyLen 0) := rfl
  obtain ⟨plain, hplain⟩ := shortEvp_accepts (List.replicate kKeyLen 0) (nonceOf (longBlob n))
    (tagOf (longBlob n)) (cipherOf (longBlob n))
  have htrue : (decrypt (shortEvp.within oneKey) v (longBlob n) pw).1 = true := by
    rw [decrypt_eq, if_neg (by omega), if_neg (not_not_intro hmagic), hkey]
    dsimp only
    rw [hplain]
  obtain ⟨key, -, hverifies⟩ := (hguarded.decrypt.1 htrue).tag
  have hshort : (cipherOf (longBlob n)).length < 2 ^ 31 := hverifies
  rw [length_cipherOf, hlength] at hshort
  omega

end CredentialVault

end Core
