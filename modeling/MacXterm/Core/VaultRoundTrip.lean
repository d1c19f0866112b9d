import Mathlib.Data.List.TakeWhile
import MacXterm.Core.CredentialVault

namespace Core.CredentialVault

open Qt

structure OpenSslWorks (o : OpenSsl) : Prop where
  salt : ∃ salt, o.salt = some salt ∧ salt.length = kSaltLen
  nonce : ∃ nonce, o.nonce = some nonce ∧ nonce.length = kNonceLen
  deriveKey : ∀ password salt, ∃ key, deriveKey o password salt o.preferredKdf = some key
  gcm : ∀ key nonce plain, ∃ cipher tag, o.gcmEncrypt key nonce plain = some (cipher, tag) ∧
    tag.length = kTagLen ∧ o.gcmDecrypt key nonce tag cipher = some plain

theorem mid_append (a b c : QByteArray) : mid (a ++ (b ++ c)) a.length b.length = b := by
  rw [mid, List.drop_left, List.take_left]

def layout (kdfId : UInt8) (salt nonce tag cipher : QByteArray) : QByteArray :=
  kMagic ++ ([kdfId] ++ (salt ++ (nonce ++ (tag ++ cipher))))

section Layout

variable {kdfId : UInt8} {salt nonce tag cipher : QByteArray} (hs : salt.length = kSaltLen)
  (hn : nonce.length = kNonceLen) (ht : tag.length = kTagLen)

include hs in
theorem layout_salt : mid (layout kdfId salt nonce tag cipher) 9 kSaltLen = salt := by
  rw [← hs]
  exact mid_append (kMagic ++ [kdfId]) salt (nonce ++ (tag ++ cipher))

include hs hn in
theorem layout_nonce : mid (layout kdfId salt nonce tag cipher) 25 kNonceLen = nonce := by
  have h := mid_append (kMagic ++ ([kdfId] ++ salt)) nonce (tag ++ cipher)
  rw [hn] at h
  simpa [layout, kMagic, hs, kSaltLen] using h

include hs hn ht in
theorem layout_tag : mid (layout kdfId salt nonce tag cipher) 37 kTagLen = tag := by
  have h := mid_append (kMagic ++ ([kdfId] ++ (salt ++ nonce))) tag cipher
  rw [ht] at h
  simpa [layout, kMagic, hs, hn, kSaltLen, kNonceLen] using h

include hs hn ht in
theorem layout_cipher : (layout kdfId salt nonce tag cipher).drop 53 = cipher := by
  have h : (kMagic ++ ([kdfId] ++ (salt ++ (nonce ++ tag))) ++ cipher).drop
      (kMagic ++ ([kdfId] ++ (salt ++ (nonce ++ tag)))).length = cipher := List.drop_left
  simpa [layout, kMagic, hs, hn, ht, kSaltLen, kNonceLen, kTagLen] using h

include hs hn ht in
theorem layout_length : ¬ (layout kdfId salt nonce tag cipher).length < 53 := by
  simp only [layout, List.length_append, hs, hn, ht, kMagic, kSaltLen, kNonceLen, kTagLen,
    List.length_cons, List.length_nil]
  omega

include hs hn ht in
theorem decrypt_layout {o : OpenSsl} {password : QString} {key plain : QByteArray}
    (w : CredentialVault) (hkey : deriveKey o password salt kdfId = some key)
    (hdec : o.gcmDecrypt key nonce tag cipher = some plain) :
    decrypt o w (layout kdfId salt nonce tag cipher) password = (true, ⟨unflatten plain⟩) := by
  have hmagic : ¬ (layout kdfId salt nonce tag cipher).take kMagic.length ≠ kMagic :=
    not_not_intro rfl
  unfold decrypt
  extract_lets header off kdf off1 salt' off2 nonce' off3 tag' off4 cipher'
  have hlen : ¬ (layout kdfId salt nonce tag cipher).length < header := layout_length hs hn ht
  have hsalt : salt' = salt := layout_salt hs
  have hnonce : nonce' = nonce := layout_nonce hs hn
  have htag : tag' = tag := layout_tag hs hn ht
  have hcipher : cipher' = cipher := layout_cipher hs hn ht
  have hkdf : kdf = kdfId := rfl
  rw [if_neg hlen, if_neg hmagic]
  simp only [hsalt, hnonce, htag, hcipher, hkdf, hkey, hdec]

end Layout

theorem decrypt_encrypt {o : OpenSsl} (ho : OpenSslWorks o) (v w : CredentialVault)
    (password : QString) :
    decrypt o w (encrypt o v password) password = (true, ⟨unflatten (flatten v.secrets)⟩) := by
  obtain ⟨salt, hsalt, hsl⟩ := ho.salt
  obtain ⟨nonce, hnonce, hnl⟩ := ho.nonce
  obtain ⟨key, hkey⟩ := ho.deriveKey password salt
  obtain ⟨cipher, tag, henc, htl, hdec⟩ := ho.gcm key nonce (flatten v.secrets)
  have hblob : encrypt o v password = layout o.preferredKdf salt nonce tag cipher := by
    simp only [encrypt, hsalt, hnonce, hkey, henc, List.append_assoc, layout]
  rw [hblob]
  exact decrypt_layout hsl hnl htl w hkey hdec

def record (e : QString × QString) : QString := e.1 ++ '\t' :: e.2

def text (es : List (QString × QString)) : QString := es.flatMap fun e => record e ++ ['\n']

theorem flatten_text (m : QMap QString) : flatten m = toUtf8 (text m.entries) := by
  simp only [flatten, text]
  induction m.entries with
  | nil => rfl
  | cons e es ih =>
    rw [List.flatMap_cons, List.flatMap_cons, toUtf8_append, ih]
    simp only [record, ← toUtf8_append, List.append_assoc, List.cons_append, List.nil_append]

def dropFirstBom : List (QString × QString) → List (QString × QString)
  | [] => []
  | e :: es => (dropBom e.1, e.2) :: es

theorem dropBom_text (es : List (QString × QString)) : dropBom (text es) = text (dropFirstBom es) := by
  cases es with
  | nil => rfl
  | cons e es =>
    obtain ⟨k, v⟩ := e
    cases k with
    | nil => rfl
    | cons c k =>
      by_cases hc : c = '\uFEFF'
      · subst hc
        rfl
      · have hd : dropBom (c :: k) = c :: k := by simp [dropBom, hc]
        simp only [dropFirstBom, hd]
        simp [text, record, dropBom, hc]

theorem unflatten_flatten (m : QMap QString) :
    unflatten (flatten m) =
      (((text (dropFirstBom m.entries)).splitOn '\n').filter (· ≠ [])).foldl insertLine .empty := by
  rw [unflatten, flatten_text, fromUtf8_toUtf8, dropBom_text]

def parseLine (line : QString) : Option (QString × QString) :=
  match line.dropWhile notTab with
  | _ :: secret => if line.takeWhile notTab ≠ [] then some (line.takeWhile notTab, secret)
      else none
  | [] => none

theorem insertLine_eq (m : QMap QString) (line : QString) :
    insertLine m line = (parseLine line).elim m fun e => m.insert e.1 e.2 := by
  simp only [insertLine, parseLine]
  cases line.dropWhile notTab with
  | nil => rfl
  | cons c secret => by_cases h : line.takeWhile notTab ≠ [] <;> simp [h]

theorem foldl_insertLine (lines : List QString) (m : QMap QString) :
    lines.foldl insertLine m =
      (lines.filterMap parseLine).foldl (fun m e => m.insert e.1 e.2) m := by
  induction lines generalizing m with
  | nil => rfl
  | cons line lines ih =>
    rw [List.foldl_cons, insertLine_eq, List.filterMap_cons]
    cases parseLine line with
    | none => exact ih m
    | some e => exact ih _

theorem mem_parseLine {line : QString} {e : QString × QString} (h : parseLine line = some e) :
    e.1 ≠ [] ∧ '\t' ∉ e.1 ∧ line = record e := by
  have happ := List.takeWhile_append_dropWhile (p := notTab) (l := line)
  simp only [parseLine] at h
  split at h
  · rename_i c secret hd
    split at h
    · rename_i hne
      obtain rfl := Option.some.inj h
      have hc : c = '\t' := by
        have := List.head?_dropWhile_not notTab line
        rw [hd] at this
        simpa [notTab] using this
      rw [hd, hc] at happ
      refine ⟨hne, fun hmem => ?_, happ.symm⟩
      simpa [notTab] using List.mem_takeWhile_imp hmem
    · exact absurd h (by simp)
  · exact absurd h (by simp)

theorem parseLine_record {e : QString × QString} (hne : e.1 ≠ []) (ht : '\t' ∉ e.1) :
    parseLine (record e) = some e := by
  have hall : ∀ c ∈ e.1, notTab c = true := by
    intro c hc
    have hne : c ≠ '\t' := fun heq => ht (heq ▸ hc)
    simp [notTab, hne]
  have htake : (record e).takeWhile notTab = e.1 := by
    rw [record, List.takeWhile_append_of_pos hall]
    simp [notTab]
  have hdrop : (record e).dropWhile notTab = '\t' :: e.2 := by
    rw [record, List.dropWhile_append_of_pos hall]
    simp [notTab]
  simp [parseLine, htake, hdrop, hne]

theorem lines_text (es : List (QString × QString))
    (h : ∀ e ∈ es, '\n' ∉ e.1 ∧ '\n' ∉ e.2) :
    ((text es).splitOn '\n').filter (· ≠ []) = es.map record := by
  induction es with
  | nil => rfl
  | cons e es ih =>
    have he : ∀ c ∈ record e, (c == '\n') = false := by
      intro c hc
      obtain ⟨h1, h2⟩ := h e List.mem_cons_self
      rcases List.mem_append.mp hc with hc | hc
      · exact beq_false_of_ne fun heq => h1 (heq ▸ hc)
      · rcases List.mem_cons.mp hc with rfl | hc
        · rfl
        · exact beq_false_of_ne fun heq => h2 (heq ▸ hc)
    have hsplit : (text (e :: es)).splitOn '\n' = record e :: (text es).splitOn '\n' := by
      have htext : text (e :: es) = record e ++ '\n' :: text es := by simp [text]
      rw [htext, List.splitOn_eq_splitOnP, List.splitOn_eq_splitOnP]
      exact List.splitOnP_append_cons_of_forall_mem he '\n' rfl _
    have hne : record e ≠ [] := by simp [record]
    rw [hsplit, List.filter_cons_of_pos (by simpa using hne), List.map_cons,
      ih fun d hd => h d (List.mem_cons_of_mem _ hd)]

def Storable (m : QMap QString) : Prop :=
  (∀ e ∈ m.entries, e.1 ≠ [] ∧ '\t' ∉ e.1 ∧ '\n' ∉ e.1 ∧ '\n' ∉ e.2) ∧
    ∀ e ∈ m.entries.head?, e.1.head? ≠ some '\uFEFF'

instance (m : QMap QString) : Decidable (Storable m) :=
  inferInstanceAs (Decidable ((∀ e ∈ m.entries, _ ∧ _ ∧ _ ∧ _) ∧ ∀ e ∈ m.entries.head?, _))

theorem mem_foldl_insert {es : List (QString × QString)} {m : QMap QString} {e : QString × QString}
    (h : e ∈ (es.foldl (fun m e => m.insert e.1 e.2) m).entries) : e ∈ m.entries ∨ e ∈ es := by
  induction es generalizing m with
  | nil => exact .inl h
  | cons d es ih =>
    rcases ih h with h | h
    · rcases QMap.mem_insertEntry h with rfl | h
      · exact .inr List.mem_cons_self
      · exact .inl h
    · exact .inr (List.mem_cons_of_mem _ h)

theorem parsed_of_mem {m : QMap QString} {e : QString × QString}
    (h : e ∈ (unflatten (flatten m)).entries) :
    ∃ line ∈ (text (dropFirstBom m.entries)).splitOn '\n', parseLine line = some e := by
  rw [unflatten_flatten, foldl_insertLine] at h
  rcases mem_foldl_insert h with h | h
  · exact absurd h (by simp [QMap.empty])
  · obtain ⟨line, hl, hp⟩ := List.mem_filterMap.mp h
    exact ⟨line, List.mem_of_mem_filter hl, hp⟩

theorem fields_of_unflatten {m : QMap QString} (h : unflatten (flatten m) = m) :
    ∀ e ∈ m.entries, e.1 ≠ [] ∧ '\t' ∉ e.1 ∧ '\n' ∉ e.1 ∧ '\n' ∉ e.2 := by
  intro e he
  rw [← h] at he
  obtain ⟨line, hl, hp⟩ := parsed_of_mem he
  obtain ⟨hne, ht, rfl⟩ := mem_parseLine hp
  have hn := not_mem_splitOn '\n' _ _ hl
  simp only [record, List.mem_append, List.mem_cons, not_or] at hn
  exact ⟨hne, ht, hn.1, hn.2.2⟩

theorem no_bom_of_unflatten {m : QMap QString} (h : unflatten (flatten m) = m) :
    ∀ e ∈ m.entries.head?, e.1.head? ≠ some '\uFEFF' := by
  intro e he hbom
  have hf := fields_of_unflatten h
  obtain ⟨es, hes⟩ : ∃ es, m.entries = e :: es := List.head?_eq_some_iff.mp he
  obtain ⟨k, hk⟩ : ∃ k, e.1 = '\uFEFF' :: k := List.head?_eq_some_iff.mp hbom
  have hsorted := m.sorted
  have hmem : e ∈ (unflatten (flatten m)).entries := by
    rw [h, hes]
    exact List.mem_cons_self
  rw [hes] at hf hsorted
  have hfirst : dropFirstBom (e :: es) = (k, e.2) :: es := by rw [dropFirstBom, hk]; rfl
  have hnl : ∀ d ∈ (k, e.2) :: es, '\n' ∉ d.1 ∧ '\n' ∉ d.2 := by
    intro d hd
    rcases List.mem_cons.mp hd with rfl | hd
    · obtain ⟨_, _, h1, h2⟩ := hf e List.mem_cons_self
      rw [hk] at h1
      exact ⟨fun hn => h1 (List.mem_cons_of_mem _ hn), h2⟩
    · exact (hf d (List.mem_cons_of_mem _ hd)).2.2
  rw [unflatten_flatten, foldl_insertLine, hes, hfirst, lines_text _ hnl] at hmem
  rcases mem_foldl_insert hmem with hmem | hmem
  · exact absurd hmem (by simp [QMap.empty])
  · obtain ⟨line, hl, hp⟩ := List.mem_filterMap.mp hmem
    obtain ⟨d, hd, rfl⟩ := List.mem_map.mp hl
    rcases List.mem_cons.mp hd with rfl | htail
    · have hlen := congrArg List.length (mem_parseLine hp).2.2
      simp [record, hk] at hlen
    · obtain ⟨hne, ht, _⟩ := hf d (List.mem_cons_of_mem _ htail)
      rw [parseLine_record hne ht, Option.some.injEq] at hp
      subst hp
      exact lt_irrefl _ ((List.pairwise_cons.mp hsorted).1 d htail)

theorem unflatten_flatten_iff (m : QMap QString) : unflatten (flatten m) = m ↔ Storable m := by
  constructor
  · intro h
    exact ⟨fields_of_unflatten h, no_bom_of_unflatten h⟩
  · rintro ⟨hf, hbom⟩
    have hfirst : dropFirstBom m.entries = m.entries := by
      cases hm : m.entries with
      | nil => rfl
      | cons e es =>
        have he : e.1.head? ≠ some '\uFEFF' := hbom e (by rw [hm]; rfl)
        have hd : dropBom e.1 = e.1 := by
          unfold dropBom
          split
          · rename_i hk
            rw [hk] at he
            exact absurd rfl he
          · rfl
        rw [dropFirstBom, hd]
    have hparse : (m.entries.map record).filterMap parseLine = m.entries := by
      rw [List.filterMap_map]
      calc m.entries.filterMap (parseLine ∘ record)
          = m.entries.filterMap some :=
            List.filterMap_congr fun e he => parseLine_record (hf e he).1 (hf e he).2.1
        _ = m.entries := List.filterMap_some
    rw [unflatten_flatten, hfirst, lines_text _ fun e he => (hf e he).2.2, foldl_insertLine, hparse]
    exact QMap.ofList_entries m

def keystream (key nonce : QByteArray) : UInt8 := (key ++ nonce).foldl (· + ·) 0x5A

def mac (key nonce plain : QByteArray) : QByteArray :=
  List.replicate kTagLen ((key ++ nonce ++ plain).foldl (fun a b => a * 31 + b) 7)

def toyOpenSsl : OpenSsl where
  salt := some (List.replicate kSaltLen 1)
  nonce := some (List.replicate kNonceLen 2)
  preferredKdf := KdfScrypt
  argon2id _ _ := none
  scrypt password salt := some (password ++ salt)
  gcmEncrypt key nonce plain := some (plain.map (· ^^^ keystream key nonce), mac key nonce plain)
  gcmDecrypt key nonce tag cipher :=
    let plain := cipher.map (· ^^^ keystream key nonce)
    if mac key nonce plain = tag then some plain else none

theorem toyOpenSsl_works : OpenSslWorks toyOpenSsl where
  salt := ⟨_, rfl, rfl⟩
  nonce := ⟨_, rfl, rfl⟩
  deriveKey _ _ := ⟨_, rfl⟩
  gcm key nonce plain := by
    refine ⟨_, _, rfl, List.length_replicate, ?_⟩
    have hxor : (plain.map (· ^^^ keystream key nonce)).map (· ^^^ keystream key nonce) = plain := by
      have hbyte (b : UInt8) : b ^^^ keystream key nonce ^^^ keystream key nonce = b := by
        rw [UInt8.xor_assoc, UInt8.xor_self, UInt8.xor_zero]
      simp only [List.map_map, Function.comp_def, hbyte, List.map_id']
    simp only [toyOpenSsl, hxor, if_true]

def twoSecrets : QMap QString :=
  .ofList [("session:web1".toList, "hunter2".toList), ("session:db".toList, "s3cr3t".toList)]

end Core.CredentialVault
