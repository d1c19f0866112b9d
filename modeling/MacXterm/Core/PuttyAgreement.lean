import MacXterm.Core.PuttyRegistry

namespace Core

open Qt SerialConnection

namespace PuttyImporter

section Reading

variable {t rest : QString}

theorem registryReading_slashed (h : trimmed t = rest ++ ['\\']) :
    registryReading t = trimmed rest := by
  rw [registryReading, h, chopped]
  simp

theorem registryReading_unslashed (h : (trimmed t).getLast? ≠ some '\\') :
    registryReading t = trimmed t := by
  rw [registryReading, chopped, if_neg h]
  exact trimmed_flush (flush_trimmed t)

theorem length_registryReading_le (t : QString) :
    (registryReading t).length ≤ (trimmed t).length := by
  refine (trimmed_sublist _).length_le.trans ?_
  unfold chopped
  split
  · exact (List.dropLast_sublist _).length_le
  · exact le_rfl

theorem length_registryReading_lt (h : (trimmed t).getLast? = some '\\') :
    (registryReading t).length < (trimmed t).length := by
  obtain ⟨rest, hrest⟩ := List.getLast?_eq_some_iff.mp h
  have hshort := (trimmed_sublist rest).length_le
  rw [registryReading_slashed hrest, hrest, List.length_append, List.length_singleton]
  omega

theorem registryReading_eq_iff :
    registryReading t = trimmed t ↔ (trimmed t).getLast? ≠ some '\\' := by
  refine ⟨fun h hlast => ?_, registryReading_unslashed⟩
  exact (length_registryReading_lt hlast).ne (congrArg List.length h)

theorem registryReading_blank (h : trimmed t = []) : registryReading t = [] := by
  rw [registryReading, h]
  rfl

end Reading

section Numbers

variable {n : Option (BitVec 32)}

theorem trimmed_positive (m : Int) : trimmed (positive m) = positive m := by
  unfold positive
  split
  · exact trimmed_number m
  · rfl

theorem getLast?_positive (m : Int) : (positive m).getLast? ≠ some '\\' := by
  intro h
  have hmem := List.mem_of_getLast? h
  unfold positive at hmem
  split at hmem
  · exact (number_char hmem).2.2 rfl
  · exact List.not_mem_nil hmem

theorem registryReading_positive (m : Int) : registryReading (positive m) = positive m := by
  have hlast := getLast?_positive m
  rw [← trimmed_positive m] at hlast
  rw [registryReading_unslashed hlast, trimmed_positive]

theorem getD_toInt_printed (n : Option (BitVec 32)) : (toInt (printed n)).getD 0 = dword n := by
  cases n with
  | none => rfl
  | some n => exact congrArg (Option.getD · 0) (toInt_printed n)

theorem positive_toInt_positive (n : Option (BitVec 32)) :
    positive ((toInt (positive (dword n))).getD 0) = positive (dword n) := by
  by_cases h : 0 < dword n
  · cases n with
    | none => exact absurd h (by decide)
    | some n =>
      have hprint : positive (dword (some n)) = number n.toInt := if_pos h
      rw [hprint, toInt_printed]
      exact hprint
  · rw [positive_eq_nil.mpr h]
    rfl

theorem printed_eq_one : printed n = ("1" : String) ↔ dword n = 1 := by
  cases n with
  | none => decide
  | some n => exact number_inj (i := n.toInt) (j := 1)

def portPart (pp : QString) : QString := if pp ≠ [] ∧ pp ≠ ("0" : String) then ':' :: pp else []

theorem portPart_printed (n : Option (BitVec 32)) :
    portPart (printed n) = if dword n ≠ 0 then ':' :: number (dword n) else [] := by
  cases n with
  | none => rfl
  | some n =>
    have hzero : number n.toInt ≠ ("0" : String) ↔ n.toInt ≠ 0 :=
      (number_inj (i := n.toInt) (j := 0)).not
    change portPart (number n.toInt) = if n.toInt ≠ 0 then ':' :: number n.toInt else []
    rw [portPart]
    simp only [ne_eq, number_ne_nil_int, not_false_eq_true, true_and, hzero]

theorem portPart_positive (m : Int) :
    portPart (positive m) = if 0 < m then ':' :: number m else [] := by
  unfold positive
  by_cases h : 0 < m
  · have hzero : number m ≠ ("0" : String) := fun heq => by
      have := number_injective (i := m) (j := 0) heq
      omega
    simp only [if_pos h, portPart, if_pos (And.intro (number_ne_nil_int m) hzero)]
  · simp only [if_neg h]
    rfl

end Numbers

section Gateway

variable {ph pu : QString} {n : Option (BitVec 32)} {kv kw : QMap QString}

def userPart (pu : QString) : QString := if pu = [] then [] else pu ++ ['@']

theorem gateway_parts (kv : QMap QString) : gateway kv =
    userPart (value kv "ProxyUsername") ++ (value kv "ProxyHost" ++
      portPart (value kv "ProxyPort")) := by
  simp only [gateway, userPart, portPart]
  split_ifs <;> simp

theorem length_userPart (pu : QString) :
    (userPart pu).length = if pu = [] then 0 else pu.length + 1 := by
  unfold userPart
  split <;> simp

theorem length_userPart_le (pu : QString) :
    (userPart (registryReading pu)).length ≤ (userPart (trimmed pu)).length := by
  have hle := length_registryReading_le pu
  rw [length_userPart, length_userPart]
  split_ifs with hreg hfile hfile
  · exact le_rfl
  · exact Nat.zero_le _
  · rw [hfile, List.length_nil, Nat.le_zero, List.length_eq_zero_iff] at hle
    exact absurd hle hreg
  · omega

theorem length_userPart_lt (h : (trimmed pu).getLast? = some '\\') :
    (userPart (registryReading pu)).length < (userPart (trimmed pu)).length := by
  have hlt := length_registryReading_lt h
  have hfile : trimmed pu ≠ [] := fun hnil => by simp [hnil] at h
  rw [length_userPart, length_userPart, if_neg hfile]
  split <;> omega

-- Each part is at most as long from the registry, so equal texts have equal parts.
theorem parts_eq_iff (ph pu : QString) (n : Option (BitVec 32)) :
    userPart (registryReading pu) ++ (registryReading ph ++ portPart (positive (dword n))) =
        userPart (trimmed pu) ++ (trimmed ph ++ portPart (printed n)) ↔
      (trimmed ph).getLast? ≠ some '\\' ∧ (trimmed pu).getLast? ≠ some '\\' ∧ 0 ≤ dword n := by
  have hport : (portPart (positive (dword n))).length ≤ (portPart (printed n)).length := by
    rw [portPart_positive, portPart_printed]
    split_ifs <;> first | omega | simp
  constructor
  · intro h
    have hlength := congrArg List.length h
    simp only [List.length_append] at hlength
    have hhost := length_registryReading_le ph
    have huser := length_userPart_le pu
    refine ⟨fun hlast => ?_, fun hlast => ?_, ?_⟩
    · have := length_registryReading_lt hlast
      omega
    · have := length_userPart_lt hlast
      omega
    · by_contra hneg
      have hlost : (portPart (positive (dword n))).length < (portPart (printed n)).length := by
        rw [portPart_positive, portPart_printed, if_neg (by omega), if_pos (by omega)]
        exact Nat.succ_pos _
      omega
  · rintro ⟨hhost, huser, hpos⟩
    rw [registryReading_unslashed hhost, registryReading_unslashed huser, portPart_positive,
      portPart_printed]
    have hsame : 0 < dword n ↔ dword n ≠ 0 := by omega
    simp only [hsame]

theorem proxy_eq_iff (hfile : value kv "ProxyHost" = trimmed ph ∧
      value kv "ProxyUsername" = trimmed pu ∧ value kv "ProxyPort" = printed n)
    (hkey : value kw "ProxyHost" = registryReading ph ∧
      value kw "ProxyUsername" = registryReading pu ∧
      value kw "ProxyPort" = positive (dword n)) :
    ((if value kw "ProxyHost" = [] then [] else gateway kw) =
        if value kv "ProxyHost" = [] then [] else gateway kv) ↔
      (trimmed ph ≠ [] → (trimmed ph).getLast? ≠ some '\\' ∧
        (trimmed pu).getLast? ≠ some '\\' ∧ 0 ≤ dword n) := by
  obtain ⟨hph, hpu, hpp⟩ := hfile
  obtain ⟨hrh, hru, hrp⟩ := hkey
  rw [hph, hrh]
  by_cases hempty : trimmed ph = []
  · simp [hempty, registryReading_blank hempty]
  · rw [if_neg hempty, ← parts_eq_iff ph pu n, gateway_parts kv, gateway_parts kw, hph, hpu, hpp,
      hrh, hru, hrp]
    simp only [ne_eq, hempty, not_false_eq_true, true_imp_iff]
    by_cases hblank : registryReading ph = []
    · rw [if_pos hblank]
      refine iff_of_false (fun h => ?_) fun h => ?_
      · have hnil := (List.append_eq_nil_iff.mp h.symm).2
        exact hempty (List.append_eq_nil_iff.mp hnil).1
      · have hsame := registryReading_unslashed ((parts_eq_iff ph pu n).mp h).1
        exact hempty (hsame.symm.trans hblank)
    · rw [if_neg hblank]

end Gateway

section Types

def namedType (t : QString) : SessionType :=
  if toLower t = ("telnet" : String) ∨ toLower t = ("raw" : String) then .telnet
  else if toLower t = ("rlogin" : String) then .rlogin
  else if toLower t = ("serial" : String) then .serial
  else .ssh

theorem protocolType_eq (kv : QMap QString) :
    protocolType kv = namedType (value kv "Protocol") := rfl

theorem namedType_slashed (rest : QString) : namedType (rest ++ ['\\']) = .ssh := by
  have hlower : toLower (rest ++ ['\\']) = toLower rest ++ ['\\'] := List.flatMap_append
  have hne (w : QString) (hw : w.getLast? ≠ some '\\') : toLower rest ++ ['\\'] ≠ w := by
    rintro rfl
    exact hw List.getLast?_concat
  rw [namedType, hlower, if_neg (not_or.mpr ⟨hne _ (by decide), hne _ (by decide)⟩),
    if_neg (hne _ (by decide)), if_neg (hne _ (by decide))]

theorem namedType_eq_iff (t : QString) : namedType (registryReading t) = namedType (trimmed t) ↔
    ∀ rest, trimmed t = rest ++ ['\\'] → namedType (trimmed rest) = .ssh := by
  constructor
  · intro h rest hrest
    rw [registryReading_slashed hrest, hrest, namedType_slashed] at h
    exact h
  · intro h
    by_cases hlast : (trimmed t).getLast? = some '\\'
    · obtain ⟨rest, hrest⟩ := List.getLast?_eq_some_iff.mp hlast
      rw [registryReading_slashed hrest, h rest hrest, hrest, namedType_slashed]
    · rw [registryReading_unslashed hlast]

theorem namedType_serial_iff (t : QString) : namedType (registryReading t) = .serial ↔
    namedType (trimmed t) = .serial ∨
      ∃ rest, trimmed t = rest ++ ['\\'] ∧ namedType (trimmed rest) = .serial := by
  by_cases hlast : (trimmed t).getLast? = some '\\'
  · obtain ⟨rest, hrest⟩ := List.getLast?_eq_some_iff.mp hlast
    rw [registryReading_slashed hrest, hrest, namedType_slashed]
    simp
  · rw [registryReading_unslashed hlast]
    refine ⟨.inl, fun h => h.resolve_right ?_⟩
    rintro ⟨rest, hrest, -⟩
    exact hlast (by rw [hrest, List.getLast?_concat])

end Types

def Unslashed (t : Option SettingText) : Prop := (trimmed (text t)).getLast? ≠ some '\\'

-- What keeps the two readings of a session with a host from differing.
structure SameReadings (s : PuttySession) : Prop where
  «protocol» : ∀ rest, trimmed (text s.protocol) = rest ++ ['\\'] → namedType (trimmed rest) = .ssh
  hostName : Unslashed s.hostName
  userName : Unslashed s.userName
  publicKeyFile : Unslashed s.publicKeyFile
  compression : dword s.compression = 0 ∨ dword s.compression = 1
  proxy : trimmed (text s.proxyHost) ≠ [] →
    Unslashed s.proxyHost ∧ Unslashed s.proxyUsername ∧ 0 ≤ dword s.proxyPort
  serialLine : namedType (trimmed (text s.protocol)) = .serial → Unslashed s.serialLine

namespace StoredSession

variable (s : StoredSession)

def fromFile : Session := parseSession (decodeName s.name) s.fileBytes

def fromKey : Session := parseSession (decodeName s.name) (registryBody s.values)

end StoredSession

section Readings

variable (s : StoredSession) {k : QString}

theorem text_eq_iff {t : Option SettingText} (hk : k ∈ recognised)
    (hset : s.session.setting k = t.map SettingText.value)
    (hfield : (k, text t) ∈ storedFields s.session) :
    value (readSettings (registryBody s.values)) k = value (readSettings s.fileBytes) k ↔
      Unslashed t := by
  rw [file_text hk hset, value_stored s hfield]
  exact registryReading_eq_iff

theorem positive_eq {n : Option (BitVec 32)} (hk : k ∈ recognised)
    (hset : s.session.setting k = n.map .dword)
    (hfield : (k, positive (dword n)) ∈ storedFields s.session) :
    positive ((toInt (value (readSettings (registryBody s.values)) k)).getD 0) =
      positive ((toInt (value (readSettings s.fileBytes) k)).getD 0) := by
  rw [file_dword hk hset, value_stored s hfield, registryReading_positive, getD_toInt_printed,
    positive_toInt_positive]

theorem host_eq_iff : value (readSettings (registryBody s.values)) "HostName" =
    value (readSettings s.fileBytes) "HostName" ↔ Unslashed s.session.hostName :=
  text_eq_iff s (by decide) rfl (by simp only [storedFields, List.mem_cons, true_or])

theorem user_eq_iff : value (readSettings (registryBody s.values)) "UserName" =
    value (readSettings s.fileBytes) "UserName" ↔ Unslashed s.session.userName :=
  text_eq_iff s (by decide) rfl (by simp only [storedFields, List.mem_cons, true_or, or_true])

theorem keyfile_eq_iff : value (readSettings (registryBody s.values)) "PublicKeyFile" =
    value (readSettings s.fileBytes) "PublicKeyFile" ↔ Unslashed s.session.publicKeyFile :=
  text_eq_iff s (by decide) rfl (by simp only [storedFields, List.mem_cons, true_or, or_true])

theorem line_eq_iff : value (readSettings (registryBody s.values)) "SerialLine" =
    value (readSettings s.fileBytes) "SerialLine" ↔ Unslashed s.session.serialLine :=
  text_eq_iff s (by decide) rfl (by simp only [storedFields, List.mem_cons, true_or, or_true])

theorem port_eq : positive ((toInt (value (readSettings (registryBody s.values))
      "PortNumber")).getD 0) =
    positive ((toInt (value (readSettings s.fileBytes) "PortNumber")).getD 0) :=
  positive_eq s (n := s.session.portNumber) (by decide) rfl
    (by simp only [storedFields, List.mem_cons, true_or, or_true])

theorem speed_eq : positive ((toInt (value (readSettings (registryBody s.values))
      "SerialSpeed")).getD 0) =
    positive ((toInt (value (readSettings s.fileBytes) "SerialSpeed")).getD 0) :=
  positive_eq s (n := s.session.serialSpeed) (by decide) rfl
    (by simp only [storedFields, List.mem_cons, true_or, or_true])

theorem registry_protocol : value (readSettings (registryBody s.values)) "Protocol" =
    registryReading (text s.session.protocol) :=
  value_stored s (by simp only [storedFields, List.mem_cons, true_or, or_true])

theorem file_protocol : value (readSettings s.fileBytes) "Protocol" =
    trimmed (text s.session.protocol) := file_text (by decide) rfl

theorem type_eq_iff : protocolType (readSettings (registryBody s.values)) =
      protocolType (readSettings s.fileBytes) ↔
    ∀ rest, trimmed (text s.session.protocol) = rest ++ ['\\'] →
      namedType (trimmed rest) = .ssh := by
  rw [protocolType_eq, protocolType_eq, registry_protocol, file_protocol]
  exact namedType_eq_iff _

theorem compression_eq_iff :
    ((if value (readSettings (registryBody s.values)) "Compression" = ("1" : String) then
        "1".toList else []) =
      if value (readSettings s.fileBytes) "Compression" = ("1" : String) then "1".toList
      else []) ↔ dword s.session.compression = 0 ∨ dword s.session.compression = 1 := by
  have hkey : value (readSettings (registryBody s.values)) "Compression" =
      if dword s.session.compression ≠ 0 then "1".toList else [] := by
    rw [value_stored s (v := if dword s.session.compression ≠ 0 then "1".toList else [])
      (by simp only [storedFields, List.mem_cons, true_or, or_true])]
    split <;> decide
  have hfile : value (readSettings s.fileBytes) "Compression" = printed s.session.compression :=
    file_dword (by decide) rfl
  rw [hkey, hfile]
  simp only [printed_eq_one]
  by_cases hzero : dword s.session.compression = 0
  · simp [hzero]
  · by_cases hone : dword s.session.compression = 1
    · simp [hone]
    · simp [hzero, hone]

theorem gateway_eq_iff :
    ((if value (readSettings (registryBody s.values)) "ProxyHost" = [] then []
        else gateway (readSettings (registryBody s.values))) =
      if value (readSettings s.fileBytes) "ProxyHost" = [] then []
      else gateway (readSettings s.fileBytes)) ↔
    (trimmed (text s.session.proxyHost) ≠ [] →
      Unslashed s.session.proxyHost ∧ Unslashed s.session.proxyUsername ∧
        0 ≤ dword s.session.proxyPort) := by
  have hport : value (readSettings (registryBody s.values)) "ProxyPort" =
      positive (dword s.session.proxyPort) := by
    rw [value_stored s (v := positive (dword s.session.proxyPort))
      (by simp only [storedFields, List.mem_cons, true_or, or_true]), registryReading_positive]
  exact proxy_eq_iff ⟨file_text (by decide) rfl, file_text (by decide) rfl,
      file_dword (by decide) rfl⟩
    ⟨value_stored s (by simp only [storedFields, List.mem_cons, true_or, or_true]),
      value_stored s (by simp only [storedFields, List.mem_cons, true_or, or_true]), hport⟩

theorem serialPort_eq_iff (hfile : protocolType (readSettings s.fileBytes) = .serial)
    (hkey : protocolType (readSettings (registryBody s.values)) = .serial) :
    s.fromKey.param "port" = s.fromFile.param "port" ↔ Unslashed s.session.serialLine := by
  have hline : value (readSettings s.fileBytes) "SerialLine" =
      trimmed (text s.session.serialLine) := file_text (by decide) rfl
  rw [StoredSession.fromKey, StoredSession.fromFile, param_serialLine _ hkey,
    param_serialLine _ hfile, port_eq]
  refine ⟨fun h => ?_, fun h => ?_⟩
  · intro hlast
    have hne : value (readSettings s.fileBytes) "SerialLine" ≠ [] := by
      rw [hline]
      intro hnil
      simp [hnil] at hlast
    rw [if_neg hne] at h
    split at h
    · rw [hline] at h
      rw [← h] at hlast
      exact getLast?_positive _ hlast
    · exact (line_eq_iff s).mp h hlast
  · rw [(line_eq_iff s).mpr h]

end Readings

theorem sameReadings_of_eq {s : StoredSession} (h : s.fromKey = s.fromFile) :
    SameReadings s.session := by
  have hparam (k : QString) : s.fromKey.param k = s.fromFile.param k :=
    congrArg (Session.param · k) h
  have htype : protocolType (readSettings (registryBody s.values)) =
      protocolType (readSettings s.fileBytes) := by
    have htypes := congrArg Session.type h
    rwa [StoredSession.fromKey, StoredSession.fromFile, parseSession_type,
      parseSession_type] at htypes
  refine ⟨(type_eq_iff s).mp htype, (host_eq_iff s).mp ?_, (user_eq_iff s).mp ?_,
    (keyfile_eq_iff s).mp ?_, (compression_eq_iff s).mp ?_, (gateway_eq_iff s).mp ?_,
    fun hserial => ?_⟩
  · simpa only [StoredSession.fromKey, StoredSession.fromFile, param_host] using hparam "host"
  · simpa only [StoredSession.fromKey, StoredSession.fromFile, param_username]
      using hparam "username"
  · simpa only [StoredSession.fromKey, StoredSession.fromFile, param_keyfile]
      using hparam "keyfile"
  · simpa only [StoredSession.fromKey, StoredSession.fromFile, param_compression]
      using hparam "compression"
  · simpa only [StoredSession.fromKey, StoredSession.fromFile, param_proxy]
      using hparam "gateway"
  · rw [← file_protocol s, ← protocolType_eq] at hserial
    exact (serialPort_eq_iff s hserial (htype.trans hserial)).mp (hparam "port")

theorem eq_of_sameReadings {s : StoredSession} (h : SameReadings s.session) :
    s.fromKey = s.fromFile := by
  have htype := (type_eq_iff s).mpr h.protocol
  have hline : (if protocolType (readSettings s.fileBytes) = .serial then
        value (readSettings (registryBody s.values)) "SerialLine" else []) =
      if protocolType (readSettings s.fileBytes) = .serial then
        value (readSettings s.fileBytes) "SerialLine" else [] := by
    split
    · rename_i hserial
      rw [protocolType_eq, file_protocol] at hserial
      exact (line_eq_iff s).mpr (h.serialLine hserial)
    · rfl
  have hfields : fields (readSettings (registryBody s.values)) =
      fields (readSettings s.fileBytes) := by
    simp only [fields, htype, (host_eq_iff s).mpr h.hostName, port_eq,
      (user_eq_iff s).mpr h.userName, (keyfile_eq_iff s).mpr h.publicKeyFile,
      (compression_eq_iff s).mpr h.compression, (gateway_eq_iff s).mpr h.proxy, hline, speed_eq]
  rw [StoredSession.fromKey, StoredSession.fromFile, parseSession_fields, parseSession_fields,
    hfields, htype]

theorem sessions_eq_iff (s : StoredSession) : s.fromKey = s.fromFile ↔ SameReadings s.session :=
  ⟨sameReadings_of_eq, eq_of_sameReadings⟩

section Admitted

variable {α β : Type} {f g : α → β} {p q : β → Bool} {l : List α}

theorem agree_of_filter_map_eq (hkept : ∀ x ∈ l, q (g x) = true → p (f x) = true)
    (h : (l.map g).filter q = (l.map f).filter p) :
    ∀ x ∈ l, if p (f x) = true then g x = f x else q (g x) = false := by
  induction l with
  | nil => exact nofun
  | cons x l ih =>
    have hlater : ∀ y ∈ l, q (g y) = true → p (f y) = true := fun y hy =>
      hkept y (List.mem_cons_of_mem _ hy)
    have hlength : ((l.map g).filter q).length ≤ ((l.map f).filter p).length := by
      rw [← List.countP_eq_length_filter, ← List.countP_eq_length_filter, List.countP_map,
        List.countP_map]
      exact List.countP_mono_left hlater
    rw [List.map_cons, List.map_cons, List.filter_cons, List.filter_cons] at h
    rw [List.forall_mem_cons]
    by_cases hq : q (g x) = true
    · have hp := hkept x List.mem_cons_self hq
      rw [if_pos hq, if_pos hp] at h
      obtain ⟨hhead, htail⟩ := List.cons.inj h
      rw [if_pos hp]
      exact ⟨hhead, ih hlater htail⟩
    · rw [if_neg hq] at h
      by_cases hp : p (f x) = true
      · rw [if_pos hp] at h
        rw [h, List.length_cons] at hlength
        omega
      · rw [if_neg hp] at h
        rw [if_neg hp]
        exact ⟨by simpa using hq, ih hlater h⟩

theorem filter_map_eq_of_agree (hpq : ∀ y, p y = true → q y = true)
    (h : ∀ x ∈ l, if p (f x) = true then g x = f x else q (g x) = false) :
    (l.map g).filter q = (l.map f).filter p := by
  induction l with
  | nil => rfl
  | cons x l ih =>
    rw [List.forall_mem_cons] at h
    obtain ⟨hx, hl⟩ := h
    rw [List.map_cons, List.map_cons, List.filter_cons, List.filter_cons, ih hl]
    by_cases hp : p (f x) = true
    · rw [if_pos hp] at hx
      rw [hx, if_pos hp, if_pos (hpq _ hp)]
    · rw [if_neg hp] at hx
      rw [if_neg hp, if_neg (by simp [hx])]

-- Every element of the second list has p, so in an equal first list every element has it too.
theorem filter_map_eq_iff (hpq : ∀ y, p y = true → q y = true)
    (hgf : ∀ x ∈ l, p (g x) = true → p (f x) = true) :
    (l.map g).filter q = (l.map f).filter p ↔
      ∀ x ∈ l, if p (f x) = true then g x = f x else q (g x) = false := by
  refine ⟨fun h => agree_of_filter_map_eq (fun x hx hq => ?_) h, filter_map_eq_of_agree hpq⟩
  have hmem : g x ∈ (l.map f).filter p := h ▸ List.mem_filter.mpr ⟨List.mem_map_of_mem hx, hq⟩
  exact hgf x hx (List.mem_filter.mp hmem).2

end Admitted

def hasHost (s : Session) : Bool := s.param "host" ≠ []

def fromRegistry (s : Session) : Bool := s.param "host" ≠ [] ∨ s.type = .serial

theorem hasHost_iff (s : Session) : hasHost s = true ↔ s.param "host" ≠ [] := decide_eq_true_iff

theorem fromRegistry_iff (s : Session) :
    fromRegistry s = true ↔ s.param "host" ≠ [] ∨ s.type = .serial := decide_eq_true_iff

theorem foldl_admit {α : Type} {load : SessionFolder → α → SessionFolder} {f : α → Session}
    {keep : Session → Bool}
    (hload : ∀ r x, load r x = if keep (f x) = true then r.addSession (f x) else r) (l : List α)
    (r : SessionFolder) : (l.foldl load r).sessions = r.sessions ++ (l.map f).filter keep := by
  induction l generalizing r with
  | nil => simp
  | cons x l ih =>
    rw [List.foldl_cons, ih, hload, List.map_cons, List.filter_cons]
    by_cases h : keep (f x) = true
    · rw [if_pos h, if_pos h]
      simp [SessionFolder.addSession]
    · rw [if_neg h, if_neg h]

theorem dir_sessions (l : List StoredSession) :
    (importFromDir (some (l.map StoredSession.file))).sessions =
      (l.map StoredSession.fromFile).filter hasHost := by
  have hload (r : SessionFolder) (s : StoredSession) :
      addFile r s.file = if hasHost s.fromFile = true then r.addSession s.fromFile else r := by
    simp only [hasHost_iff]
    rfl
  rw [importFromDir, List.foldl_map]
  exact foldl_admit hload l root

theorem registry_sessions (l : List StoredSession) :
    (importFromRegistry (some (l.map StoredSession.key))).sessions =
      (l.map StoredSession.fromKey).filter fromRegistry := by
  have hload (r : SessionFolder) (s : StoredSession) :
      addKey r s.key = if fromRegistry s.fromKey = true then r.addSession s.fromKey else r := by
    simp only [fromRegistry_iff]
    rfl
  rw [importFromRegistry, List.foldl_map]
  exact foldl_admit hload l root

-- Both importers read a session with a host alike, and neither takes one without.
def Agrees (s : PuttySession) : Prop :=
  if trimmed (text s.hostName) = [] then
    namedType (trimmed (text s.protocol)) ≠ .serial ∧
      ∀ rest, trimmed (text s.protocol) = rest ++ ['\\'] → namedType (trimmed rest) ≠ .serial
  else SameReadings s

theorem file_host (s : StoredSession) :
    s.fromFile.param "host" = trimmed (text s.session.hostName) := by
  rw [StoredSession.fromFile, param_host, file_text (by decide) rfl]

theorem key_host (s : StoredSession) :
    s.fromKey.param "host" = registryReading (text s.session.hostName) := by
  rw [StoredSession.fromKey, param_host, value_stored s (v := text s.session.hostName)
    (by simp only [storedFields, List.mem_cons, true_or])]

theorem key_serial_iff (s : StoredSession) : s.fromKey.type = .serial ↔
    namedType (trimmed (text s.session.protocol)) = .serial ∨
      ∃ rest, trimmed (text s.session.protocol) = rest ++ ['\\'] ∧
        namedType (trimmed rest) = .serial := by
  rw [StoredSession.fromKey, parseSession_type, protocolType_eq, registry_protocol]
  exact namedType_serial_iff _

theorem agrees_iff (s : StoredSession) : Agrees s.session ↔
    if hasHost s.fromFile = true then s.fromKey = s.fromFile
    else fromRegistry s.fromKey = false := by
  unfold Agrees
  by_cases h : trimmed (text s.session.hostName) = []
  · have hfile : ¬hasHost s.fromFile = true := by
      rw [hasHost_iff, file_host]
      exact not_not.mpr h
    have hkey : s.fromKey.param "host" = [] := by rw [key_host, registryReading_blank h]
    have hout : fromRegistry s.fromKey = false ↔ ¬s.fromKey.type = .serial := by
      rw [← Bool.not_eq_true, fromRegistry_iff, hkey]
      simp
    rw [if_pos h, if_neg hfile, hout, key_serial_iff, not_or]
    simp only [ne_eq, not_exists, not_and]
  · have hfile : hasHost s.fromFile = true := by
      rw [hasHost_iff, file_host]
      exact h
    rw [if_neg h, if_pos hfile, sessions_eq_iff]

theorem imports_agree_iff (l : List StoredSession) :
    (importFromDir (some (l.map StoredSession.file))).sessions =
        (importFromRegistry (some (l.map StoredSession.key))).sessions ↔
      ∀ s ∈ l, Agrees s.session := by
  have hgf : ∀ s ∈ l, hasHost s.fromKey = true → hasHost s.fromFile = true := by
    intro s _ h
    rw [hasHost_iff, key_host] at h
    rw [hasHost_iff, file_host]
    exact fun hblank => h (registryReading_blank hblank)
  have hpq (s : Session) (h : hasHost s = true) : fromRegistry s = true :=
    (fromRegistry_iff s).mpr (.inl ((hasHost_iff s).mp h))
  rw [eq_comm, registry_sessions, dir_sessions, filter_map_eq_iff hpq hgf]
  simp only [agrees_iff]

def serialConsole : PuttySession :=
  ⟨none, some ⟨"serial".toList, by decide, by decide⟩, none, none, none, none,
    some ⟨"COM3".toList, by decide, by decide⟩, none, none, none, none⟩

-- The registry brings the console, a file the same console does not.
theorem hostless_serial_lost : ¬∀ l : List StoredSession,
    (importFromDir (some (l.map StoredSession.file))).sessions =
      (importFromRegistry (some (l.map StoredSession.key))).sessions := by
  intro h
  have hconsole := congrArg List.length (h [serialConsole.stored "console".toList])
  revert hconsole
  decide +kernel

end PuttyImporter

end Core
