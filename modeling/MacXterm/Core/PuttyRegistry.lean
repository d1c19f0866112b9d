import MacXterm.Core.IniRoundTrip
import MacXterm.Core.PuttyImporter

namespace Core

open Qt

namespace PuttyImporter

def hexDigit (a : UInt8) : UInt8 :=
  if 0x30 ≤ a ∧ a ≤ 0x39 then a - 0x30
  else if 0x61 ≤ a ∧ a ≤ 0x66 then a - 0x61 + 10
  else if 0x41 ≤ a ∧ a ≤ 0x46 then a - 0x41 + 10
  else a

-- QByteArray::fromPercentEncoding; two bytes must follow the sign.
def fromPercentEncoding : QByteArray → QByteArray
  | c :: a :: b :: rest =>
      if c = 0x25 then (hexDigit a <<< 4 ||| hexDigit b) :: fromPercentEncoding rest
      else c :: fromPercentEncoding (a :: b :: rest)
  | rest => rest

def decodeName (raw : QString) : QString := fromUtf8 (fromPercentEncoding (toUtf8 raw))

def root : SessionFolder := ⟨"Imported (PuTTY)", [], []⟩

-- One file of the directory; none is a file that does not open.
def addFile (root : SessionFolder) (fi : QString × Option QByteArray) : SessionFolder :=
  match fi.2 with
  | none => root
  | some settings =>
      let s := parseSession (decodeName fi.1) settings
      if s.param "host" ≠ [] then root.addSession s else root

def importFromDir (d : Option (List (QString × Option QByteArray))) : SessionFolder :=
  match d with
  | none => root
  | some files => files.foldl addFile root

inductive RegValue where
  | sz (v : QString)
  | dword (v : BitVec 32)
  | other
  deriving DecidableEq

abbrev RegKey := QHash QString RegValue

def regStr (key : RegKey) (name : QString) : QString :=
  match key.find name with
  | some (.sz v) => v.takeWhile (· ≠ '\x00')
  | _ => []

def regDword (key : RegKey) (name : QString) : Int :=
  match key.find name with
  | some (.dword v) => v.toInt
  | _ => 0

def add (body : QByteArray) (k v : QString) : QByteArray :=
  if v = [] then body else body ++ toUtf8 (k ++ '=' :: v ++ ['\n'])

-- The values in the order they are added; an empty one is not.
def registryFields (key : RegKey) : List (QString × QString) :=
  [("HostName", regStr key "HostName"), ("Protocol", regStr key "Protocol"),
    ("UserName", regStr key "UserName"), ("PublicKeyFile", regStr key "PublicKeyFile"),
    ("ProxyHost", regStr key "ProxyHost"), ("ProxyUsername", regStr key "ProxyUsername"),
    ("SerialLine", regStr key "SerialLine"),
    ("PortNumber", positive (regDword key "PortNumber")),
    ("Compression", if regDword key "Compression" ≠ 0 then "1".toList else []),
    ("ProxyPort", positive (regDword key "ProxyPort")),
    ("SerialSpeed", positive (regDword key "SerialSpeed"))]

def registryBody (key : RegKey) : QByteArray :=
  (registryFields key).foldl (fun body f => add body f.1 f.2) []

def addKey (root : SessionFolder) (entry : QString × Option RegKey) : SessionFolder :=
  match entry.2 with
  | none => root
  | some key =>
      let s := parseSession (decodeName entry.1) (registryBody key)
      if s.param "host" ≠ [] ∨ s.type = .serial then root.addSession s else root

def importFromRegistry (hSessions : Option (List (QString × Option RegKey))) : SessionFolder :=
  match hSessions with
  | none => root
  | some keys => keys.foldl addKey root

-- A text PuTTY stores: a C string that fits a line of its file.
structure SettingText where
  text : QString
  ended : '\x00' ∉ text
  oneLine : '\n' ∉ text

structure PuttySession where
  hostName : Option SettingText
  «protocol» : Option SettingText
  userName : Option SettingText
  publicKeyFile : Option SettingText
  proxyHost : Option SettingText
  proxyUsername : Option SettingText
  serialLine : Option SettingText
  portNumber : Option (BitVec 32)
  compression : Option (BitVec 32)
  proxyPort : Option (BitVec 32)
  serialSpeed : Option (BitVec 32)

def SettingText.value (t : SettingText) : RegValue := .sz t.text

namespace PuttySession

def settings (s : PuttySession) : List (QString × Option RegValue) :=
  [("HostName", s.hostName.map (·.value)), ("Protocol", s.protocol.map (·.value)),
    ("UserName", s.userName.map (·.value)), ("PublicKeyFile", s.publicKeyFile.map (·.value)),
    ("ProxyHost", s.proxyHost.map (·.value)), ("ProxyUsername", s.proxyUsername.map (·.value)),
    ("SerialLine", s.serialLine.map (·.value)), ("PortNumber", s.portNumber.map .dword),
    ("Compression", s.compression.map .dword), ("ProxyPort", s.proxyPort.map .dword),
    ("SerialSpeed", s.serialSpeed.map .dword)]

def setting (s : PuttySession) (k : QString) : Option RegValue := (s.settings.lookup k).join

end PuttySession

def RegValue.print : RegValue → QString
  | sz v => v
  | dword n => number n.toInt
  | other => []

def alphanumeric (c : Char) : Bool :=
  let v := c.toNat
  (0x30 ≤ v && v ≤ 0x39) || (0x41 ≤ v && v ≤ 0x5A) || (0x61 ≤ v && v ≤ 0x7A)

def Plain (key : QString) : Prop := key ≠ [] ∧ key.all alphanumeric = true

instance (key : QString) : Decidable (Plain key) := inferInstanceAs (Decidable (_ ∧ _))

def recognised : List QString :=
  ["HostName", "Protocol", "UserName", "PublicKeyFile", "ProxyHost", "ProxyUsername",
    "SerialLine", "PortNumber", "Compression", "ProxyPort", "SerialSpeed"].map String.toList

-- One session as a file and as a registry key, both with whatever else PuTTY stores there.
structure StoredSession where
  name : QString
  session : PuttySession
  lines : List (QString × QString)
  values : RegKey
  plain : ∀ e ∈ lines, Plain e.1
  oneLine : ∀ e ∈ lines, '\n' ∉ e.2
  written : ∀ k ∈ recognised, ∀ v,
    (k, v) ∈ lines ↔ (session.setting k).map RegValue.print = some v
  valued : ∀ k ∈ recognised, values.find k = session.setting k

def fileLine (e : QString × QString) : QString := e.1 ++ '\\' :: e.2 ++ ['\\']

def registryLine (e : QString × QString) : QString := e.1 ++ '=' :: e.2

namespace StoredSession

def fileBytes (s : StoredSession) : QByteArray := toUtf8 (linesText (s.lines.map fileLine))

def file (s : StoredSession) : QString × Option QByteArray := (s.name, some s.fileBytes)

def key (s : StoredSession) : QString × Option RegKey := (s.name, some s.values)

end StoredSession

section Line

variable {key val : QString} {sep : Char}

theorem plain_char {c : Char} (h : alphanumeric c = true) :
    isSpace c = false ∧ c ≠ '\n' ∧ c ≠ '\\' ∧ c ≠ '=' ∧ c ≠ '\uFEFF' := by
  have hcode : ((48 ≤ c.toNat ∧ c.toNat ≤ 57) ∨ 65 ≤ c.toNat ∧ c.toNat ≤ 90) ∨
      97 ≤ c.toNat ∧ c.toNat ≤ 122 := by
    simpa only [alphanumeric, Bool.or_eq_true, Bool.and_eq_true, decide_eq_true_eq] using h
  refine ⟨?_, ?_, ?_, ?_, ?_⟩
  · simp only [isSpace, Bool.or_eq_false_iff, Bool.and_eq_false_iff, beq_eq_false_iff_ne,
      decide_eq_false_iff_not]
    omega
  all_goals
    rintro rfl
    revert hcode
    decide

theorem plain_mem (h : Plain key) {c : Char} (hc : c ∈ key) : alphanumeric c = true :=
  List.all_eq_true.mp h.2 c hc

theorem not_mem_plain (h : Plain key) : '\n' ∉ key ∧ '\\' ∉ key ∧ '=' ∉ key :=
  ⟨fun hc => (plain_char (plain_mem h hc)).2.1 rfl,
    fun hc => (plain_char (plain_mem h hc)).2.2.1 rfl,
    fun hc => (plain_char (plain_mem h hc)).2.2.2.1 rfl⟩

theorem trimmed_plain (h : Plain key) : trimmed key = key :=
  trimmed_of_no_space fun _ hc => (plain_char (plain_mem h hc)).1

theorem separator_eq (h : Plain key) (hsep : sep = '\\' ∨ sep = '=') :
    separator (key ++ sep :: val) = some key.length := by
  obtain ⟨-, hslash, heq⟩ := not_mem_plain h
  have hlater {c d : Char} (hc : c ∉ key) (hcd : d ≠ c) (i : Nat)
      (hi : (key ++ d :: val).findIdx? (· == c) = some i) : key.length < i := by
    rw [List.findIdx?_append, findIdx?_of_not_mem hc, List.findIdx?_cons] at hi
    simp only [beq_iff_eq, hcd, if_false, Option.none_or] at hi
    obtain ⟨j, hj, rfl⟩ := Option.map_eq_some_iff.mp hi
    obtain ⟨m, -, rfl⟩ := Option.map_eq_some_iff.mp hj
    omega
  unfold separator
  rcases hsep with rfl | rfl
  · rw [findIdx?_append_cons hslash]
    cases hi : (key ++ '\\' :: val).findIdx? (· == '=') with
    | none => rfl
    | some i =>
      have := hlater heq (by decide) i hi
      simp only [if_neg (by omega : ¬i < key.length)]
  · rw [findIdx?_append_cons heq]
    cases hi : (key ++ '=' :: val).findIdx? (· == '\\') with
    | none => rfl
    | some i => simp only [if_pos (hlater hslash (by decide) i hi)]

-- A value as the line parser keeps it, without its last backslash.
def chopped (val : QString) : QString := if val.getLast? = some '\\' then val.dropLast else val

theorem insertLine_eq (h : Plain key) (hsep : sep = '\\' ∨ sep = '=') (kv : QMap QString)
    {line : QString} (hline : trimmed line = key ++ sep :: val) :
    insertLine kv line = kv.insert key (trimmed (chopped val)) := by
  obtain ⟨n, hn⟩ : ∃ n, key.length = n + 1 :=
    Nat.exists_eq_succ_of_ne_zero (List.length_eq_zero_iff.not.mpr h.1)
  have htake : (key ++ sep :: val).take (n + 1) = key := by rw [← hn, List.take_left]
  have hdrop : (key ++ sep :: val).drop (n + 2) = val := by
    rw [show n + 2 = key.length + 1 by omega, List.drop_length_add_append]
    rfl
  rw [insertLine, hline, separator_eq h hsep, hn]
  simp only [htake, hdrop, trimmed_plain h]
  rfl

theorem head?_plain (h : Plain key) (t : QString) :
    ∃ c, (key ++ t).head? = some c ∧ alphanumeric c = true := by
  obtain ⟨c, cs, rfl⟩ := List.exists_cons_of_ne_nil h.1
  exact ⟨c, rfl, plain_mem h List.mem_cons_self⟩

theorem flush_line (h : Plain key) {t : QString} {c : Char} (hc : isSpace c = false) :
    Flush (key ++ t ++ [c]) := by
  obtain ⟨d, hd, hplain⟩ := head?_plain h (t ++ [c])
  refine ⟨fun e he => ?_, fun e he => ?_⟩
  · rw [List.append_assoc, hd] at he
    exact Option.some.inj he ▸ (plain_char hplain).1
  · rw [List.getLast?_append] at he
    exact Option.some.inj he ▸ hc

theorem insertLine_file (h : Plain key) (kv : QMap QString) (val : QString) :
    insertLine kv (fileLine (key, val)) = kv.insert key (trimmed val) := by
  have hline : trimmed (fileLine (key, val)) = key ++ '\\' :: (val ++ ['\\']) := by
    have hflush := trimmed_flush (flush_line h (t := '\\' :: val) (c := '\\') (by decide))
    simpa [fileLine] using hflush
  have hchop : chopped (val ++ ['\\']) = val := by simp [chopped]
  rw [insertLine_eq h (.inl rfl) kv hline, hchop]

def registryReading (val : QString) : QString := trimmed (chopped (trimmed val))

theorem insertLine_registry (h : Plain key) (kv : QMap QString) (val : QString) :
    insertLine kv (registryLine (key, val)) = kv.insert key (registryReading val) := by
  obtain ⟨a, b, ha, hb, hval⟩ := exists_trimmed val
  have hline : registryLine (key, val) = key ++ '=' :: (a ++ trimmed val) ++ b := by
    conv_lhs => rw [registryLine, hval]
    simp
  cases hlast : (trimmed val).getLast? with
  | none =>
    have hempty : trimmed val = [] := List.getLast?_eq_none_iff.mp hlast
    have hends : trimmed (registryLine (key, val)) = key ++ '=' :: [] := by
      rw [hline, hempty, List.append_nil, trimmed_back hb, List.append_cons, trimmed_back ha]
      have hflush := trimmed_flush (flush_line h (t := []) (c := '=') (by decide))
      simpa using hflush
    rw [insertLine_eq h (.inr rfl) kv hends, registryReading, hempty]
  | some c =>
    have hspace : isSpace c = false := getLast?_trimmed hlast
    obtain ⟨u, hu⟩ := List.getLast?_eq_some_iff.mp hlast
    have hends : trimmed (registryLine (key, val)) = key ++ '=' :: (a ++ trimmed val) := by
      have hflush := trimmed_flush (flush_line h (t := '=' :: (a ++ u)) hspace)
      rw [hline, trimmed_back hb, hu]
      simpa using hflush
    have hchop : chopped (a ++ trimmed val) = a ++ chopped (trimmed val) := by
      rw [hu, ← List.append_assoc, chopped, chopped]
      simp only [List.getLast?_append, List.getLast?_singleton, Option.some_or,
        List.dropLast_concat]
      split <;> simp
    rw [insertLine_eq h (.inr rfl) kv hends, hchop, trimmed_front ha, registryReading]

end Line

section Settings

variable {es : List (QString × QString)} {k v : QString}

theorem find_foldl_insert (g : QString → QString) (m : QMap QString) {o : Option QString}
    (h : ∀ w, (k, w) ∈ es ↔ o = some w) :
    (es.foldl (fun m e => m.insert e.1 (g e.2)) m).find k = (o.map g).or (m.find k) := by
  induction es using List.reverseRecOn with
  | nil =>
    have hnone : o = none := Option.eq_none_iff_forall_ne_some.mpr fun w hw =>
      List.not_mem_nil ((h w).mpr hw)
    rw [hnone]
    rfl
  | append_singleton es e ih =>
    rw [List.foldl_append, List.foldl_cons, List.foldl_nil, QMap.find_insert]
    split
    · rename_i hk
      rw [(h e.2).mp (by simp [hk])]
      rfl
    · rename_i hk
      refine ih fun w => ?_
      have hne : (k, w) ≠ e := fun he => hk (he ▸ rfl)
      rw [← h w, List.mem_append, List.mem_singleton, or_iff_left hne]

theorem readSettings_lines {line : QString × QString → QString} {g : QString → QString}
    (hplain : ∀ e ∈ es, Plain e.1) (hline : ∀ e ∈ es, '\n' ∉ line e)
    (hkey : ∀ e, ∃ t, line e = e.1 ++ t)
    (hinsert : ∀ e ∈ es, ∀ kv, insertLine kv (line e) = kv.insert e.1 (g e.2)) :
    readSettings (toUtf8 (linesText (es.map line))) =
      es.foldl (fun kv e => kv.insert e.1 (g e.2)) .empty := by
  have hbom : dropBom (linesText (es.map line)) = linesText (es.map line) := by
    rw [dropBom_eq_iff]
    cases es with
    | nil => exact nofun
    | cons e es =>
      obtain ⟨t, ht⟩ := hkey e
      obtain ⟨c, hc, hplain⟩ :=
        head?_plain (hplain e List.mem_cons_self) (t ++ '\n' :: linesText (es.map line))
      have htext : linesText ((e :: es).map line) =
          e.1 ++ (t ++ '\n' :: linesText (es.map line)) := by
        simp [linesText, ht]
      rw [htext, hc]
      rintro ⟨⟩
      exact (plain_char hplain).2.2.2.2 rfl
  have hlines : ∀ l ∈ es.map line, '\n' ∉ l := by
    intro l hl
    obtain ⟨e, he, rfl⟩ := List.mem_map.mp hl
    exact hline e he
  rw [readSettings, fromUtf8_toUtf8, hbom, splitOn_linesText hlines, List.foldl_append,
    List.foldl_map]
  have hfold (kv : QMap QString) : es.foldl (fun kv e => insertLine kv (line e)) kv =
      es.foldl (fun kv e => kv.insert e.1 (g e.2)) kv :=
    List.foldl_ext _ _ kv fun kv e he => hinsert e he kv
  rw [hfold]
  rfl

theorem value_file (s : StoredSession) (hk : k ∈ recognised) :
    value (readSettings s.fileBytes) k =
      trimmed (((s.session.setting k).map RegValue.print).getD []) := by
  have hline : ∀ e ∈ s.lines, '\n' ∉ fileLine e := by
    intro e he
    have hkey := (not_mem_plain (s.plain e he)).1
    have hval := s.oneLine e he
    simp [fileLine, hkey, hval]
  have hread : readSettings s.fileBytes =
      s.lines.foldl (fun kv e => kv.insert e.1 (trimmed e.2)) .empty :=
    readSettings_lines s.plain hline (fun e => ⟨'\\' :: e.2 ++ ['\\'], by simp [fileLine]⟩)
      fun e he kv => insertLine_file (s.plain e he) kv e.2
  rw [hread, value, QMap.value, find_foldl_insert trimmed .empty (s.written k hk)]
  cases (s.session.setting k).map RegValue.print <;> rfl

theorem foldl_add (es : List (QString × QString)) (body : QByteArray) :
    es.foldl (fun body f => add body f.1 f.2) body =
      body ++ toUtf8 (linesText ((es.filter (·.2 ≠ [])).map registryLine)) := by
  induction es generalizing body with
  | nil => simp [linesText, toUtf8]
  | cons e es ih =>
    rw [List.foldl_cons, ih, add, List.filter_cons]
    by_cases he : e.2 = []
    · simp [he]
    · rw [if_neg he, if_pos (by simpa using he), List.append_assoc, ← toUtf8_append]
      simp [linesText, registryLine]

theorem plain_recognised : ∀ k ∈ recognised, Plain k := by decide

theorem nodup_recognised : recognised.Nodup := by decide

theorem value_registry {key : RegKey} (hline : ∀ f ∈ registryFields key, '\n' ∉ f.2)
    (h : (k, v) ∈ registryFields key) :
    value (readSettings (registryBody key)) k = registryReading v := by
  have hplain : ∀ f ∈ (registryFields key).filter (·.2 ≠ []), Plain f.1 := fun f hf =>
    plain_recognised f.1 (List.mem_map_of_mem (List.mem_of_mem_filter hf))
  have hfeed : ∀ f ∈ (registryFields key).filter (·.2 ≠ []), '\n' ∉ registryLine f := by
    intro f hf
    have hkey := (not_mem_plain (hplain f hf)).1
    have hval := hline f (List.mem_of_mem_filter hf)
    simp [registryLine, hkey, hval]
  have hread := readSettings_lines hplain hfeed (fun f => ⟨'=' :: f.2, rfl⟩)
    fun f hf kv => insertLine_registry (hplain f hf) kv f.2
  have honly (w : QString) : (k, w) ∈ (registryFields key).filter (·.2 ≠ []) ↔
      (if v = [] then none else some v) = some w := by
    have hsame : (k, w) ∈ registryFields key ↔ w = v := by
      refine ⟨fun hw => ?_, fun hw => hw ▸ h⟩
      have hnodup : ((registryFields key).map Prod.fst).Nodup := nodup_recognised
      exact (Prod.mk.inj (List.inj_on_of_nodup_map hnodup hw h rfl)).2
    rw [List.mem_filter, hsame]
    by_cases hv : v = []
    · simp only [if_pos hv, reduceCtorEq, iff_false, not_and]
      rintro rfl
      simp [hv]
    · simp only [if_neg hv, Option.some.injEq]
      refine ⟨fun hw => hw.1.symm, ?_⟩
      rintro rfl
      exact ⟨rfl, by simpa using hv⟩
  have hbody : registryBody key =
      toUtf8 (linesText (((registryFields key).filter (·.2 ≠ [])).map registryLine)) :=
    foldl_add (registryFields key) []
  rw [hbody, hread, value, QMap.value, find_foldl_insert registryReading .empty honly]
  split
  · rename_i hv
    rw [hv]
    rfl
  · rfl

end Settings

def text (t : Option SettingText) : QString := (t.map SettingText.text).getD []

def dword (n : Option (BitVec 32)) : Int := (n.map BitVec.toInt).getD 0

def printed (n : Option (BitVec 32)) : QString := (n.map fun n => number n.toInt).getD []

section Number

variable {i : Int} {c : Char}

theorem number_char (h : c ∈ number i) : isSpace c = false ∧ c ≠ '\n' ∧ c ≠ '\\' := by
  rcases mem_number h with rfl | hdigit
  · decide
  · have halnum : alphanumeric c = true := by
      have hrange := isDigit_iff.mp hdigit
      simp [alphanumeric, hrange]
    obtain ⟨hspace, hfeed, hslash, -⟩ := plain_char halnum
    exact ⟨hspace, hfeed, hslash⟩

theorem toInt_printed (n : BitVec 32) : toInt (number n.toInt) = some n.toInt := by
  have hlow := BitVec.le_toInt n
  have hhigh := BitVec.toInt_lt (x := n)
  by_cases hneg : n.toInt < 0
  · obtain ⟨m, hm⟩ := Int.exists_eq_neg_ofNat (Int.le_of_lt hneg)
    rw [hm]
    exact toInt_number_neg (by omega) (by omega)
  · exact toInt_number_int (Int.not_lt.mp hneg) (by omega)

end Number

def storedFields (s : PuttySession) : List (QString × QString) :=
  [("HostName", text s.hostName), ("Protocol", text s.protocol), ("UserName", text s.userName),
    ("PublicKeyFile", text s.publicKeyFile), ("ProxyHost", text s.proxyHost),
    ("ProxyUsername", text s.proxyUsername), ("SerialLine", text s.serialLine),
    ("PortNumber", positive (dword s.portNumber)),
    ("Compression", if dword s.compression ≠ 0 then "1".toList else []),
    ("ProxyPort", positive (dword s.proxyPort)),
    ("SerialSpeed", positive (dword s.serialSpeed))]

section Stored

variable {s : StoredSession} {k : QString}

theorem regStr_stored {t : Option SettingText} (hk : k ∈ recognised)
    (h : s.session.setting k = t.map SettingText.value) : regStr s.values k = text t := by
  rw [regStr, s.valued k hk, h]
  cases t with
  | none => rfl
  | some t =>
    refine List.takeWhile_eq_self_iff.mpr fun c hc => ?_
    simp only [ne_eq, decide_not, Bool.not_eq_true', decide_eq_false_iff_not]
    rintro rfl
    exact t.ended hc

theorem regDword_stored {n : Option (BitVec 32)} (hk : k ∈ recognised)
    (h : s.session.setting k = n.map .dword) : regDword s.values k = dword n := by
  rw [regDword, s.valued k hk, h]
  cases n <;> rfl

theorem registryFields_stored (s : StoredSession) :
    registryFields s.values = storedFields s.session := by
  rw [registryFields, storedFields, regStr_stored (t := s.session.hostName) (by decide) rfl,
    regStr_stored (t := s.session.protocol) (by decide) rfl,
    regStr_stored (t := s.session.userName) (by decide) rfl,
    regStr_stored (t := s.session.publicKeyFile) (by decide) rfl,
    regStr_stored (t := s.session.proxyHost) (by decide) rfl,
    regStr_stored (t := s.session.proxyUsername) (by decide) rfl,
    regStr_stored (t := s.session.serialLine) (by decide) rfl,
    regDword_stored (n := s.session.portNumber) (by decide) rfl,
    regDword_stored (n := s.session.compression) (by decide) rfl,
    regDword_stored (n := s.session.proxyPort) (by decide) rfl,
    regDword_stored (n := s.session.serialSpeed) (by decide) rfl]

theorem oneLine_text (t : Option SettingText) : '\n' ∉ text t := by
  cases t with
  | none => exact List.not_mem_nil
  | some t => exact t.oneLine

theorem oneLine_positive (n : Int) : '\n' ∉ positive n := by
  unfold positive
  split
  · exact fun h => (number_char h).2.1 rfl
  · exact List.not_mem_nil

theorem oneLine_storedFields (s : PuttySession) : ∀ f ∈ storedFields s, '\n' ∉ f.2 := by
  simp only [storedFields, List.forall_mem_cons, oneLine_text, oneLine_positive,
    not_false_eq_true, true_and]
  refine ⟨?_, fun f hf => absurd hf List.not_mem_nil⟩
  split <;> decide

theorem value_stored (s : StoredSession) {v : QString} (h : (k, v) ∈ storedFields s.session) :
    value (readSettings (registryBody s.values)) k = registryReading v := by
  rw [← registryFields_stored] at h
  exact value_registry (registryFields_stored s ▸ oneLine_storedFields s.session) h

theorem file_text {t : Option SettingText} (hk : k ∈ recognised)
    (h : s.session.setting k = t.map SettingText.value) :
    value (readSettings s.fileBytes) k = trimmed (text t) := by
  rw [value_file s hk, h, Option.map_map]
  cases t <;> rfl

theorem file_dword {n : Option (BitVec 32)} (hk : k ∈ recognised)
    (h : s.session.setting k = n.map .dword) :
    value (readSettings s.fileBytes) k = printed n := by
  rw [value_file s hk, h, Option.map_map]
  cases n with
  | none => rfl
  | some n => exact trimmed_number n.toInt

end Stored

section Lookup

variable {ν : Type} {fs : List (QString × Option ν)} {k : QString}

theorem find_eq_lookup (es : QHash QString ν) (k : QString) : es.find k = List.lookup k es := by
  induction es with
  | nil => rfl
  | cons e es ih =>
    have hfind : QHash.find (e :: es) k = if k = e.1 then some e.2 else QHash.find es k :=
      @QMap.lookup_entry _ _ instBEqOfDecidableEq _ _ k e es
    rw [hfind, ih, QMap.lookup_entry]

theorem mem_stored {v : ν} :
    (k, v) ∈ fs.filterMap (fun f => f.2.map (f.1, ·)) ↔ (k, some v) ∈ fs := by
  rw [List.mem_filterMap]
  constructor
  · rintro ⟨⟨j, o⟩, hf, hv⟩
    obtain ⟨w, rfl, heq⟩ := Option.map_eq_some_iff.mp hv
    obtain ⟨rfl, rfl⟩ := Prod.mk.inj heq
    exact hf
  · intro hf
    exact ⟨(k, some v), hf, rfl⟩

theorem join_lookup_iff (h : (fs.map Prod.fst).Nodup) {v : ν} :
    (fs.lookup k).join = some v ↔ (k, some v) ∈ fs := by
  rw [Option.join_eq_some_iff, QMap.lookup_iff_mem h]

theorem lookup_stored (h : (fs.map Prod.fst).Nodup) :
    (fs.filterMap fun f => f.2.map (f.1, ·)).lookup k = (fs.lookup k).join := by
  have hkeys : ((fs.filterMap fun f => f.2.map (f.1, ·)).map Prod.fst).Sublist
      (fs.map Prod.fst) := by
    induction fs with
    | nil => exact List.Sublist.slnil
    | cons f fs ih =>
      obtain ⟨j, o⟩ := f
      have hrest := ih (List.nodup_cons.mp h).2
      cases o with
      | none => exact hrest.cons j
      | some v => exact hrest.cons_cons j
  ext v
  rw [QMap.lookup_iff_mem (hkeys.nodup h), mem_stored, join_lookup_iff h]

end Lookup

namespace PuttySession

def lines (s : PuttySession) : List (QString × QString) :=
  s.settings.filterMap fun f => (f.2.map RegValue.print).map (f.1, ·)

def values (s : PuttySession) : RegKey := s.settings.filterMap fun f => f.2.map (f.1, ·)

variable {s : PuttySession} {k v : QString}

theorem nodup_settings (s : PuttySession) : (s.settings.map Prod.fst).Nodup := nodup_recognised

theorem mem_lines : (k, v) ∈ s.lines ↔ (s.setting k).map RegValue.print = some v := by
  have hmap : s.lines = (s.settings.map fun f => (f.1, f.2.map RegValue.print)).filterMap
      fun f => f.2.map (f.1, ·) := by
    rw [List.filterMap_map]
    rfl
  rw [hmap, mem_stored, List.mem_map, Option.map_eq_some_iff]
  constructor
  · rintro ⟨⟨j, o⟩, hf, heq⟩
    obtain ⟨rfl, hprint⟩ := Prod.mk.inj heq
    obtain ⟨w, rfl, hw⟩ := Option.map_eq_some_iff.mp hprint
    exact ⟨w, (join_lookup_iff s.nodup_settings).mpr hf, hw⟩
  · rintro ⟨w, hw, rfl⟩
    exact ⟨(k, some w), (join_lookup_iff s.nodup_settings).mp hw, rfl⟩

theorem oneLine_setting {w : RegValue} (h : s.setting k = some w) : '\n' ∉ w.print := by
  have htext (t : Option SettingText) : ∀ w ∈ t.map (·.value), '\n' ∉ w.print := by
    intro w hw
    obtain ⟨t, -, rfl⟩ := Option.map_eq_some_iff.mp hw
    exact t.oneLine
  have hdword (n : Option (BitVec 32)) : ∀ w ∈ n.map RegValue.dword, '\n' ∉ w.print := by
    intro w hw
    obtain ⟨n, -, rfl⟩ := Option.map_eq_some_iff.mp hw
    exact fun hc => (number_char hc).2.1 rfl
  have hall : ∀ f ∈ s.settings, ∀ w ∈ f.2, '\n' ∉ w.print := by
    simp only [settings, List.forall_mem_cons]
    exact ⟨htext _, htext _, htext _, htext _, htext _, htext _, htext _, hdword _, hdword _,
      hdword _, hdword _, fun f hf => absurd hf List.not_mem_nil⟩
  exact hall (k, some w) ((join_lookup_iff s.nodup_settings).mp h) w rfl

def stored (s : PuttySession) (name : QString) : StoredSession where
  name := name
  session := s
  lines := s.lines
  values := s.values
  plain := fun e he => by
    obtain ⟨w, hw, -⟩ := Option.map_eq_some_iff.mp (mem_lines.mp he)
    have hmem := (join_lookup_iff s.nodup_settings).mp hw
    exact plain_recognised e.1 (List.mem_map_of_mem (f := Prod.fst) hmem)
  oneLine := fun e he => by
    obtain ⟨w, hw, hprint⟩ := Option.map_eq_some_iff.mp (mem_lines.mp he)
    exact hprint ▸ oneLine_setting hw
  written := fun _ _ _ => mem_lines
  valued := fun k _ => (find_eq_lookup s.values k).trans (lookup_stored s.nodup_settings)

end PuttySession

end PuttyImporter

end Core
