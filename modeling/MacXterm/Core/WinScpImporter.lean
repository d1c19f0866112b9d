import MacXterm.Core.PuttyAgreement
import MacXterm.Lib.Grouping

namespace Core.WinScpImporter

open Qt PuttyImporter

def sessionFromKv (name : QString) (kv : QMap QString) : Session :=
  let fsproto := (toInt (kv.value "FSProtocol" [])).getD 0
  let type := if fsproto = 5 then SessionType.ftp else .sftp
  let s : Session := ⟨name, type, .empty⟩
  let host := kv.value "HostName" []
  let s := if host = [] then s else s.setHost host
  let p := (toInt (kv.value "PortNumber" [])).getD 0
  let s := if 0 < p then s.setPort p else s
  let user := kv.value "UserName" []
  let s := if user = [] then s else s.setUsername user
  let keyfile := kv.value "PublicKeyFile" []
  if keyfile = [] then s else s.setParam "keyfile" keyfile

def root : SessionFolder := ⟨"Imported (WinSCP)", [], []⟩

def sessionsPath : QString := "Sessions\\".toList

def template : QString := "Default%20Settings".toList

def flush (root : SessionFolder) (path : QString) (kv : QMap QString) : SessionFolder :=
  if sessionsPath <+: path then
    let enc := path.drop sessionsPath.length
    if enc ≠ template ∧ enc ≠ [] then
      let s := sessionFromKv (decodeName enc) kv
      if s.param "host" ≠ [] then root.addSession s else root
    else root
  else root

-- The text between the brackets of a heading.
def heading (raw : QString) : Option QString :=
  let line := trimmed raw
  if line.head? = some '[' ∧ line.getLast? = some ']' then
    some ((line.drop 1).take (line.length - 2))
  else none

def addLine (kv : QMap QString) (raw : QString) : QMap QString :=
  let line := trimmed raw
  if line = [] ∨ line.head? = some ';' then kv
  else
    match line.findIdx? (· == '=') with
    | some (n + 1) => kv.insert (trimmed (line.take (n + 1))) (trimmed (line.drop (n + 2)))
    | _ => kv

def lines (iniText : QByteArray) : List QString := (fromUtf8 iniText).splitOn '\n'

def parseIni (iniText : QByteArray) : SessionFolder :=
  Sections.finish flush
    ((lines iniText).foldl (Sections.step heading addLine .empty flush) (root, [], .empty))

def importFile (file : Option QByteArray) : SessionFolder :=
  match file with
  | none => root
  | some iniText => parseIni iniText

def insertText (kv : QMap QString) (k v : QString) : QMap QString :=
  if v = [] then kv else kv.insert k v

def registrySettings (key : RegKey) : QMap QString :=
  let kv := insertText .empty "HostName" (regStr key "HostName")
  let kv := insertText kv "UserName" (regStr key "UserName")
  let kv := insertText kv "PublicKeyFile" (regStr key "PublicKeyFile")
  let p := regDword key "PortNumber"
  let kv := if 0 < p then kv.insert "PortNumber" (number p) else kv
  kv.insert "FSProtocol" (number (regDword key "FSProtocol"))

def addKey (root : SessionFolder) (entry : QString × Option RegKey) : SessionFolder :=
  if entry.1 = template then root
  else
    match entry.2 with
    | none => root
    | some key =>
        if regStr key "HostName" = [] then root
        else root.addSession (sessionFromKv (decodeName entry.1) (registrySettings key))

def importFromRegistry (hSessions : Option (List (QString × Option RegKey))) : SessionFolder :=
  match hSessions with
  | none => root
  | some keys => keys.foldl addKey root

def fields (kv : QMap QString) : List (QString × QString) :=
  [("host", kv.value "HostName" []),
    ("port", positive ((toInt (kv.value "PortNumber" [])).getD 0)),
    ("username", kv.value "UserName" []), ("keyfile", kv.value "PublicKeyFile" [])]

def ofProtocol (fsproto : Int) : SessionType := if fsproto = 5 then .ftp else .sftp

theorem sessionFromKv_fields (name : QString) (kv : QMap QString) :
    sessionFromKv name kv = (fields kv).foldl (fun s f => setText s f.1 f.2)
      ⟨name, ofProtocol ((toInt (kv.value "FSProtocol" [])).getD 0), .empty⟩ := by
  unfold sessionFromKv
  extract_lets fsproto type s₀ host s₁ p s₂ user s₃ keyfile
  have hport : s₂ = setText s₁ "port" (positive p) := setText_positive s₁ "port" p
  simp only [s₃, hport]
  rfl

theorem param_host (name : QString) (kv : QMap QString) :
    (sessionFromKv name kv).param "host" = kv.value "HostName" [] := by
  rw [sessionFromKv_fields]
  exact param_foldl rfl rfl

-- The session of a section, if there is one in it.
def sessionOf (path : QString) (kv : QMap QString) : Option Session :=
  let enc := path.drop sessionsPath.length
  if sessionsPath <+: path ∧ enc ≠ template ∧ enc ≠ [] ∧ kv.value "HostName" [] ≠ [] then
    some (sessionFromKv (decodeName enc) kv)
  else none

theorem flush_sessions (r : SessionFolder) (path : QString) (kv : QMap QString) :
    (flush r path kv).sessions = r.sessions ++ (sessionOf path kv).toList := by
  unfold flush sessionOf
  by_cases hpath : sessionsPath <+: path
  · by_cases henc : path.drop sessionsPath.length ≠ template ∧ path.drop sessionsPath.length ≠ []
    · have hhost := param_host (decodeName (path.drop sessionsPath.length)) kv
      rw [if_pos hpath, if_pos henc]
      simp only [hhost]
      by_cases hempty : kv.value "HostName" [] = []
      · rw [if_neg (not_not.mpr hempty), if_neg (by tauto)]
        exact (List.append_nil _).symm
      · rw [if_pos hempty, if_pos ⟨hpath, henc.1, henc.2, hempty⟩]
        rfl
    · rw [if_pos hpath, if_neg henc, if_neg (by tauto)]
      simp
  · rw [if_neg hpath, if_neg (by tauto)]
    simp

def readSections (ls : List QString) : List Session :=
  (Sections.cut heading [] [] ls).filterMap fun g => sessionOf g.1 (g.2.foldl addLine .empty)

theorem foldl_flush (gs : List (QString × List QString)) (r : SessionFolder) :
    (gs.foldl (fun r g => flush r g.1 (g.2.foldl addLine .empty)) r).sessions =
      r.sessions ++ gs.filterMap fun g => sessionOf g.1 (g.2.foldl addLine .empty) := by
  induction gs generalizing r with
  | nil => rw [List.foldl_nil, List.filterMap_nil, List.append_nil]
  | cons g gs ih =>
    rw [List.foldl_cons, ih, flush_sessions, List.append_assoc, List.filterMap_cons]
    cases sessionOf g.1 (g.2.foldl addLine .empty) <;> rfl

def afterLines (ls : List QString) : SessionFolder × QString × QMap QString :=
  ls.foldl (Sections.step heading addLine .empty flush) (root, [], .empty)

-- Each section is read by itself.
theorem sessions_afterLines (ls : List QString) :
    (Sections.finish flush (afterLines ls)).sessions = readSections ls := by
  have hpass := Sections.finish_foldl heading addLine .empty flush ls root [] []
  rw [readSections]
  exact (congrArg SessionFolder.sessions hpass).trans (foldl_flush _ root)

theorem parseIni_sessions (iniText : QByteArray) :
    (parseIni iniText).sessions = readSections (lines iniText) :=
  sessions_afterLines (lines iniText)

theorem readSections_blank (ls : List QString) : readSections (ls ++ [[]]) = readSections ls := by
  have hblank : afterLines (ls ++ [[]]) = afterLines ls := List.foldl_append
  rw [← sessions_afterLines, ← sessions_afterLines, hblank]

structure Heading where
  name : QString
  oneLine : '\n' ∉ name

def Heading.line (h : Heading) : QString := '[' :: h.name ++ [']']

theorem heading_line (name : QString) : heading ('[' :: name ++ [']']) = some name := by
  have hflush : Flush ('[' :: name ++ [']']) := by
    refine ⟨fun c hc => ?_, fun c hc => ?_⟩
    · cases Option.some.inj hc
      rfl
    · rw [List.getLast?_concat] at hc
      cases Option.some.inj hc
      rfl
  rw [heading, trimmed_flush hflush, if_pos ⟨rfl, List.getLast?_concat⟩]
  simp

theorem lines_append (a : QString) {b : QString} (hb : b.head? ≠ some '\uFEFF') :
    lines (toUtf8 (a ++ '\n' :: b)) = lines (toUtf8 a) ++ lines (toUtf8 b) := by
  have hbom : dropBom (a ++ '\n' :: b) = dropBom a ++ '\n' :: b := by
    cases a with
    | nil => exact dropBom_cons (by decide)
    | cons c a =>
      by_cases hc : c = '\uFEFF'
      · subst hc
        rfl
      · rw [dropBom_cons hc, List.cons_append, dropBom_cons hc]
  rw [lines, lines, lines, fromUtf8_toUtf8, fromUtf8_toUtf8, fromUtf8_toUtf8, hbom,
    (dropBom_eq_iff b).mpr hb, List.splitOn_append_cons_self]

theorem readSections_append {x h : QString} (hx : heading x = some h) (xs ys : List QString) :
    readSections (xs ++ x :: ys) = readSections xs ++ readSections (x :: ys) := by
  have hnone : sessionOf [] (([] : List QString).foldl addLine .empty) = none := rfl
  have hhere : Sections.cut heading [] [] (x :: ys) =
      ([], []) :: Sections.cut heading h [] ys := by
    simp only [Sections.cut, hx]
  rw [readSections, readSections, readSections, Sections.cut_append hx, List.filterMap_append,
    hhere, List.filterMap_cons, hnone]

-- A file that goes on with a heading is imported as the two parts of it are.
theorem parseIni_append (before : QString) (h : Heading) (after : QString) :
    (parseIni (toUtf8 (before ++ '\n' :: (h.line ++ '\n' :: after)))).sessions =
      (parseIni (toUtf8 before)).sessions ++
        (parseIni (toUtf8 (h.line ++ '\n' :: after))).sessions := by
  have hbom : (h.line ++ '\n' :: after).head? ≠ some '\uFEFF' := fun hc =>
    absurd (Option.some.inj hc) (by decide)
  have hheading : heading h.line = some h.name := heading_line h.name
  have hfirst : lines (toUtf8 (h.line ++ '\n' :: after)) =
      h.line :: after.splitOn '\n' := by
    have hline : '\n' ∉ h.line := by
      simp [Heading.line, h.oneLine]
    rw [lines, fromUtf8_toUtf8, (dropBom_eq_iff _).mpr hbom,
      List.splitOn_append_cons_self_of_not_mem hline]
  rw [parseIni_sessions, parseIni_sessions, parseIni_sessions, lines_append _ hbom, hfirst,
    readSections_append hheading]

section Line

variable {key val : QString}

theorem trimmed_registryLine (h : Plain key) (val : QString) :
    ∃ w, trimmed (registryLine (key, val)) = key ++ '=' :: w ∧ trimmed w = trimmed val := by
  obtain ⟨a, b, ha, hb, hval⟩ := exists_trimmed val
  have hline : registryLine (key, val) = key ++ '=' :: (a ++ trimmed val) ++ b := by
    conv_lhs => rw [registryLine, hval]
    simp
  cases hlast : (trimmed val).getLast? with
  | none =>
    have hempty : trimmed val = [] := List.getLast?_eq_none_iff.mp hlast
    refine ⟨[], ?_, hempty.symm⟩
    rw [hline, hempty, List.append_nil, trimmed_back hb, List.append_cons, trimmed_back ha]
    have hflush := trimmed_flush (flush_line h (t := []) (c := '=') (by decide))
    simpa using hflush
  | some c =>
    have hspace : isSpace c = false := getLast?_trimmed hlast
    obtain ⟨u, hu⟩ := List.getLast?_eq_some_iff.mp hlast
    refine ⟨a ++ trimmed val, ?_, ?_⟩
    · have hflush := trimmed_flush (flush_line h (t := '=' :: (a ++ u)) hspace)
      rw [hline, trimmed_back hb, hu]
      simpa using hflush
    · rw [trimmed_front ha, trimmed_flush (flush_trimmed val)]

theorem head?_registryLine (h : Plain key) (val : QString) {c : Char}
    (hc : alphanumeric c = false) : (trimmed (registryLine (key, val))).head? ≠ some c := by
  obtain ⟨w, hw, -⟩ := trimmed_registryLine h val
  obtain ⟨d, hd, hplain⟩ := head?_plain h ('=' :: w)
  rw [hw, hd]
  rintro ⟨⟩
  rw [hc] at hplain
  cases hplain

theorem heading_registryLine (h : Plain key) (val : QString) :
    heading (registryLine (key, val)) = none := by
  rw [heading, if_neg]
  exact fun hbrackets => head?_registryLine h val (by decide) hbrackets.1

theorem addLine_registryLine (h : Plain key) (kv : QMap QString) (val : QString) :
    addLine kv (registryLine (key, val)) = kv.insert key (trimmed val) := by
  obtain ⟨w, hw, hsame⟩ := trimmed_registryLine h val
  obtain ⟨n, hn⟩ : ∃ n, key.length = n + 1 :=
    Nat.exists_eq_succ_of_ne_zero (List.length_eq_zero_iff.not.mpr h.1)
  have hcomment := head?_registryLine h val (c := ';') (by decide)
  have htake : (key ++ '=' :: w).take (n + 1) = key := by rw [← hn, List.take_left]
  have hdrop : (key ++ '=' :: w).drop (n + 2) = w := by
    rw [show n + 2 = key.length + 1 by omega, List.drop_length_add_append]
    rfl
  rw [hw] at hcomment
  have hread : ¬(key ++ '=' :: w = [] ∨ (key ++ '=' :: w).head? = some ';') :=
    not_or.mpr ⟨List.append_ne_nil_of_left_ne_nil h.1 _, hcomment⟩
  rw [addLine, hw]
  simp only [if_neg hread, findIdx?_append_cons (not_mem_plain h).2.2, hn, htake, hdrop, hsame,
    trimmed_plain h]

end Line

def textKeys : List QString := ["HostName", "UserName", "PublicKeyFile"].map String.toList

def numberKeys : List QString := ["PortNumber", "FSProtocol"].map String.toList

-- One session as WinSCP keeps it, in lines of its file and in a key of the registry.
structure SavedSession where
  name : QString
  named : name ≠ []
  oneLine : '\n' ∉ name
  lines : List (QString × QString)
  values : RegKey
  plain : ∀ e ∈ lines, Plain e.1
  unbroken : ∀ e ∈ lines, '\n' ∉ e.2
  texts : ∀ k ∈ textKeys, ∀ v, values.find k = some v → ∃ t, v = .sz t ∧ '\x00' ∉ t ∧ Flush t
  numbers : ∀ k ∈ numberKeys, ∀ v, values.find k = some v → ∃ n, v = .dword n
  written : ∀ k ∈ textKeys ++ numberKeys, ∀ v,
    (k, v) ∈ lines ↔ (values.find k).map RegValue.print = some v

namespace SavedSession

variable (s : SavedSession) {k : QString}

def path : QString := sessionsPath ++ s.name

def body : List QString := s.lines.map registryLine

def key : QString × Option RegKey := (s.name, some s.values)

def settings : QMap QString := s.body.foldl addLine .empty

theorem heading_body : ∀ x ∈ s.body, heading x = none := by
  intro x hx
  obtain ⟨e, he, rfl⟩ := List.mem_map.mp hx
  exact heading_registryLine (s.plain e he) e.2

theorem value_settings (hk : k ∈ textKeys ++ numberKeys) :
    s.settings.value k [] = trimmed (((s.values.find k).map RegValue.print).getD []) := by
  have hfold (kv : QMap QString) : s.lines.foldl (fun kv e => addLine kv (registryLine e)) kv =
      s.lines.foldl (fun kv e => kv.insert e.1 (trimmed e.2)) kv :=
    List.foldl_ext _ _ kv fun kv e he => addLine_registryLine (s.plain e he) kv e.2
  rw [settings, body, List.foldl_map, hfold, QMap.value,
    find_foldl_insert trimmed .empty (s.written k hk)]
  cases (s.values.find k).map RegValue.print <;> rfl

theorem value_text (hk : k ∈ textKeys) : s.settings.value k [] = regStr s.values k := by
  rw [s.value_settings (List.mem_append_left _ hk), regStr]
  cases hv : s.values.find k with
  | none => rfl
  | some v =>
    obtain ⟨t, rfl, hended, hflush⟩ := s.texts k hk v hv
    have hwhole : t.takeWhile (· ≠ '\x00') = t := by
      rw [List.takeWhile_eq_self_iff]
      intro c hc
      simp only [ne_eq, decide_not, Bool.not_eq_true', decide_eq_false_iff_not]
      rintro rfl
      exact hended hc
    exact (trimmed_flush hflush).trans hwhole.symm

theorem value_number (hk : k ∈ numberKeys) :
    (toInt (s.settings.value k [])).getD 0 = regDword s.values k := by
  rw [s.value_settings (List.mem_append_right _ hk), regDword]
  cases hv : s.values.find k with
  | none => rfl
  | some v =>
    obtain ⟨n, rfl⟩ := s.numbers k hk v hv
    change (toInt (trimmed (number n.toInt))).getD 0 = n.toInt
    rw [trimmed_number, toInt_printed]
    rfl

end SavedSession

section Registry

variable (values : RegKey)

theorem value_insertText (kv : QMap QString) (k v j : QString) :
    (insertText kv k v).value j [] = if j = k ∧ v ≠ [] then v else kv.value j [] := by
  unfold insertText
  by_cases hv : v = []
  · rw [if_pos hv, if_neg fun h => h.2 hv]
  · rw [if_neg hv, QMap.value, QMap.find_insert]
    by_cases hj : j = k
    · rw [if_pos hj, if_pos ⟨hj, hv⟩]
      rfl
    · rw [if_neg hj, if_neg fun h => hj h.1]
      rfl

theorem insertText_positive (kv : QMap QString) (k : QString) (p : Int) :
    (if 0 < p then kv.insert k (number p) else kv) = insertText kv k (positive p) := by
  unfold insertText
  by_cases hp : 0 < p
  · have hnumber : positive p = number p := if_pos hp
    rw [if_pos hp, hnumber, if_neg (number_ne_nil_int p)]
  · rw [if_neg hp, if_pos (positive_eq_nil.mpr hp)]

theorem regDword_dword (k : QString) : ∃ n, regDword values k = dword n := by
  unfold regDword
  cases values.find k with
  | none => exact ⟨none, rfl⟩
  | some v =>
    cases v with
    | dword n => exact ⟨some n, rfl⟩
    | sz t => exact ⟨none, rfl⟩
    | other => exact ⟨none, rfl⟩

def registryFields : List (QString × QString) :=
  [("HostName", regStr values "HostName"), ("UserName", regStr values "UserName"),
    ("PublicKeyFile", regStr values "PublicKeyFile"),
    ("PortNumber", positive (regDword values "PortNumber")),
    ("FSProtocol", number (regDword values "FSProtocol"))]

theorem registrySettings_foldl : registrySettings values =
    (registryFields values).foldl (fun kv f => insertText kv f.1 f.2) .empty := by
  have hlast (kv : QMap QString) (k : QString) (p : Int) :
      kv.insert k (number p) = insertText kv k (number p) := (if_neg (number_ne_nil_int p)).symm
  unfold registrySettings
  extract_lets kv₁ kv₂ kv₃ p kv₄
  have hport : kv₄ = insertText kv₃ "PortNumber" (positive p) :=
    insertText_positive kv₃ "PortNumber" p
  rw [hlast, hport]
  rfl

theorem value_foldl_insertText_ne {fs : List (QString × QString)} {k : QString}
    (h : ∀ f ∈ fs, f.1 ≠ k) (kv : QMap QString) :
    (fs.foldl (fun kv f => insertText kv f.1 f.2) kv).value k [] = kv.value k [] := by
  induction fs generalizing kv with
  | nil => rfl
  | cons f fs ih =>
    rw [List.forall_mem_cons] at h
    rw [List.foldl_cons, ih h.2, value_insertText, if_neg fun hk => h.1 hk.1.symm]

-- A key inserted once holds its text.
theorem value_foldl_insertText {fs : List (QString × QString)} (hfs : (fs.map (·.1)).Nodup)
    {kv : QMap QString} {k v : QString} (hkv : kv.value k [] = []) (hmem : (k, v) ∈ fs) :
    (fs.foldl (fun kv f => insertText kv f.1 f.2) kv).value k [] = v := by
  induction fs generalizing kv with
  | nil => exact absurd hmem List.not_mem_nil
  | cons f fs ih =>
    rw [List.map_cons, List.nodup_cons] at hfs
    rw [List.foldl_cons]
    rcases List.mem_cons.mp hmem with rfl | hlater
    · have hother : ∀ f ∈ fs, f.1 ≠ k := fun f hf hk =>
        hfs.1 (List.mem_map.mpr ⟨f, hf, hk⟩)
      rw [value_foldl_insertText_ne hother, value_insertText, hkv]
      simp only [true_and]
      exact ite_eq_left_iff.mpr fun hv => (not_not.mp hv).symm
    · have hne : k ≠ f.1 := fun hk => hfs.1 (hk ▸ List.mem_map_of_mem hlater)
      exact ih hfs.2 ((value_insertText kv f.1 f.2 k).trans (by rw [if_neg fun h => hne h.1, hkv]))
        hlater

theorem value_registrySettings {k v : QString} (hk : (k, v) ∈ registryFields values) :
    (registrySettings values).value k [] = v := by
  rw [registrySettings_foldl]
  exact value_foldl_insertText (by simp [registryFields]) rfl hk

def readings : List (QString × QString) :=
  [("host", regStr values "HostName"), ("port", positive (regDword values "PortNumber")),
    ("username", regStr values "UserName"), ("keyfile", regStr values "PublicKeyFile")]

theorem fields_registrySettings : fields (registrySettings values) = readings values := by
  obtain ⟨n, hn⟩ := regDword_dword values "PortNumber"
  have hport := value_registrySettings values
    (k := "PortNumber") (v := positive (regDword values "PortNumber")) (by simp [registryFields])
  have hagain : positive ((toInt (positive (regDword values "PortNumber"))).getD 0) =
      positive (regDword values "PortNumber") := by
    rw [hn, positive_toInt_positive]
  rw [fields, hport, hagain,
    value_registrySettings values (v := regStr values "HostName") (by simp [registryFields]),
    value_registrySettings values (v := regStr values "UserName") (by simp [registryFields]),
    value_registrySettings values (v := regStr values "PublicKeyFile") (by simp [registryFields])]
  rfl

theorem toInt_regDword (k : QString) : (toInt (number (regDword values k))).getD 0 =
    regDword values k := by
  obtain ⟨n, hn⟩ := regDword_dword values k
  rw [hn]
  cases n with
  | none => decide
  | some n => exact congrArg (Option.getD · 0) (toInt_printed n)

end Registry

section Agreement

variable (s : SavedSession)

theorem sessionFromKv_registry (name : QString) :
    sessionFromKv name s.settings = sessionFromKv name (registrySettings s.values) := by
  have htext {k : QString} (hk : k ∈ textKeys) : s.settings.value k [] = regStr s.values k :=
    s.value_text hk
  have hproto := value_registrySettings s.values
    (k := "FSProtocol") (v := number (regDword s.values "FSProtocol")) (by simp [registryFields])
  have hfields : fields s.settings = fields (registrySettings s.values) := by
    rw [fields_registrySettings, fields, s.value_number (by simp [numberKeys]),
      htext (k := "HostName") (by simp [textKeys]), htext (k := "UserName") (by simp [textKeys]),
      htext (k := "PublicKeyFile") (by simp [textKeys])]
    rfl
  rw [sessionFromKv_fields, sessionFromKv_fields, hfields, hproto, toInt_regDword,
    s.value_number (by simp [numberKeys])]

theorem addKey_sessions (r : SessionFolder) : (addKey r s.key).sessions =
    r.sessions ++ (sessionOf s.path s.settings).toList := by
  have henc : s.path.drop sessionsPath.length = s.name := List.drop_left
  have hpath : sessionsPath <+: s.path := List.prefix_append _ _
  have hhost : s.settings.value "HostName" [] = regStr s.values "HostName" :=
    s.value_text (by simp [textKeys])
  unfold sessionOf addKey SavedSession.key
  simp only [henc, hhost, sessionFromKv_registry]
  by_cases htemplate : s.name = template
  · rw [if_pos htemplate, if_neg fun h => h.2.1 htemplate]
    exact (List.append_nil _).symm
  · rw [if_neg htemplate]
    by_cases hempty : regStr s.values "HostName" = []
    · rw [if_pos hempty, if_neg fun h => h.2.2.2 hempty]
      exact (List.append_nil _).symm
    · rw [if_neg hempty, if_pos ⟨hpath, htemplate, s.named, hempty⟩]
      rfl

theorem foldl_addKey (l : List SavedSession) (r : SessionFolder) :
    ((l.map SavedSession.key).foldl addKey r).sessions =
      r.sessions ++ l.filterMap fun s => sessionOf s.path s.settings := by
  induction l generalizing r with
  | nil => exact (List.append_nil _).symm
  | cons s l ih =>
    rw [List.map_cons, List.foldl_cons, ih, addKey_sessions, List.append_assoc,
      List.filterMap_cons]
    cases sessionOf s.path s.settings <;> rfl

end Agreement

def SavedSession.lineTexts (s : SavedSession) : List QString := ('[' :: s.path ++ [']']) :: s.body

theorem SavedSession.not_mem_lineTexts (s : SavedSession) : ∀ x ∈ s.lineTexts, '\n' ∉ x := by
  intro x hx
  rcases List.mem_cons.mp hx with hhead | hbody
  · have hpath : '\n' ∉ s.path := by
      rw [SavedSession.path, List.mem_append, not_or]
      exact ⟨by decide, s.oneLine⟩
    rw [hhead]
    simp [hpath]
  · obtain ⟨e, he, hline⟩ := List.mem_map.mp hbody
    have hkey := (not_mem_plain (s.plain e he)).1
    have hval := s.unbroken e he
    rw [← hline]
    simp [registryLine, hkey, hval]

def fileLines (l : List SavedSession) : List QString := l.flatMap SavedSession.lineTexts

def fileText (l : List SavedSession) : QString := linesText (fileLines l)

theorem lines_fileText (l : List SavedSession) :
    lines (toUtf8 (fileText l)) = fileLines l ++ [[]] := by
  have hbom : dropBom (fileText l) = fileText l := by
    rw [dropBom_eq_iff]
    cases l with
    | nil => exact nofun
    | cons s l =>
      have hstart : ∃ text, fileText (s :: l) = '[' :: text := by
        rw [fileText, fileLines, List.flatMap_cons, linesText_append]
        exact ⟨_, rfl⟩
      obtain ⟨text, htext⟩ := hstart
      rw [htext]
      exact fun hc => absurd (Option.some.inj hc) (by decide)
  have hunbroken : ∀ x ∈ fileLines l, '\n' ∉ x := by
    intro x hx
    obtain ⟨s, -, hs⟩ := List.mem_flatMap.mp hx
    exact s.not_mem_lineTexts x hs
  rw [lines, fromUtf8_toUtf8, hbom]
  exact splitOn_linesText hunbroken

theorem readSections_fileLines (l : List SavedSession) : readSections (fileLines l) =
    l.filterMap fun s => sessionOf s.path s.settings := by
  have hcut := @Sections.cut_sections _ _ heading (fun name => '[' :: name ++ [']'])
    (l.map fun s => (s.path, s.body)) (fun g _ => heading_line g.1)
    (by
      intro g hg
      obtain ⟨s, -, rfl⟩ := List.mem_map.mp hg
      exact s.heading_body) [] [] (fun x hx => absurd hx List.not_mem_nil)
  rw [List.flatMap_map] at hcut
  rw [readSections, fileLines]
  refine (congrArg (List.filterMap _) hcut).trans ?_
  rw [List.filterMap_cons, List.filterMap_map]
  rfl

theorem imports_agree (l : List SavedSession) :
    (parseIni (toUtf8 (fileText l))).sessions =
      (importFromRegistry (some (l.map SavedSession.key))).sessions := by
  rw [parseIni_sessions, lines_fileText, readSections_blank, readSections_fileLines,
    importFromRegistry, foldl_addKey]
  rfl

-- The settings of one FTP session, in its lines and in its key.
def siteLines : List (QString × QString) := [("HostName", "h"), ("FSProtocol", "5")]

def siteValues : RegKey := [("HostName", .sz "h"), ("FSProtocol", .dword 5)]

theorem filter_siteLines : ∀ k ∈ textKeys ++ numberKeys, (siteLines.filter fun e => e.1 = k) =
    ((siteValues.find k).map fun w => (k, w.print)).toList := by
  decide +kernel

def ftpSite : SavedSession where
  name := "web%20site"
  named := by decide
  oneLine := by decide
  lines := siteLines
  values := siteValues
  plain := by decide
  unbroken := by decide
  texts := by
    intro k hk v hv
    simp only [textKeys, List.map_cons, List.map_nil, List.mem_cons, List.not_mem_nil,
      or_false] at hk
    rcases hk with rfl | rfl | rfl
    · cases hv
      exact ⟨_, rfl, by decide, by decide⟩
    · cases hv
    · cases hv
  numbers := by
    intro k hk v hv
    simp only [numberKeys, List.map_cons, List.map_nil, List.mem_cons, List.not_mem_nil,
      or_false] at hk
    rcases hk with rfl | rfl
    · cases hv
    · cases hv
      exact ⟨_, rfl⟩
  written := by
    intro k hk v
    have hline : (k, v) ∈ siteLines ↔ (k, v) ∈ siteLines.filter fun e => e.1 = k := by
      simp
    rw [hline, filter_siteLines k hk]
    cases siteValues.find k with
    | none => simp
    | some w => simp [eq_comm]

example : (parseIni (toUtf8 (fileText [ftpSite]))).sessions =
    [Session.setHost ⟨"web site", .ftp, .empty⟩ "h"] := by decide +kernel

end Core.WinScpImporter
