import MacXterm.Core.Readings
import MacXterm.Core.SessionTree
import MacXterm.Qt.Number
import MacXterm.Qt.Words

namespace Core

open Qt SerialConnection Session

namespace PuttyImporter

-- Where the key of a line ends: at the first backslash or equals sign.
def separator (line : QString) : Option Nat :=
  match line.findIdx? (· == '\\'), line.findIdx? (· == '=') with
  | some sep, some eq => if eq < sep then some eq else some sep
  | some sep, none => some sep
  | none, eq => eq

def insertLine (kv : QMap QString) (raw : QString) : QMap QString :=
  let line := trimmed raw
  match separator line with
  | none => kv
  | some 0 => kv
  | some (n + 1) =>
      let val := line.drop (n + 2)
      let val := if val.getLast? = some '\\' then val.dropLast else val
      kv.insert (trimmed (line.take (n + 1))) (trimmed val)

def readSettings (settings : QByteArray) : QMap QString :=
  ((fromUtf8 settings).splitOn '\n').foldl insertLine .empty

def value (kv : QMap QString) (key : QString) : QString := kv.value key []

def protocolType (kv : QMap QString) : SessionType :=
  let proto := toLower (value kv "Protocol")
  if proto = ("telnet" : String) ∨ proto = ("raw" : String) then .telnet
  else if proto = ("rlogin" : String) then .rlogin
  else if proto = ("serial" : String) then .serial
  else .ssh

-- The proxy as [user@]host[:port].
def gateway (kv : QMap QString) : QString :=
  let gw := value kv "ProxyHost"
  let pp := value kv "ProxyPort"
  let gw := if pp ≠ [] ∧ pp ≠ ("0" : String) then gw ++ ':' :: pp else gw
  let pu := value kv "ProxyUsername"
  if pu = [] then gw else pu ++ '@' :: gw

def setText (s : Session) (key value : QString) : Session :=
  if value = [] then s else s.setParam key value

def parseSession (name : QString) (settings : QByteArray) : Session :=
  let kv := readSettings settings
  let type := protocolType kv
  let s : Session := ⟨name, type, .empty⟩
  let s := setText s "host" (value kv "HostName")
  let p := (toInt (value kv "PortNumber")).getD 0
  let s := if 0 < p then s.setPort p else s
  let s := setText s "username" (value kv "UserName")
  let s := setText s "keyfile" (value kv "PublicKeyFile")
  let s := if value kv "Compression" = ("1" : String) then s.setParam "compression" "1" else s
  let s := if value kv "ProxyHost" = [] then s else s.setParam "gateway" (gateway kv)
  if type = .serial then
    let s := setText s "port" (value kv "SerialLine")
    let b := (toInt (value kv "SerialSpeed")).getD 0
    if 0 < b then s.setParam "baud" (number b) else s
  else s

section Params

variable {s : Session}

@[simp]
theorem type_setText (s : Session) (key v : QString) : (setText s key v).type = s.type := by
  unfold setText
  split <;> rfl

theorem param_setText_ne {key v k : QString} (h : k ≠ key) :
    (setText s key v).param k = s.param k := by
  unfold setText
  split
  · rfl
  · exact param_setParam_ne h

theorem param_setText_self {key v : QString} (h : s.param key = []) :
    (setText s key v).param key = v := by
  unfold setText
  split
  · rename_i hv
    rw [h, hv]
  · exact param_setParam_self s key v

end Params

def positive (n : Int) : QString := if 0 < n then number n else []

section Fields

variable {s : Session} {kv : QMap QString}

theorem positive_eq_nil {n : Int} : positive n = [] ↔ ¬0 < n := by
  unfold positive
  split
  · rename_i hpos
    exact iff_of_false (number_ne_nil_int n) (not_not.mpr hpos)
  · rename_i hpos
    exact iff_of_true rfl hpos

theorem setText_ite (c : Prop) [Decidable c] {key v : QString} (hv : v ≠ []) :
    (if c then s.setParam key v else s) = setText s key (if c then v else []) := by
  unfold setText
  by_cases hc : c
  · simp [hc, hv]
  · simp [hc]

theorem gateway_ne_nil (h : value kv "ProxyHost" ≠ []) : gateway kv ≠ [] := by
  simp only [gateway]
  have hplain (w : QString) : value kv "ProxyHost" ++ w ≠ [] := List.append_ne_nil_of_left_ne_nil h w
  split
  · split
    · exact hplain _
    · exact h
  · exact List.append_ne_nil_of_right_ne_nil _ (List.cons_ne_nil _ _)

def fields (kv : QMap QString) : List (QString × QString) :=
  let serial := protocolType kv = .serial
  [("host", value kv "HostName"),
    ("port", positive ((toInt (value kv "PortNumber")).getD 0)),
    ("username", value kv "UserName"), ("keyfile", value kv "PublicKeyFile"),
    ("compression", if value kv "Compression" = ("1" : String) then "1".toList else []),
    ("gateway", if value kv "ProxyHost" = [] then [] else gateway kv),
    ("port", if serial then value kv "SerialLine" else []),
    ("baud", if serial then positive ((toInt (value kv "SerialSpeed")).getD 0) else [])]

theorem setText_positive (s : Session) (key : QString) (n : Int) :
    (if 0 < n then s.setParam key (number n) else s) = setText s key (positive n) := by
  unfold setText
  by_cases hn : 0 < n
  · rw [if_pos hn, if_neg (positive_eq_nil.not.mpr (not_not.mpr hn)), positive, if_pos hn]
  · rw [if_neg hn, if_pos (positive_eq_nil.mpr hn)]

theorem setText_gateway (s : Session) (kv : QMap QString) :
    (if value kv "ProxyHost" = [] then s else s.setParam "gateway" (gateway kv)) =
      setText s "gateway" (if value kv "ProxyHost" = [] then [] else gateway kv) := by
  unfold setText
  split
  · rfl
  · rename_i h
    rw [if_neg (gateway_ne_nil h)]

theorem parseSession_fields (name : QString) (settings : QByteArray) :
    parseSession name settings =
      (fields (readSettings settings)).foldl (fun s f => setText s f.1 f.2)
        ⟨name, protocolType (readSettings settings), .empty⟩ := by
  have hone : "1".toList ≠ [] := by decide
  unfold parseSession
  extract_lets kv type s₀ s₁ p s₂ s₃ s₄ s₅ s₆ s₇ b
  have hport : s₂ = setText s₁ "port" (positive p) := setText_positive s₁ "port" p
  have hcompression : s₅ = setText s₄ "compression" _ := setText_ite _ hone
  have hgateway : s₆ = setText s₅ "gateway" _ := setText_gateway s₅ kv
  -- The settings before the serial ones do not depend on the protocol.
  have hshared : s₆ = ((fields kv).take 6).foldl (fun s f => setText s f.1 f.2) s₀ := by
    rw [hgateway, hcompression]
    simp only [s₄, s₃, hport]
    rfl
  have hserials : (fields kv).drop 6 =
      [("port".toList, if type = .serial then value kv "SerialLine" else []),
        ("baud".toList, if type = .serial then positive b else [])] := rfl
  change _ = (fields kv).foldl _ s₀
  rw [← List.take_append_drop 6 (fields kv), List.foldl_append, ← hshared, hserials,
    List.foldl_cons, List.foldl_cons, List.foldl_nil]
  by_cases hserial : type = .serial
  · rw [if_pos hserial, if_pos hserial, if_pos hserial, setText_positive]
  · have hnil (s : Session) (key : QString) : setText s key [] = s := if_pos rfl
    rw [if_neg hserial, if_neg hserial, if_neg hserial, hnil, hnil]

theorem parseSession_type (name : QString) (settings : QByteArray) :
    (parseSession name settings).type = protocolType (readSettings settings) := by
  have hfold (es : List (QString × QString)) (s : Session) :
      (es.foldl (fun s f => setText s f.1 f.2) s).type = s.type := by
    induction es generalizing s with
    | nil => rfl
    | cons e es ih => rw [List.foldl_cons, ih, type_setText]
  rw [parseSession_fields]
  exact hfold _ _

theorem param_foldl_ne {es : List (QString × QString)} {k : QString} (h : ∀ e ∈ es, e.1 ≠ k) :
    (es.foldl (fun s f => setText s f.1 f.2) s).param k = s.param k := by
  induction es generalizing s with
  | nil => rfl
  | cons e es ih =>
    rw [List.forall_mem_cons] at h
    rw [List.foldl_cons, ih h.2, param_setText_ne (Ne.symm h.1)]

-- A key set once holds its value.
theorem param_foldl {es : List (QString × QString)} {k v : QString} (hs : s.param k = [])
    (h : es.filter (fun e => e.1 = k) = [(k, v)]) :
    (es.foldl (fun s f => setText s f.1 f.2) s).param k = v := by
  induction es generalizing s with
  | nil => exact absurd h nofun
  | cons e es ih =>
    rw [List.filter_cons] at h
    by_cases he : e.1 = k
    · rw [if_pos (by simpa using he)] at h
      obtain ⟨rfl, hrest⟩ := List.cons.inj h
      have hlater : ∀ e ∈ es, e.1 ≠ k := by simpa using hrest
      rw [List.foldl_cons, param_foldl_ne hlater, param_setText_self hs]
    · rw [if_neg (by simpa using he)] at h
      exact ih ((param_setText_ne (Ne.symm he)).trans hs) h

theorem param_host (name : QString) (settings : QByteArray) :
    (parseSession name settings).param "host" = value (readSettings settings) "HostName" := by
  rw [parseSession_fields]
  exact param_foldl rfl rfl

theorem param_username (name : QString) (settings : QByteArray) :
    (parseSession name settings).param "username" = value (readSettings settings) "UserName" := by
  rw [parseSession_fields]
  exact param_foldl rfl rfl

theorem param_keyfile (name : QString) (settings : QByteArray) :
    (parseSession name settings).param "keyfile" =
      value (readSettings settings) "PublicKeyFile" := by
  rw [parseSession_fields]
  exact param_foldl rfl rfl

theorem param_compression (name : QString) (settings : QByteArray) :
    (parseSession name settings).param "compression" =
      if value (readSettings settings) "Compression" = ("1" : String) then "1".toList else [] := by
  rw [parseSession_fields]
  exact param_foldl rfl rfl

theorem param_proxy (name : QString) (settings : QByteArray) :
    (parseSession name settings).param "gateway" =
      if value (readSettings settings) "ProxyHost" = [] then []
      else gateway (readSettings settings) := by
  rw [parseSession_fields]
  exact param_foldl rfl rfl

theorem param_gateway (name : QString) {settings : QByteArray}
    (h : value (readSettings settings) "ProxyHost" ≠ []) :
    (parseSession name settings).param "gateway" = gateway (readSettings settings) := by
  rw [param_proxy, if_neg h]

theorem param_gateway_user (name : QString) (settings : QByteArray) :
    (parseSession name settings).param "gateway_user" = [] := by
  have hkeys : ∀ e ∈ fields (readSettings settings), e.1 ≠ "gateway_user".toList := by
    simp only [fields, List.forall_mem_cons, List.not_mem_nil, false_imp_iff, implies_true,
      and_true]
    decide
  rw [parseSession_fields, param_foldl_ne hkeys]
  rfl

theorem param_setText (s : Session) (key v : QString) :
    (setText s key v).param key = if v = [] then s.param key else v := by
  unfold setText
  split
  · rfl
  · exact Session.param_setParam_self s key v

theorem param_serialLine (name : QString) {settings : QByteArray}
    (h : protocolType (readSettings settings) = .serial) :
    (parseSession name settings).param "port" =
      if value (readSettings settings) "SerialLine" = [] then
        positive ((toInt (value (readSettings settings) "PortNumber")).getD 0)
      else value (readSettings settings) "SerialLine" := by
  rw [parseSession_fields]
  simp (disch := decide) only [fields, List.foldl_cons, List.foldl_nil, param_setText_ne]
  rw [param_setText, if_pos h]
  simp (disch := decide) only [param_setText_ne]
  rw [param_setText_self]
  simp (disch := decide) only [param_setText_ne]
  rfl

end Fields

end PuttyImporter

end Core
