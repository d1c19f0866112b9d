import MacXterm.Core.Session
import MacXterm.Qt.Number

namespace Core

open Qt

def kCoreFields : List QString := ["name", "type", "host", "port", "username"]

namespace SessionForm

structure AdvancedOptions where
  compression : Bool
  x11 : Bool
  agent : Bool
  agentForward : Bool
  sshKeepalive : Int
  sshRemoteCommand : QString
  sshStayOpen : Bool
  gatewayUser : QString
  gatewayPassword : QString
  gatewayPassphrase : QString
  domain : QString
  rdpWidth : Int
  rdpHeight : Int
  rdpClipboard : Bool
  rdpDrives : Bool
  rdpAudio : Bool
  rdpNla : Bool
  rdpIgnoreCert : Bool
  vncViewOnly : Bool

def passThrough (f : QMap QString) (s : Session) : Session :=
  f.entries.foldl (fun s e => if e.1 ∈ kCoreFields then s else s.setParam e.1 e.2) s

def toSession (f : QMap QString) : Session :=
  let s : Session := ⟨f.value "name" [], sessionTypeFromString (f.value "type" []), .empty⟩
  let s := if f.contains "host" then s.setHost (f.value "host" []) else s
  let s := if f.contains "username" then s.setUsername (f.value "username" []) else s
  let s := if f.contains "port" then
      match variantToInt (f.value "port" []) with
      | some p => if 0 < p then s.setPort p else s
      | none => s
    else s
  passThrough f s

def fromSession (s : Session) : QMap QString :=
  let f : QMap QString := .empty
  let f := f.insert "name" s.name
  let f := f.insert "type" (sessionTypeToString s.type)
  let f := f.insert "host" s.host
  let f := f.insert "username" s.username
  let f := f.insertIf (s.params.contains "port") "port" (s.param "port")
  s.params.entries.foldl (fun f e => if e.1 ∈ kCoreFields then f else f.insert e.1 e.2) f

def applyAdvanced (f : QMap QString) (type : SessionType) (hasGateway : Bool)
    (o : AdvancedOptions) : QMap QString :=
  let f := if type = .ssh then
      let f := f.insertIf o.compression "compression" "1"
      let f := f.insertIf (!o.x11) "x11" "0"
      let f := f.insertIf o.agent "agent" "1"
      let f := f.insertIf o.agentForward "agentforward" "1"
      let f := f.insertIf (o.sshKeepalive > 0) "keepalive" (number o.sshKeepalive)
      let f := f.insertIf (o.sshRemoteCommand ≠ []) "remotecommand" o.sshRemoteCommand
      f.insertIf o.sshStayOpen "stayopen" "1"
    else f
  let f := if hasGateway then
      let f := f.insertIf (o.gatewayUser ≠ []) "gateway_user" o.gatewayUser
      let f := f.insertIf (o.gatewayPassword ≠ []) "gateway_password" o.gatewayPassword
      f.insertIf (o.gatewayPassphrase ≠ []) "gateway_passphrase" o.gatewayPassphrase
    else f
  let f := if type = .rdp then
      let f := f.insertIf (o.domain ≠ []) "domain" o.domain
      let f := if o.rdpWidth > 0 ∧ o.rdpHeight > 0 then
          (f.insert "width" (number o.rdpWidth)).insert "height" (number o.rdpHeight)
        else f
      let f := f.insertIf (!o.rdpClipboard) "redirect_clipboard" "0"
      let f := f.insertIf o.rdpDrives "redirect_drives" "1"
      let f := f.insertIf o.rdpAudio "redirect_audio" "1"
      let f := f.insertIf (!o.rdpNla) "nla" "0"
      f.insertIf o.rdpIgnoreCert "ignorecert" "1"
    else f
  if type = .vnc then f.insertIf o.vncViewOnly "viewonly" "1" else f

def validate (f : QMap QString) : QString :=
  if trimmed (f.value "name" []) = [] then "Session name is required"
  else
    let t := sessionTypeFromString (f.value "type" [])
    if t = .unknown then "Unknown session type"
    else
      let needsHost : Bool := t ≠ .shell ∧ t ≠ .serial
      if needsHost ∧ trimmed (f.value "host" []) = [] then
        "Host is required for this session type"
      else if t = .serial ∧ trimmed (f.value "port" []) = [] then "Serial port is required"
      else []

theorem name_of_validate {f : QMap QString} (h : validate f = []) : f.value "name" [] ≠ [] := by
  intro hn
  have hv : validate f = "Session name is required".toList := by
    unfold validate
    rw [hn]
    rfl
  rw [hv] at h
  exact absurd h (by decide)

theorem find_foldl_insert (es : List (QString × QString)) (f : QMap QString) (k : QString)
    (h : es.Pairwise fun a b => units a.1 < units b.1) :
    (es.foldl (fun f e => if e.1 ∈ kCoreFields then f else f.insert e.1 e.2) f).find k =
      if k ∈ kCoreFields then f.find k else (es.lookup k).or (f.find k) := by
  induction es generalizing f with
  | nil => simp
  | cons e es ih =>
    obtain ⟨he, hes⟩ := List.pairwise_cons.mp h
    rw [List.foldl_cons, ih _ hes, QMap.lookup_entry]
    by_cases hke : k = e.1
    · have hlater : es.lookup k = none := QMap.lookup_later (hke ▸ he)
      rw [hlater, ← hke]
      by_cases hk : k ∈ kCoreFields <;> simp [hk]
    · by_cases hcore : e.1 ∈ kCoreFields <;> simp [hcore, hke]

theorem params_foldl_passThrough (es : List (QString × QString)) (s : Session) :
    (es.foldl (fun s e => if e.1 ∈ kCoreFields then s else s.setParam e.1 e.2) s).params =
      es.foldl (fun f e => if e.1 ∈ kCoreFields then f else f.insert e.1 e.2) s.params := by
  induction es generalizing s with
  | nil => rfl
  | cons e es ih =>
    rw [List.foldl_cons, List.foldl_cons, ih]
    split
    · rfl
    · rfl

theorem find_foldl_passThrough (es : List (QString × QString)) (s : Session) (k : QString)
    (hk : k ∉ kCoreFields) (h : es.Pairwise fun a b => units a.1 < units b.1) :
    (es.foldl (fun s e => if e.1 ∈ kCoreFields then s else s.setParam e.1 e.2) s).params.find k =
      (es.lookup k).or (s.params.find k) := by
  rw [params_foldl_passThrough, find_foldl_insert _ _ _ h, if_neg hk]

theorem foldl_passThrough_keeps {β : Type} (g : Session → β)
    (hg : ∀ s key value, g (s.setParam key value) = g s) (es : List (QString × QString))
    (s : Session) :
    g (es.foldl (fun s e => if e.1 ∈ kCoreFields then s else s.setParam e.1 e.2) s) = g s := by
  induction es generalizing s with
  | nil => rfl
  | cons e es ih =>
    rw [List.foldl_cons, ih]
    split
    · rfl
    · exact hg s e.1 e.2

theorem toSession_keeps {β : Type} (g : Session → β)
    (hg : ∀ s key value, g (s.setParam key value) = g s) (f : QMap QString) :
    g (toSession f) =
      g ⟨f.value "name" [], sessionTypeFromString (f.value "type" []), .empty⟩ := by
  simp only [toSession, passThrough, foldl_passThrough_keeps g hg]
  split <;> split <;> split <;> (try split) <;> (try split) <;>
    simp only [Session.setHost, Session.setUsername, Session.setPort, hg]

theorem toSession_name (f : QMap QString) : (toSession f).name = f.value "name" [] :=
  toSession_keeps Session.name (fun _ _ _ => rfl) f

theorem toSession_type (f : QMap QString) :
    (toSession f).type = sessionTypeFromString (f.value "type" []) :=
  toSession_keeps Session.type (fun _ _ _ => rfl) f

theorem toSession_find (f : QMap QString) (k : QString) (hk : k ∉ kCoreFields) :
    (toSession f).params.find k = f.find k := by
  simp only [toSession, passThrough]
  rw [find_foldl_passThrough _ _ _ hk f.sorted]
  have honly {s : Session} (hs : s.params.find k = none) :
      (f.entries.lookup k).or (s.params.find k) = f.find k := by
    rw [hs, Option.or_none]
    rfl
  apply honly
  simp only [kCoreFields, List.mem_cons, not_or] at hk
  obtain ⟨-, -, hhost, hport, huser, -⟩ := hk
  split <;> split <;> split <;> (try split) <;> (try split) <;>
    simp only [Session.setHost, Session.setUsername, Session.setPort,
      Session.find_setParam, if_neg hhost, if_neg huser, if_neg hport, QMap.find_empty,
      -String.reduceToList]

theorem find_foldl_passThrough_core (es : List (QString × QString)) (s : Session) (k : QString)
    (hk : k ∈ kCoreFields) :
    (es.foldl (fun s e => if e.1 ∈ kCoreFields then s else s.setParam e.1 e.2) s).params.find k =
      s.params.find k := by
  induction es generalizing s with
  | nil => rfl
  | cons e es ih =>
    rw [List.foldl_cons, ih]
    split
    · rfl
    · rename_i he
      rw [Session.find_setParam, if_neg]
      rintro rfl
      exact he hk

def portField (f : QMap QString) : Option QString :=
  (((f.find "port").bind variantToInt).filter (0 < ·)).map number

theorem find_setPort (f : QMap QString) (s : Session) (k : QString)
    (hs : s.params.find "port" = none) :
    (if f.contains "port" then
      match variantToInt (f.value "port" []) with
      | some p => if 0 < p then s.setPort p else s
      | none => s
    else s).params.find k = if k = "port".toList then portField f else s.params.find k := by
  have hkeep (h : portField f = none) :
      s.params.find k = if k = "port".toList then portField f else s.params.find k := by
    split
    · rename_i hk
      rw [hk, hs, h]
    · rfl
  unfold QMap.contains QMap.value
  cases hf : f.find "port" with
  | none => exact hkeep (by rw [portField, hf]; rfl)
  | some v =>
    simp only [Option.isSome_some, if_true, Option.getD_some]
    cases hv : variantToInt v with
    | none => exact hkeep (by rw [portField, hf, Option.bind_some, hv]; rfl)
    | some p =>
      by_cases hp : 0 < p
      · have hfield : portField f = some (number p) := by
          rw [portField, hf, Option.bind_some, hv, Option.filter_some, if_pos (decide_eq_true hp)]
          rfl
        simp only [if_pos hp, Session.setPort, Session.find_setParam, hfield]
      · simp only [if_neg hp]
        refine hkeep ?_
        rw [portField, hf, Option.bind_some, hv, Option.filter_some, if_neg (by simpa using hp)]
        rfl

theorem find_setParamIf (c : Bool) (s : Session) (key value k : QString) :
    (if c then s.setParam key value else s).params.find k =
      if c ∧ k = key then some value else s.params.find k := by
  cases c <;> simp

theorem some_value {f : QMap QString} {k : QString} (h : f.contains k = true) :
    some (f.value k []) = f.find k := by
  obtain ⟨v, hv⟩ := Option.isSome_iff_exists.mp h
  rw [QMap.value, hv, Option.getD_some]

theorem find_none {f : QMap QString} {k : QString} (h : ¬f.contains k = true) :
    f.find k = none := by
  simpa [QMap.contains] using h

theorem toSession_find_core (f : QMap QString) {k : QString} (hk : k ∈ kCoreFields) :
    (toSession f).params.find k =
      if k = "port".toList then portField f
      else if k = "host".toList ∨ k = "username".toList then f.find k else none := by
  have huserHost : "username".toList ≠ "host".toList := by decide
  simp only [toSession, passThrough, Session.setHost, Session.setUsername]
  rw [find_foldl_passThrough_core _ _ _ hk, find_setPort, find_setParamIf, find_setParamIf]
  · congr 1
    by_cases huser : k = "username".toList
    · by_cases hc : f.contains "username" = true
      · rw [if_pos ⟨hc, huser⟩, if_pos (.inr huser), some_value hc, huser]
      · rw [if_neg fun h => hc h.1, if_neg fun h => huserHost (huser.symm.trans h.2),
          if_pos (.inr huser), huser, find_none hc]
        rfl
    · rw [if_neg fun h => huser h.2]
      by_cases hhost : k = "host".toList
      · by_cases hc : f.contains "host" = true
        · rw [if_pos ⟨hc, hhost⟩, if_pos (.inl hhost), some_value hc, hhost]
        · rw [if_neg fun h => hc h.1, if_pos (.inl hhost), hhost, find_none hc]
          rfl
      · rw [if_neg fun h => hhost h.2, if_neg fun h => h.elim hhost huser]
        rfl
  · rw [find_setParamIf, find_setParamIf, if_neg fun h => absurd h.2 (by decide),
      if_neg fun h => absurd h.2 (by decide)]
    rfl

theorem fromSession_find (s : Session) {k : QString} (hk : k ∉ kCoreFields) :
    (fromSession s).find k = s.params.find k := by
  rw [fromSession, find_foldl_insert _ _ _ s.params.sorted, if_neg hk]
  simp only [kCoreFields, List.mem_cons, not_or] at hk
  obtain ⟨hname, htype, hhost, hport, huser, -⟩ := hk
  simp only [QMap.find_insertIf, QMap.find_insert, hname, htype, hhost, hport, huser,
    and_false, if_false, QMap.find_empty, Option.or_none, -String.reduceToList]
  rfl

theorem toSession_fromSession_find (s : Session) {k : QString} (hk : k ∉ kCoreFields) :
    (toSession (fromSession s)).params.find k = s.params.find k := by
  rw [toSession_find _ _ hk, fromSession_find s hk]

theorem fromSession_find_core (s : Session) {k : QString} (hk : k ∈ kCoreFields)
    (hport : k ≠ "port".toList) :
    (fromSession s).find k =
      if k = "username".toList then some s.username
      else if k = "host".toList then some s.host
      else if k = "type".toList then some (sessionTypeToString s.type)
      else if k = "name".toList then some s.name else none := by
  rw [fromSession, find_foldl_insert _ _ _ s.params.sorted, if_pos hk, QMap.find_insertIf,
    if_neg fun h => hport h.2]
  simp only [QMap.find_insert, QMap.find_empty, -String.reduceToList]

theorem fromSession_given (s : Session) {k : QString}
    (hk : k = "host".toList ∨ k = "username".toList) :
    (fromSession s).find k = some (s.param k) := by
  rcases hk with rfl | rfl
  · rw [fromSession_find_core s (by decide) (by decide)]
    rfl
  · rw [fromSession_find_core s (by decide) (by decide)]
    rfl

theorem fromSession_port (s : Session) : (fromSession s).find "port" = s.params.find "port" := by
  have hcore : "port".toList ∈ kCoreFields := by decide
  rw [fromSession, find_foldl_insert _ _ _ s.params.sorted, if_pos hcore, QMap.find_insertIf]
  cases hport : s.params.find "port" with
  | none =>
    rw [QMap.contains, hport, if_neg fun h => absurd h.1 (by decide)]
    simp only [QMap.find_insert, -String.reduceToList]
    rfl
  | some v =>
    rw [QMap.contains, hport, if_pos ⟨rfl, rfl⟩, Session.param_eq, hport, Option.getD_some]

theorem fromSession_core (s : Session) {k : QString} (hk : k ∈ kCoreFields) :
    (fromSession s).value k [] =
      if k = "name".toList then s.name
      else if k = "type".toList then sessionTypeToString s.type else s.param k := by
  simp only [kCoreFields, List.mem_cons, List.not_mem_nil, or_false] at hk
  rcases hk with rfl | rfl | rfl | rfl | rfl
  · rw [QMap.value, fromSession_find_core s (by decide) (by decide)]
    rfl
  · rw [QMap.value, fromSession_find_core s (by decide) (by decide)]
    rfl
  · rw [QMap.value, fromSession_given s (.inl rfl)]
    rfl
  · rw [QMap.value, fromSession_port]
    rfl
  · rw [QMap.value, fromSession_given s (.inr rfl)]
    rfl

end SessionForm

end Core
