import MacXterm.Ui.ImportedGateway

namespace Ui

open Qt Core Connect

structure LocalTunnel where
  bindAddr : QString
  bindPort : Int
  targetHost : QString
  targetPort : Int

-- What SshTunnel::start gives: whether it starts, and where it listens.
structure TunnelOutcome where
  starts : Bool
  listenPort : UInt16

structure Routing where
  started : Option (Session × LocalTunnel)
  routed : Session

namespace MainWindow

-- The optional credentials of the gateway, else the password of the target.
def addCredentials (session gwSess : Session) : Session :=
  let gwSess :=
    if session.param "gateway_password" ≠ [] then
      gwSess.setParam "password" (session.param "gateway_password")
    else if session.param "password" ≠ [] then
      gwSess.setParam "password" (session.param "password")
    else gwSess
  let gwSess :=
    if session.param "gateway_keyfile" ≠ [] then
      gwSess.setParam "keyfile" (session.param "gateway_keyfile")
    else gwSess
  if session.param "gateway_passphrase" ≠ [] then
    gwSess.setParam "passphrase" (session.param "gateway_passphrase")
  else gwSess

def gatewaySession (session : Session) : Session :=
  let spec := session.param "gateway"
  let (gwUser, spec) := match cutAt '@' spec with
    | some (user, rest) => (user, rest)
    | none => (session.username, spec)
  let (gwHost, gwPort) := match cutAt ':' spec with
    | some (host, port) =>
        let gwPort := (toInt port).getD 0
        (host, if gwPort ≤ 0 then 22 else gwPort)
    | none => (spec, 22)
  let gwUser := if session.param "gateway_user" ≠ [] then session.param "gateway_user" else gwUser
  let gwSess : Session := ⟨gwHost, .ssh, .empty⟩
  let gwSess := gwSess.setHost gwHost
  let gwSess := gwSess.setPort gwPort
  let gwSess := gwSess.setUsername gwUser
  addCredentials session gwSess

def resolveGateway (o : TunnelOutcome) (session : Session) : Routing :=
  if session.param "gateway" = [] then ⟨none, session⟩
  else
    let gwSess := gatewaySession session
    let t : LocalTunnel := ⟨"127.0.0.1", 0, session.host, u16 session.port⟩
    if o.starts = false ∨ o.listenPort = 0 then ⟨some (gwSess, t), session⟩
    else ⟨some (gwSess, t), (session.setHost "127.0.0.1").setPort o.listenPort.toNat⟩

end MainWindow

-- The gateway that an SSH session for it connects to.
def gatewayOf (gwSess : Session) : Gateway := ⟨gwSess.username, gwSess.host, gwSess.port⟩

-- Both readers of the spec give back what the settings say.
structure SpecKept (w : MainWindow) (name : QString) (settings : QByteArray) : Prop where
  absent : PuttyImporter.value (PuttyImporter.readSettings settings) "ProxyHost" = [] →
    ∀ o, (MainWindow.resolveGateway o
      (w.resolveSecrets (PuttyImporter.parseSession name settings))).started = none
  openViaJump : PuttyImporter.value (PuttyImporter.readSettings settings) "ProxyHost" ≠ [] →
    (Spec.ofPutty (PuttyImporter.readSettings settings)).Means
      (PuttyImporter.value (PuttyImporter.readSettings settings) "UserName")
      (Gateway.ofSession (w.resolveSecrets (PuttyImporter.parseSession name settings)))
  resolveGateway : PuttyImporter.value (PuttyImporter.readSettings settings) "ProxyHost" ≠ [] →
    ∀ o, ∃ gwSess t, (MainWindow.resolveGateway o
        (w.resolveSecrets (PuttyImporter.parseSession name settings))).started = some (gwSess, t) ∧
      (Spec.ofPutty (PuttyImporter.readSettings settings)).Means
        (PuttyImporter.value (PuttyImporter.readSettings settings) "UserName") (gatewayOf gwSess)

section GatewaySession

variable {s gwSess : Session} {k : QString}

theorem addCredentials_param (hpassword : k ≠ "password".toList) (hkeyfile : k ≠ "keyfile".toList)
    (hpassphrase : k ≠ "passphrase".toList) :
    (MainWindow.addCredentials s gwSess).param k = gwSess.param k := by
  have hfirst : (if s.param "gateway_password" ≠ [] then
        gwSess.setParam "password" (s.param "gateway_password")
      else if s.param "password" ≠ [] then gwSess.setParam "password" (s.param "password")
      else gwSess).param k = gwSess.param k := by
    split
    · exact Session.param_setParam_ne hpassword
    · exact Session.param_ite_ne hpassword
  rw [MainWindow.addCredentials, Session.param_ite_ne hpassphrase, Session.param_ite_ne hkeyfile]
  exact hfirst

theorem address_eq (spec : QString) : Gateway.address spec =
    match cutAt ':' spec with
    | some (host, port) =>
        (host, if (toInt port).getD 0 ≤ 0 then 22 else (toInt port).getD 0)
    | none => (spec, 22) := rfl

theorem gatewaySession_eq (s : Session) : MainWindow.gatewaySession s =
    MainWindow.addCredentials s
      (((⟨(Gateway.ofSession s).host, .ssh, .empty⟩ : Session).setHost
        (Gateway.ofSession s).host).setPort (Gateway.ofSession s).port |>.setUsername
        (Gateway.ofSession s).user) := by
  have hflip (a b : QString) : (if a ≠ [] then a else b) = if a = [] then b else a := ite_not ..
  unfold MainWindow.gatewaySession Gateway.ofSession
  simp only [hflip, address_eq]
  cases cutAt '@' (s.param "gateway") with
  | none => rfl
  | some r => rfl

theorem port_ofSession (s : Session) :
    0 < (Gateway.ofSession s).port ∧ (Gateway.ofSession s).port < 2 ^ 31 := by
  have haddress (spec : QString) :
      0 < (Gateway.address spec).2 ∧ (Gateway.address spec).2 < 2 ^ 31 := by
    rw [address_eq]
    cases cutAt ':' spec with
    | none =>
      dsimp only
      decide
    | some r =>
      have hlt := getD_toInt_lt r.2
      dsimp only
      split
      · decide
      · omega
  simp only [Gateway.ofSession]
  cases cutAt '@' (s.param "gateway") with
  | none => exact haddress _
  | some r => exact haddress _

theorem gatewayOf_gatewaySession (s : Session) :
    gatewayOf (MainWindow.gatewaySession s) = Gateway.ofSession s := by
  obtain ⟨hpos, hlt⟩ := port_ofSession s
  have hport : (MainWindow.gatewaySession s).param "port" = number (Gateway.ofSession s).port := by
    rw [gatewaySession_eq, addCredentials_param (by decide) (by decide) (by decide),
      Session.setUsername, Session.param_setParam_ne (by decide), Session.setPort,
      Session.param_setParam_self]
  have hhost : (MainWindow.gatewaySession s).host = (Gateway.ofSession s).host := by
    rw [Session.host, gatewaySession_eq, addCredentials_param (by decide) (by decide) (by decide),
      Session.setUsername, Session.param_setParam_ne (by decide), Session.setPort,
      Session.param_setParam_ne (by decide), Session.setHost, Session.param_setParam_self]
  have huser : (MainWindow.gatewaySession s).username = (Gateway.ofSession s).user := by
    rw [Session.username, gatewaySession_eq,
      addCredentials_param (by decide) (by decide) (by decide), Session.setUsername,
      Session.param_setParam_self]
  rw [gatewayOf, huser, hhost, Session.port, hport, toInt_number_int (by omega) hlt]

end GatewaySession

section Imported

variable {w : MainWindow} {name : QString} {settings : QByteArray}

theorem gateway_absent
    (h : PuttyImporter.value (PuttyImporter.readSettings settings) "ProxyHost" = []) :
    (PuttyImporter.parseSession name settings).param "gateway" = [] := by
  rw [PuttyImporter.param_proxy, if_pos h]

theorem started_gateway (w : MainWindow) (name : QString)
    (h : PuttyImporter.value (PuttyImporter.readSettings settings) "ProxyHost" ≠ [])
    (o : TunnelOutcome) :
    ∃ gwSess t, (MainWindow.resolveGateway o
        (w.resolveSecrets (PuttyImporter.parseSession name settings))).started =
        some (gwSess, t) ∧
      gatewayOf gwSess =
        Gateway.ofSession (w.resolveSecrets (PuttyImporter.parseSession name settings)) := by
  have hne :
      (w.resolveSecrets (PuttyImporter.parseSession name settings)).param "gateway" ≠ [] := by
    rw [spec_text w name h]
    exact text_ne_nil h
  rw [MainWindow.resolveGateway, if_neg hne]
  split
  · exact ⟨_, _, rfl, gatewayOf_gatewaySession _⟩
  · exact ⟨_, _, rfl, gatewayOf_gatewaySession _⟩

end Imported

theorem gateway_spec_kept_iff (w : MainWindow) (name : QString) (settings : QByteArray) :
    SpecKept w name settings ↔
      (PuttyImporter.value (PuttyImporter.readSettings settings) "ProxyHost" ≠ [] →
        (Spec.ofPutty (PuttyImporter.readSettings settings)).Legible) := by
  constructor
  · intro h hproxy
    exact (means_iff w name hproxy).mp (h.openViaJump hproxy)
  · intro h
    refine ⟨fun habsent o => ?_, fun hproxy => (means_iff w name hproxy).mpr (h hproxy),
      fun hproxy o => ?_⟩
    · rw [MainWindow.resolveGateway, resolveSecrets_param (by decide),
        if_pos (gateway_absent habsent)]
    · obtain ⟨gwSess, t, hstarted, hgateway⟩ := started_gateway w name hproxy o
      exact ⟨gwSess, t, hstarted, hgateway ▸ (means_iff w name hproxy).mpr (h hproxy)⟩

def proxySettings : QByteArray :=
  toUtf8 "HostName=db\nProxyHost=proxy\nProxyPort=2222\nProxyUsername=me@corp\n"

theorem proxySettings_user :
    PuttyImporter.value (PuttyImporter.readSettings proxySettings) "ProxyHost" ≠ [] ∧
      '@' ∈ (Spec.ofPutty (PuttyImporter.readSettings proxySettings)).user := by
  rw [Spec.ofPutty, PuttyImporter.readSettings, proxySettings, fromUtf8_toUtf8]
  decide

theorem at_sign_in_user_misread :
    ¬ ∀ (w : MainWindow) (name : QString) (settings : QByteArray), SpecKept w name settings := by
  intro h
  have w : MainWindow := ⟨⟨"Sessions", [], []⟩, ⟨.empty⟩, true, ⟨true, .empty⟩⟩
  obtain ⟨hproxy, hat⟩ := proxySettings_user
  exact ((means_iff w [] hproxy).mp ((h w [] proxySettings).openViaJump hproxy)).1 hat

end Ui
