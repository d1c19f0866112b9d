import MacXterm.Ui.GatewayRoundTrip

namespace Connect

open Qt Core

inductive Userauth where
  | publickeyFromfile (user keyfile passphrase : QByteArray)
  | password (user pw : QByteArray)
  deriving DecidableEq

-- What a session dials and how it logs in there.
structure Login where
  host : QByteArray
  port : Int
  auth : Userauth
  deriving DecidableEq

namespace SshConnection

def gatewayAuth (session : Session) (gwUser : QString) : Userauth :=
  let gu := toUtf8 gwUser
  let gkey := toUtf8 (session.param "gateway_keyfile")
  if gkey ≠ [] then
    .publickeyFromfile gu gkey (toUtf8 (session.param "gateway_passphrase"))
  else
    let gpw := toUtf8 (session.param "gateway_password")
    .password gu (if gpw = [] then toUtf8 (session.param "password") else gpw)

-- The login of openViaJump; an empty spec is no jump.
def gatewayLogin (session : Session) : Option Login :=
  if session.param "gateway" = [] then none
  else
    let gw := Gateway.ofSession session
    some ⟨toUtf8 gw.host, gw.port, gatewayAuth session gw.user⟩

end SshConnection

end Connect

namespace Tunnel

open Qt Core Connect

def authSession (srv : Session) : Userauth :=
  let user := toUtf8 srv.username
  let key := toUtf8 (srv.param "keyfile")
  if key ≠ [] then .publickeyFromfile user key (toUtf8 (srv.param "passphrase"))
  else .password user (toUtf8 (srv.param "password"))

-- The login of relayWorker.
def serverLogin (sshServer : Session) : Login :=
  ⟨toUtf8 sshServer.host, sshServer.port, authSession sshServer⟩

end Tunnel

namespace Ui

open Qt Core Connect Tunnel

theorem toUtf8_ite (c : Prop) [Decidable c] (s t : QString) :
    toUtf8 (if c then s else t) = if c then toUtf8 s else toUtf8 t := apply_ite ..

section Credentials

variable {s gwSess : Session}

theorem param_ite_self (c : Prop) [Decidable c] (key v : QString) (h : ¬c → v = gwSess.param key) :
    (if c then gwSess.setParam key v else gwSess).param key = v := by
  split
  · exact Session.param_setParam_self ..
  · exact (h ‹_›).symm

theorem addCredentials_passphrase (h : gwSess.param "passphrase" = []) :
    (MainWindow.addCredentials s gwSess).param "passphrase" = s.param "gateway_passphrase" := by
  rw [MainWindow.addCredentials]
  refine param_ite_self _ _ _ fun hempty => ?_
  rw [Session.param_ite_ne (by decide), not_not.mp hempty]
  split
  · rw [Session.param_setParam_ne (by decide), h]
  · rw [Session.param_ite_ne (by decide), h]

theorem addCredentials_keyfile (h : gwSess.param "keyfile" = []) :
    (MainWindow.addCredentials s gwSess).param "keyfile" = s.param "gateway_keyfile" := by
  rw [MainWindow.addCredentials, Session.param_ite_ne (by decide)]
  refine param_ite_self _ _ _ fun hempty => ?_
  rw [not_not.mp hempty]
  split
  · rw [Session.param_setParam_ne (by decide), h]
  · rw [Session.param_ite_ne (by decide), h]

theorem addCredentials_password (h : gwSess.param "password" = []) :
    (MainWindow.addCredentials s gwSess).param "password" =
      if s.param "gateway_password" = [] then s.param "password"
      else s.param "gateway_password" := by
  rw [MainWindow.addCredentials, Session.param_ite_ne (by decide),
    Session.param_ite_ne (by decide), ite_not]
  split
  · exact param_ite_self _ _ _ fun hempty => by rw [h, not_not.mp hempty]
  · exact Session.param_setParam_self ..

theorem base_param (s : Session) {k : QString} (hhost : k ≠ "host".toList)
    (hport : k ≠ "port".toList) (huser : k ≠ "username".toList) :
    ((((⟨(Gateway.ofSession s).host, .ssh, .empty⟩ : Session).setHost
      (Gateway.ofSession s).host).setPort (Gateway.ofSession s).port).setUsername
      (Gateway.ofSession s).user).param k = [] := by
  rw [Session.setUsername, Session.param_setParam_ne huser, Session.setPort,
    Session.param_setParam_ne hport, Session.setHost, Session.param_setParam_ne hhost]
  rfl

theorem authSession_gatewaySession (s : Session) :
    authSession (MainWindow.gatewaySession s) =
      SshConnection.gatewayAuth s (Gateway.ofSession s).user := by
  have huser : (MainWindow.gatewaySession s).username = (Gateway.ofSession s).user :=
    congrArg Gateway.user (gatewayOf_gatewaySession s)
  rw [authSession, huser, gatewaySession_eq,
    addCredentials_keyfile (base_param s (by decide) (by decide) (by decide)),
    addCredentials_passphrase (base_param s (by decide) (by decide) (by decide)),
    addCredentials_password (base_param s (by decide) (by decide) (by decide)), toUtf8_ite]
  simp only [SshConnection.gatewayAuth, toUtf8_eq_nil]

theorem serverLogin_gatewaySession (s : Session) :
    serverLogin (MainWindow.gatewaySession s) =
      ⟨toUtf8 (Gateway.ofSession s).host, (Gateway.ofSession s).port,
        SshConnection.gatewayAuth s (Gateway.ofSession s).user⟩ := by
  have hhost : (MainWindow.gatewaySession s).host = (Gateway.ofSession s).host :=
    congrArg Gateway.host (gatewayOf_gatewaySession s)
  have hport : (MainWindow.gatewaySession s).port = (Gateway.ofSession s).port :=
    congrArg Gateway.port (gatewayOf_gatewaySession s)
  rw [serverLogin, hhost, hport, authSession_gatewaySession]

end Credentials

theorem gateway_logins_agree (o : TunnelOutcome) (s : Session) (h : s.param "gateway" ≠ []) :
    ∃ gwSess t, (MainWindow.resolveGateway o s).started = some (gwSess, t) ∧
      SshConnection.gatewayLogin s = some (serverLogin gwSess) := by
  refine ⟨MainWindow.gatewaySession s, ⟨"127.0.0.1", 0, s.host, u16 s.port⟩, ?_, ?_⟩
  · rw [MainWindow.resolveGateway, if_neg h]
    split <;> rfl
  · rw [SshConnection.gatewayLogin, if_neg h, serverLogin_gatewaySession]

def fallbackSession : Session :=
  (((⟨"db", .rdp, .empty⟩ : Session).setParam "gateway" "jump@bastion:x").setParam
    "gateway_user" "ops").setParam "password" "secret"

theorem gateway_logins_agree_fallback :
    ∃ gwSess t, (MainWindow.resolveGateway ⟨true, 40000⟩ fallbackSession).started =
        some (gwSess, t) ∧
      SshConnection.gatewayLogin fallbackSession = some (serverLogin gwSess) :=
  gateway_logins_agree ⟨true, 40000⟩ fallbackSession (by decide)

end Ui
