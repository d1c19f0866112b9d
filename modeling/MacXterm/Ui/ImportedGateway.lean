import MacXterm.Connect.Gateway
import MacXterm.Core.PuttyImporter
import MacXterm.Core.SshConfigImporter
import MacXterm.Ui.MainWindow

namespace Ui

open Qt Core Connect

namespace MainWindow

-- The connection of a pane; none for the types that no imported session has.
def makePane (w : MainWindow) (o : Connect.Outcomes) (s : Session) : Option Attempt :=
  match s.type with
  | .ssh => some (SshConnection.connectSession o (w.resolveSecrets s))
  | .telnet => some (TelnetConnection.connectSession o (w.resolveSecrets s))
  | .rlogin => some (SimpleTcpConnection.connectSession o (w.resolveSecrets s))
  | .serial => some (SerialConnection.connectSession o (w.resolveSecrets s))
  | _ => none

end MainWindow

-- A gateway in its three parts; the user and the port may be left out.
structure Spec where
  user : QString
  host : QString
  port : QString

namespace Spec

def text (p : Spec) : QString :=
  let gw := if p.port = [] then p.host else p.host ++ ':' :: p.port
  if p.user = [] then gw else p.user ++ '@' :: gw

-- The gateway meant, for a session of this user.
def Means (p : Spec) (username : QString) (g : Gateway) : Prop :=
  g.host = p.host ∧ g.user = (if p.user = [] then username else p.user) ∧
    (p.port = [] ∧ g.port = 22 ∨ toInt p.port = some g.port ∧ 0 < g.port)

def ofPutty (kv : QMap QString) : Spec where
  user := PuttyImporter.value kv "ProxyUsername"
  host := PuttyImporter.value kv "ProxyHost"
  port :=
    let pp := PuttyImporter.value kv "ProxyPort"
    if pp = ("0" : String) then [] else pp

end Spec

open SshConfigImporter PuttyImporter in
-- What a session is imported from: a block with a ProxyJump, or settings with a proxy host.
inductive Origin where
  | sshConfig (configText : QByteArray) (p : Pending) (block : p ∈ blocks configText)
      (valid : p.valid = true) (jump : p.proxyJump ≠ [])
  | putty (name : QString) (settings : QByteArray)
      (proxy : value (readSettings settings) "ProxyHost" ≠ [])

namespace Origin

def session : Origin → Session
  | .sshConfig _ p _ _ _ => p.session
  | .putty name settings _ => PuttyImporter.parseSession name settings

def Names : Origin → Gateway → Prop
  | .sshConfig _ p _ _ _, g => ∃ spec : Spec, spec.text = p.proxyJump ∧ spec.Means p.user g
  | .putty _ settings _, g =>
      (Spec.ofPutty (PuttyImporter.readSettings settings)).Means
        (PuttyImporter.value (PuttyImporter.readSettings settings) "UserName") g

end Origin

-- Nothing but the gateway is dialled, and the link that comes of it is a channel to the target.
def Through (g : Gateway) (s : Session) (a : Attempt) : Prop :=
  (∀ d ∈ a.dialled, d = (g.host, g.port)) ∧
    ∀ l, a.link = some l → l = .channel g s.host s.port

def Origin.GatewayUsed (o : Origin) (w : MainWindow) : Prop :=
  ∃ g, o.Names g ∧ ∀ calls, ∃ a, w.makePane calls o.session = some a ∧ Through g o.session a

-- The spec survives its way through one text.
def Spec.Legible (p : Spec) : Prop :=
  '@' ∉ p.user ∧ ':' ∉ p.host ∧ (p.user = [] → '@' ∉ p.host) ∧
    (p.port = [] ∨ ∃ n, toInt p.port = some n ∧ 0 < n)

def Origin.Carried : Origin → Prop
  | .sshConfig _ _ _ _ _ => False
  | .putty _ settings _ =>
      PuttyImporter.protocolType (PuttyImporter.readSettings settings) = .ssh ∧
        (Spec.ofPutty (PuttyImporter.readSettings settings)).Legible

section Parts

variable {c : Char} {s t u : QString}

theorem address_fst (spec : QString) : (Gateway.address spec).1 = spec.takeWhile (· != ':') := by
  unfold Gateway.address
  cases hcut : cutAt ':' spec with
  | none =>
    have hall : ∀ d ∈ spec, (d != ':') = true := by
      intro d hd
      rw [bne_iff_ne]
      rintro rfl
      exact cutAt_eq_none.mp hcut hd
    exact (List.takeWhile_eq_self_iff.mpr hall).symm
  | some r =>
    obtain ⟨host, port⟩ := r
    obtain ⟨hhost, rfl⟩ := cutAt_eq_some.mp hcut
    have hall : ∀ d ∈ host, (d != ':') = true := by
      intro d hd
      rw [bne_iff_ne]
      rintro rfl
      exact hhost hd
    rw [List.takeWhile_append_of_pos hall]
    simp

theorem not_mem_of_toInt (hspace : isSpace c = false) (hc : ¬ ('0' ≤ c ∧ c ≤ '9'))
    (hsign : c ≠ '-' ∧ c ≠ '+') {n : Int} (h : toInt s = some n) : c ∉ s := by
  intro hmem
  rcases char_of_toInt h c (mem_trimmed hspace hmem) with hdigit | hminus | hplus
  · exact hc hdigit
  · exact hsign.1 hminus
  · exact hsign.2 hplus

def tail (port : QString) : QString := if port = [] then [] else ':' :: port

theorem text_eq (p : Spec) : p.text =
    if p.user = [] then p.host ++ tail p.port else p.user ++ '@' :: (p.host ++ tail p.port) := by
  unfold Spec.text tail
  by_cases hport : p.port = []
  · simp [hport]
  · simp [hport]

theorem length_address (b port : QString) :
    (Gateway.address (b ++ tail port)).1.length ≤ b.length := by
  rw [address_fst, List.takeWhile_append]
  split
  · rename_i hall
    have hnone : (tail port).takeWhile (· != ':') = [] := by
      unfold tail
      split <;> simp
    rw [hnone, List.append_nil]
  · exact (List.takeWhile_prefix _).length_le

theorem portOf_pos {port : QString} {n : Int} (h : toInt port = some n) (hn : 0 < n) :
    Gateway.portOf port = n := by
  simp only [Gateway.portOf, h, Option.getD_some]
  rw [if_neg (by omega)]

theorem address_tail {host port : QString} (hhost : ':' ∉ host)
    (hport : port = [] ∨ ∃ n, toInt port = some n ∧ 0 < n) :
    ∃ n, Gateway.address (host ++ tail port) = (host, n) ∧
      (port = [] ∧ n = 22 ∨ toInt port = some n ∧ 0 < n) := by
  unfold tail
  by_cases hnil : port = []
  · subst hnil
    refine ⟨22, ?_, .inl ⟨rfl, rfl⟩⟩
    rw [if_pos rfl, List.append_nil, Gateway.address, cutAt_eq_none.mpr hhost]
  · obtain ⟨n, hn, hpos⟩ := hport.resolve_left hnil
    refine ⟨n, ?_, .inr ⟨hn, hpos⟩⟩
    rw [if_neg hnil, Gateway.address, cutAt_eq_some.mpr ⟨hhost, rfl⟩]
    simp only [portOf_pos hn hpos]

end Parts

section ReadBack

variable {s : Session} {p : Spec}

theorem ofSession_cut {left rest : QString} (hgw : s.param "gateway" = p.text)
    (hnone : s.param "gateway_user" = []) (hcut : cutAt '@' p.text = some (left, rest)) :
    Gateway.ofSession s = ⟨left, (Gateway.address rest).1, (Gateway.address rest).2⟩ := by
  simp only [Gateway.ofSession, hgw, hcut, hnone, if_true]

theorem ofSession_whole (hgw : s.param "gateway" = p.text)
    (hnone : s.param "gateway_user" = []) (hcut : cutAt '@' p.text = none) :
    Gateway.ofSession s =
      ⟨s.username, (Gateway.address p.text).1, (Gateway.address p.text).2⟩ := by
  simp only [Gateway.ofSession, hgw, hcut, hnone, if_true]

theorem colon_not_mem_host (hgw : s.param "gateway" = p.text)
    (hnone : s.param "gateway_user" = []) : ':' ∉ (Gateway.ofSession s).host := by
  have hfst (spec : QString) : ':' ∉ (Gateway.address spec).1 := by
    rw [address_fst]
    intro hmem
    simpa using List.mem_takeWhile_imp hmem
  cases hcut : cutAt '@' p.text with
  | none =>
    rw [ofSession_whole hgw hnone hcut]
    exact hfst _
  | some r =>
    rw [ofSession_cut hgw hnone hcut]
    exact hfst _

theorem legible_of_means (hgw : s.param "gateway" = p.text)
    (hnone : s.param "gateway_user" = []) (h : p.Means s.username (Gateway.ofSession s)) :
    p.Legible := by
  obtain ⟨hhost, huser, hport⟩ := h
  refine ⟨fun hat => ?_, ?_, fun hempty hat => ?_, ?_⟩
  · have hne : p.user ≠ [] := List.ne_nil_of_mem hat
    have hmem : '@' ∈ p.text := by
      rw [text_eq, if_neg hne]
      exact List.mem_append_left _ hat
    obtain ⟨r, hcut⟩ := Option.ne_none_iff_exists'.mp fun hcut => cutAt_eq_none.mp hcut hmem
    obtain ⟨left, rest⟩ := r
    rw [ofSession_cut hgw hnone hcut, if_neg hne] at huser
    have hleft : left = p.user := huser
    exact (cutAt_eq_some.mp hcut).1 (hleft ▸ hat)
  · rw [← hhost]
    exact colon_not_mem_host hgw hnone
  · obtain ⟨a, b, hsplit, ha⟩ := List.eq_append_cons_of_mem hat
    have hcut : cutAt '@' p.text = some (a, b ++ tail p.port) := by
      rw [cutAt_eq_some, text_eq, if_pos hempty, hsplit]
      exact ⟨ha, by simp⟩
    have hlength := length_address b p.port
    rw [ofSession_cut hgw hnone hcut] at hhost
    have hsame : (Gateway.address (b ++ tail p.port)).1 = p.host := hhost
    rw [hsame, hsplit, List.length_append, List.length_cons] at hlength
    omega
  · exact hport.imp And.left fun hn => ⟨_, hn⟩

theorem means_of_legible (hgw : s.param "gateway" = p.text)
    (hnone : s.param "gateway_user" = []) (h : p.Legible) :
    p.Means s.username (Gateway.ofSession s) := by
  obtain ⟨hat, hcolon, hhost, hport⟩ := h
  obtain ⟨n, haddress, hn⟩ := address_tail hcolon hport
  by_cases huser : p.user = []
  · have htext : p.text = p.host ++ tail p.port := by rw [text_eq, if_pos huser]
    have hcut : cutAt '@' p.text = none := by
      rw [cutAt_eq_none, htext]
      refine List.not_mem_append (hhost huser) ?_
      unfold tail
      rcases hport with hnil | ⟨n, hn, -⟩
      · simp [hnil]
      · split
        · exact List.not_mem_nil
        · refine List.not_mem_cons_of_ne_of_not_mem (by decide) ?_
          exact not_mem_of_toInt (by decide) (by decide) (by decide) hn
    rw [ofSession_whole hgw hnone hcut, htext, haddress]
    exact ⟨rfl, (if_pos huser).symm, hn⟩
  · have hcut : cutAt '@' p.text = some (p.user, p.host ++ tail p.port) := by
      rw [cutAt_eq_some, text_eq, if_neg huser]
      exact ⟨hat, rfl⟩
    rw [ofSession_cut hgw hnone hcut, haddress]
    exact ⟨rfl, (if_neg huser).symm, hn⟩

end ReadBack

section Imported

variable {w : MainWindow} {s : Session}

theorem resolveSecrets_type : (w.resolveSecrets s).type = s.type := by
  unfold MainWindow.resolveSecrets
  dsimp only
  split <;> rfl

theorem resolveSecrets_param {key : QString} (hkey : key ≠ ("password" : String)) :
    (w.resolveSecrets s).param key = s.param key := by
  unfold MainWindow.resolveSecrets
  dsimp only
  split
  · rw [Session.param_eq, Session.find_setParam, if_neg hkey, ← Session.param_eq]
  · rfl

theorem resolveSecrets_port : (w.resolveSecrets s).port = s.port := by
  rw [Session.port, Session.port, resolveSecrets_param (by decide), resolveSecrets_type]

theorem pending_gateway (p : SshConfigImporter.Pending) : p.session.param "gateway" = [] := by
  simp (disch := decide) only [SshConfigImporter.Pending.session, Session.setHost,
    Session.setUsername, Session.setPort, Session.param_ite_ne, Session.param_ite_not_ne,
    Session.param_setParam_ne]
  rfl

theorem gateway_text (kv : QMap QString) :
    PuttyImporter.gateway kv = (Spec.ofPutty kv).text := by
  have hport (host pp zero : QString) :
      (if pp ≠ [] ∧ pp ≠ zero then host ++ ':' :: pp else host) =
        if (if pp = zero then [] else pp) = [] then host
        else host ++ ':' :: (if pp = zero then [] else pp) := by
    by_cases hzero : pp = zero
    · rw [if_neg fun h => h.2 hzero, if_pos hzero, if_pos rfl]
    · rw [if_neg hzero]
      by_cases hnil : pp = []
      · rw [if_neg fun h => h.1 hnil, if_pos hnil]
      · rw [if_pos ⟨hnil, hzero⟩, if_neg hnil]
  unfold PuttyImporter.gateway Spec.ofPutty Spec.text
  dsimp only
  rw [hport]

theorem text_ne_nil {p : Spec} (h : p.host ≠ []) : p.text ≠ [] := by
  rw [text_eq]
  split
  · simp [h]
  · simp

end Imported

section Spec

variable {settings : QByteArray}

theorem spec_text (w : MainWindow) (name : QString)
    (h : PuttyImporter.value (PuttyImporter.readSettings settings) "ProxyHost" ≠ []) :
    (w.resolveSecrets (PuttyImporter.parseSession name settings)).param "gateway" =
      (Spec.ofPutty (PuttyImporter.readSettings settings)).text := by
  rw [resolveSecrets_param (by decide), PuttyImporter.param_gateway name h, gateway_text]

theorem means_iff (w : MainWindow) (name : QString)
    (h : PuttyImporter.value (PuttyImporter.readSettings settings) "ProxyHost" ≠ []) :
    (Spec.ofPutty (PuttyImporter.readSettings settings)).Means
        (PuttyImporter.value (PuttyImporter.readSettings settings) "UserName")
        (Gateway.ofSession (w.resolveSecrets (PuttyImporter.parseSession name settings))) ↔
      (Spec.ofPutty (PuttyImporter.readSettings settings)).Legible := by
  have hnone : (w.resolveSecrets (PuttyImporter.parseSession name settings)).param
      "gateway_user" = [] :=
    (resolveSecrets_param (by decide)).trans (PuttyImporter.param_gateway_user name settings)
  have huser : (w.resolveSecrets (PuttyImporter.parseSession name settings)).username =
      PuttyImporter.value (PuttyImporter.readSettings settings) "UserName" :=
    (resolveSecrets_param (by decide)).trans (PuttyImporter.param_username name settings)
  rw [← huser]
  exact ⟨legible_of_means (spec_text w name h) hnone, means_of_legible (spec_text w name h) hnone⟩

end Spec

section Used

variable {w : MainWindow} {s : Session}

def allWork : Connect.Outcomes := ⟨true, true, true, true, true, true⟩

theorem through_jump {g : Gateway} (hs : s.param "gateway" ≠ []) : (∀ calls,
    Through g s (SshConnection.connectSession calls (w.resolveSecrets s))) ↔
      Gateway.ofSession (w.resolveSecrets s) = g := by
  have hjump (calls : Connect.Outcomes) : SshConnection.connectSession calls (w.resolveSecrets s) =
      SshConnection.openViaJump calls (w.resolveSecrets s) := by
    rw [SshConnection.connectSession, resolveSecrets_param (by decide), if_pos hs]
  have hhost : (w.resolveSecrets s).host = s.host := resolveSecrets_param (by decide)
  constructor
  · intro h
    have hlink := (h allWork).2 (.channel (Gateway.ofSession (w.resolveSecrets s))
      (w.resolveSecrets s).host (w.resolveSecrets s).port) (by rw [hjump]; rfl)
    exact (Link.channel.inj hlink).1
  · rintro rfl calls
    rw [hjump]
    refine ⟨fun d hd => List.mem_singleton.mp hd, fun l hl => ?_⟩
    simp only [SshConnection.openViaJump, Option.ite_none_right_eq_some, Option.some.injEq] at hl
    rw [← hl.2, hhost, resolveSecrets_port]

theorem not_through_dial {g : Gateway} (host : QString) (port : Int) :
    ¬ Through g s (dial allWork host port) := by
  intro h
  have hlink := h.2 (.socket host port) rfl
  cases hlink

theorem not_used_putty {settings : QByteArray} (name : QString) {g : Gateway}
    (h : PuttyImporter.protocolType (PuttyImporter.readSettings settings) ≠ .ssh)
    (hused : ∀ calls, ∃ a, w.makePane calls (PuttyImporter.parseSession name settings) = some a ∧
      Through g (PuttyImporter.parseSession name settings) a) : False := by
  obtain ⟨a, ha, hthrough⟩ := hused allWork
  rw [MainWindow.makePane, PuttyImporter.parseSession_type] at ha
  unfold PuttyImporter.protocolType at h ha
  dsimp only at h ha
  split_ifs at h ha
  · obtain rfl := Option.some.inj ha
    exact not_through_dial _ _ hthrough
  · obtain rfl := Option.some.inj ha
    exact not_through_dial _ _ hthrough
  · obtain rfl := Option.some.inj ha
    have hlink := hthrough.2 (.device _) rfl
    cases hlink
  · exact h rfl

theorem imported_gateway_used_iff (o : Origin) (w : MainWindow) :
    o.GatewayUsed w ↔ o.Carried := by
  cases o with
  | sshConfig configText p block valid jump =>
    refine iff_of_false ?_ id
    rintro ⟨g, -, hused⟩
    obtain ⟨a, ha, hthrough⟩ := hused allWork
    have htype : p.session.type = .ssh := p.session_type
    have hdirect : a = dial allWork (w.resolveSecrets p.session).host
        (w.resolveSecrets p.session).port := by
      have hparam : (w.resolveSecrets p.session).param "gateway" = [] := by
        rw [resolveSecrets_param (by decide), pending_gateway]
      simp only [Origin.session, MainWindow.makePane, htype, SshConnection.connectSession, hparam,
        ne_eq, not_true_eq_false, if_false, Option.some.injEq] at ha
      exact ha.symm
    rw [hdirect] at hthrough
    exact not_through_dial _ _ hthrough
  | putty name settings proxy =>
    by_cases htype : PuttyImporter.protocolType (PuttyImporter.readSettings settings) = .ssh
    · have hjump : (PuttyImporter.parseSession name settings).param "gateway" ≠ [] := by
        rw [PuttyImporter.param_gateway name proxy, gateway_text]
        exact text_ne_nil proxy
      have hread : (Origin.putty name settings proxy).GatewayUsed w ↔
          (Spec.ofPutty (PuttyImporter.readSettings settings)).Means
            (PuttyImporter.value (PuttyImporter.readSettings settings) "UserName")
            (Gateway.ofSession (w.resolveSecrets (PuttyImporter.parseSession name settings))) := by
        simp only [Origin.GatewayUsed, Origin.Names, Origin.session, MainWindow.makePane,
          PuttyImporter.parseSession_type, htype, Option.some.injEq, exists_eq_left',
          through_jump hjump, exists_eq_right']
      rw [hread, Origin.Carried, and_iff_right htype]
      exact means_iff w name proxy
    · refine iff_of_false ?_ fun h => htype h.1
      rintro ⟨g, -, hused⟩
      exact not_used_putty name htype hused

end Used

section Bastion

open SshConfigImporter

def bastionConfig : QString :=
  ("Host db\n    HostName db.internal\n    ProxyJump bastion\n" : String)

def bastionBlock : Pending where
  «alias» := ("db" : String)
  hostName := ("db.internal" : String)
  proxyJump := ("bastion" : String)

theorem bastion_block : bastionBlock ∈ blocks (toUtf8 bastionConfig) := by
  have hlines : lines (toUtf8 bastionConfig) =
      [("host".toList, "db".toList), ("hostname".toList, "db.internal".toList),
        ("proxyjump".toList, "bastion".toList)] := by
    rw [lines, fromUtf8_toUtf8]
    decide
  rw [blocks, hlines]
  decide

theorem proxyJump_dialled_directly :
    ¬ (Origin.sshConfig (toUtf8 bastionConfig) bastionBlock bastion_block (by decide)
        (by decide)).GatewayUsed ⟨⟨"Sessions", [], []⟩, ⟨.empty⟩, true, ⟨true, .empty⟩⟩ := by
  rintro ⟨g, -, hused⟩
  obtain ⟨a, ha, -, hlink⟩ := hused allWork
  have hdirect : a = dial allWork ("db.internal" : String) 22 := by
    refine Option.some.inj (ha.symm.trans ?_)
    decide
  rw [hdirect] at hlink
  cases hlink (.socket ("db.internal" : String) 22) rfl

end Bastion

end Ui
