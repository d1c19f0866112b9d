import MacXterm.Core.SessionForm

namespace Ui

open Qt Core

def typeItems : List SessionType :=
  [.ssh, .telnet, .serial, .mosh, .rdp, .vnc, .rsh, .rlogin, .xdmcp, .ftp, .s3, .browser, .shell]

theorem ssh_mem_typeItems : SessionType.ssh ∈ typeItems := by decide

def resolutionItems : List QString :=
  ["Default", "1920×1080", "1600×900", "1440×900", "1366×768", "1280×1024", "1280×800",
    "1024×768"]

theorem default_mem_resolutionItems : "Default".toList ∈ resolutionItems := by decide

def schemeItems : List QString := ["", "Dark", "Light", "Solarized Dark"]

def backspaceItems : List QString := ["", "ctrl-h"]

-- The values the widgets hold: the text of a line edit, the value of a spin box, the text or the
-- data of the current item of a combo box, the state of a check box.
structure SessionDialog where
  name : QString
  type : { t : SessionType // t ∈ typeItems }
  host : QString
  port : Fin 65536
  user : QString
  password : QString
  keyfile : QString
  passphrase : QString
  gateway : QString
  shell : QString
  folder : QString
  icon : QString
  compression : Bool
  x11 : Bool
  agent : Bool
  agentForward : Bool
  sshKeepalive : Fin 86401
  sshRemoteCmd : QString
  sshStayOpen : Bool
  gwUser : QString
  gwPassword : QString
  gwPassphrase : QString
  domain : QString
  rdpResolution : { r : QString // r ∈ resolutionItems }
  rdpClipboard : Bool
  rdpDrives : Bool
  rdpAudio : Bool
  rdpNla : Bool
  rdpIgnoreCert : Bool
  vncViewOnly : Bool
  termFont : QString
  termFontSize : Fin 73
  termScheme : { c : QString // c ∈ schemeItems }
  termScrollback : { n : Int // -1 ≤ n ∧ n ≤ 1000000 }
  termBackspace : { b : QString // b ∈ backspaceItems }

namespace SessionDialog

def typeText (d : SessionDialog) : QString := sessionTypeToString d.type

def rdpSize (d : SessionDialog) : Int × Int :=
  let res := d.rdpResolution.val
  let cross := res.findIdx (· == '×')
  if 0 < cross ∧ cross < res.length then
    ((toInt (res.take cross)).getD 0, (toInt (res.drop (cross + 1))).getD 0)
  else (0, 0)

def advancedOptions (d : SessionDialog) : SessionForm.AdvancedOptions where
  compression := d.compression
  x11 := d.x11
  agent := d.agent
  agentForward := d.agentForward
  sshKeepalive := d.sshKeepalive.val
  sshRemoteCommand := d.sshRemoteCmd
  sshStayOpen := d.sshStayOpen
  gatewayUser := d.gwUser
  gatewayPassword := d.gwPassword
  gatewayPassphrase := d.gwPassphrase
  domain := d.domain
  rdpWidth := d.rdpSize.1
  rdpHeight := d.rdpSize.2
  rdpClipboard := d.rdpClipboard
  rdpDrives := d.rdpDrives
  rdpAudio := d.rdpAudio
  rdpNla := d.rdpNla
  rdpIgnoreCert := d.rdpIgnoreCert
  vncViewOnly := d.vncViewOnly

def generalFields (d : SessionDialog) : QMap QString :=
  let f : QMap QString := .empty
  let f := f.insert "name" d.name
  let f := f.insert "type" d.typeText
  let f := f.insert "host" d.host
  let f := f.insertIf (0 < d.port.val) "port" (number d.port.val)
  let f := f.insert "username" d.user
  let f := f.insertIf (d.password ≠ []) "password" d.password
  let f := f.insertIf (d.keyfile ≠ []) "keyfile" d.keyfile
  let f := f.insertIf (d.passphrase ≠ []) "passphrase" d.passphrase
  let f := f.insertIf (d.gateway ≠ []) "gateway" d.gateway
  let f := f.insertIf (sessionTypeFromString d.typeText = .shell ∧ trimmed d.shell ≠ [])
    "shell" (trimmed d.shell)
  let f := f.insertIf (trimmed d.folder ≠ []) "folder" (trimmed d.folder)
  f.insertIf (d.icon ≠ []) "icon" d.icon

def terminalFields (d : SessionDialog) (f : QMap QString) : QMap QString :=
  let f := f.insertIf (d.termFont ≠ []) "term.font" d.termFont
  let f := f.insertIf (0 < d.termFontSize.val) "term.fontSize" (number d.termFontSize.val)
  let f := f.insertIf (d.termScheme.val ≠ []) "term.scheme" d.termScheme.val
  let f := f.insertIf (0 ≤ d.termScrollback.val) "term.scrollback" (number d.termScrollback.val)
  f.insertIf (d.termBackspace.val ≠ []) "term.backspace" d.termBackspace.val

def fields (d : SessionDialog) : QMap QString :=
  d.terminalFields (SessionForm.applyAdvanced d.generalFields (sessionTypeFromString d.typeText)
    (d.gateway ≠ []) d.advancedOptions)

def session (d : SessionDialog) : Session := SessionForm.toSession d.fields

def onAccept (d : SessionDialog) : Bool :=
  let f : QMap QString := .empty
  let f := f.insert "name" d.name
  let f := f.insert "type" d.typeText
  let f := f.insert "host" d.host
  let f := f.insert "port" (if 0 < d.port.val then number d.port.val else [])
  SessionForm.validate f = []

theorem name_of_onAccept {d : SessionDialog} (h : d.onAccept = true) : d.name ≠ [] := by
  have hv := SessionForm.name_of_validate (by simpa only [onAccept, decide_eq_true_eq] using h)
  simpa [QMap.value] using hv

end SessionDialog

inductive Page where
  | every | shell | ssh | gateway | rdp | vnc
  deriving DecidableEq

def Page.shown (p : Page) (type : SessionType) (gw : QString) : Bool :=
  match p with
  | .every => true
  | .shell => type = .shell
  | .ssh => type = .ssh
  | .gateway => gw ≠ []
  | .rdp => type = .rdp
  | .vnc => type = .vnc

inductive Widget where
  | field | line | picker | icon | on | off | port | keepalive | fontSize | scheme | scrollback
  | backspace | width | height
  deriving DecidableEq

-- A control of the dialog: the parameter it is for, the types or the gateway it belongs to, and
-- what session writes for it.
structure Control where
  key : QString
  page : Page
  widget : Widget
  value : SessionDialog → Option QString

namespace Control

def line (text : QString) : Option QString := if text ≠ [] then some text else none

def on (checked : Bool) : Option QString := if !checked then some "0" else none

def off (checked : Bool) : Option QString := if checked then some "1" else none

def positive (value : Int) : Option QString := if 0 < value then some (number value) else none

def natural (value : Int) : Option QString := if 0 ≤ value then some (number value) else none

def side (d : SessionDialog) (value : Int) : Option QString :=
  if d.rdpSize.1 > 0 ∧ d.rdpSize.2 > 0 then some (number value) else none

def row (c : Control) (d : SessionDialog) : QString × Option QString :=
  (c.key, if c.page.shown d.type d.gateway then c.value d else none)

end Control

def controls : List Control :=
  [⟨"host", .every, .field, fun d => some d.host⟩,
    ⟨"port", .every, .port, fun d => Control.positive d.port.val⟩,
    ⟨"username", .every, .field, fun d => some d.user⟩,
    ⟨"password", .every, .line, fun d => Control.line d.password⟩,
    ⟨"keyfile", .every, .line, fun d => Control.line d.keyfile⟩,
    ⟨"passphrase", .every, .line, fun d => Control.line d.passphrase⟩,
    ⟨"gateway", .every, .line, fun d => Control.line d.gateway⟩,
    ⟨"shell", .shell, .picker, fun d => Control.line (trimmed d.shell)⟩,
    ⟨"folder", .every, .picker, fun d => Control.line (trimmed d.folder)⟩,
    ⟨"icon", .every, .icon, fun d => Control.line d.icon⟩,
    ⟨"compression", .ssh, .off, fun d => Control.off d.compression⟩,
    ⟨"x11", .ssh, .on, fun d => Control.on d.x11⟩,
    ⟨"agent", .ssh, .off, fun d => Control.off d.agent⟩,
    ⟨"agentforward", .ssh, .off, fun d => Control.off d.agentForward⟩,
    ⟨"keepalive", .ssh, .keepalive, fun d => Control.positive d.sshKeepalive.val⟩,
    ⟨"remotecommand", .ssh, .line, fun d => Control.line d.sshRemoteCmd⟩,
    ⟨"stayopen", .ssh, .off, fun d => Control.off d.sshStayOpen⟩,
    ⟨"gateway_user", .gateway, .line, fun d => Control.line d.gwUser⟩,
    ⟨"gateway_password", .gateway, .line, fun d => Control.line d.gwPassword⟩,
    ⟨"gateway_passphrase", .gateway, .line, fun d => Control.line d.gwPassphrase⟩,
    ⟨"domain", .rdp, .line, fun d => Control.line d.domain⟩,
    ⟨"width", .rdp, .width, fun d => Control.side d d.rdpSize.1⟩,
    ⟨"height", .rdp, .height, fun d => Control.side d d.rdpSize.2⟩,
    ⟨"redirect_clipboard", .rdp, .on, fun d => Control.on d.rdpClipboard⟩,
    ⟨"redirect_drives", .rdp, .off, fun d => Control.off d.rdpDrives⟩,
    ⟨"redirect_audio", .rdp, .off, fun d => Control.off d.rdpAudio⟩,
    ⟨"nla", .rdp, .on, fun d => Control.on d.rdpNla⟩,
    ⟨"ignorecert", .rdp, .off, fun d => Control.off d.rdpIgnoreCert⟩,
    ⟨"viewonly", .vnc, .off, fun d => Control.off d.vncViewOnly⟩,
    ⟨"term.font", .every, .line, fun d => Control.line d.termFont⟩,
    ⟨"term.fontSize", .every, .fontSize, fun d => Control.positive d.termFontSize.val⟩,
    ⟨"term.scheme", .every, .scheme, fun d => Control.line d.termScheme.val⟩,
    ⟨"term.scrollback", .every, .scrollback, fun d => Control.natural d.termScrollback.val⟩,
    ⟨"term.backspace", .every, .backspace, fun d => Control.line d.termBackspace.val⟩]

namespace SessionDialog

def rows (d : SessionDialog) : List (QString × Option QString) :=
  ("name".toList, some d.name) :: ("type".toList, some d.typeText) :: controls.map (·.row d)

theorem ite_insertRow (p : Prop) [Decidable p] (m n : QMap QString) (k : QString)
    (o : Option QString) :
    (if p then m.insertRow (k, o) else n) =
      (if p then m else n).insertRow (k, if p then o else none) := by
  split <;> rfl

theorem fields_eq_rows (d : SessionDialog) : d.fields = d.rows.foldl QMap.insertRow .empty := by
  have htype : sessionTypeFromString d.typeText = d.type.val := sessionTypeFromString_toString _
  have hinsert (m : QMap QString) (k v : QString) : m.insert k v = m.insertRow (k, some v) := rfl
  simp only [fields, terminalFields, SessionForm.applyAdvanced, generalFields, htype, rows,
    List.foldl_cons, List.foldl_nil, QMap.insertIf_eq_insertRow, hinsert, advancedOptions,
    controls, List.map_cons, List.map_nil, Control.row, Page.shown, ite_insertRow, ite_self,
    decide_eq_true_eq, if_true, ite_and, gt_iff_lt, Int.natCast_pos, Control.positive,
    Control.natural, Control.line, Control.on, Control.off, Control.side]

theorem keys_nodup : ("name".toList :: "type".toList :: controls.map (·.key)).Nodup := by
  decide +kernel

theorem rows_keys (d : SessionDialog) :
    d.rows.map Prod.fst = "name".toList :: "type".toList :: controls.map (·.key) := rfl

theorem fields_find (d : SessionDialog) (k : QString) :
    d.fields.find k = (d.rows.lookup k).join := by
  rw [fields_eq_rows, QMap.find_insertRows _ _ _ (by rw [rows_keys]; exact keys_nodup),
    QMap.find_empty, Option.or_none]

theorem fields_find_control (d : SessionDialog) {c : Control} (hc : c ∈ controls) :
    d.fields.find c.key = if c.page.shown d.type d.gateway then c.value d else none := by
  have hrow : c.row d ∈ d.rows :=
    List.mem_cons_of_mem _ (List.mem_cons_of_mem _ (List.mem_map_of_mem hc))
  have hlookup := (QMap.lookup_iff_mem (by rw [rows_keys]; exact keys_nodup)).mpr hrow
  rw [fields_find, hlookup]
  rfl

theorem fields_find_other (d : SessionDialog) {k : QString} (hname : k ≠ "name".toList)
    (htype : k ≠ "type".toList) (hk : ∀ c ∈ controls, c.key ≠ k) : d.fields.find k = none := by
  have hnone : d.rows.lookup k = none := by
    rw [List.lookup_eq_none_iff]
    intro r hr
    simp only [bne_iff_ne, ne_eq]
    rcases List.mem_cons.mp hr with rfl | hr
    · exact hname
    · rcases List.mem_cons.mp hr with rfl | hr
      · exact htype
      · obtain ⟨c, hc, rfl⟩ := List.mem_map.mp hr
        exact Ne.symm (hk c hc)
  rw [fields_find, hnone]
  rfl

theorem portField_fields (d : SessionDialog) :
    SessionForm.portField d.fields = d.fields.find "port" := by
  have hfind : d.fields.find "port" = Control.positive d.port.val :=
    d.fields_find_control (c := ⟨"port", .every, .port, fun d => Control.positive d.port.val⟩)
      (List.mem_cons_of_mem _ List.mem_cons_self)
  rw [SessionForm.portField, hfind, Control.positive]
  split
  · rename_i hpos
    have hint : variantToInt (number d.port.val) = some (d.port.val : Int) :=
      variantToInt_of_toInt (toInt_number (by omega))
    rw [Option.bind_some, hint, Option.filter_some, if_pos (decide_eq_true hpos), Option.map_some]
  · rfl

theorem session_find_control (d : SessionDialog) {c : Control} (hc : c ∈ controls) :
    d.session.params.find c.key = if c.page.shown d.type d.gateway then c.value d else none := by
  have hcore : ∀ c ∈ controls, c.key ∈ kCoreFields →
      c.key = "port".toList ∨ c.key = "host".toList ∨ c.key = "username".toList := by
    decide +kernel
  rw [← fields_find_control d hc, session]
  by_cases hk : c.key ∈ kCoreFields
  · rw [SessionForm.toSession_find_core _ hk]
    rcases hcore c hc hk with hport | hrest
    · rw [if_pos hport, hport, portField_fields]
    · have hne : c.key ≠ "port".toList := by rcases hrest with h | h <;> rw [h] <;> decide
      rw [if_neg hne, if_pos hrest]
  · rw [SessionForm.toSession_find _ _ hk]

theorem session_find_other (d : SessionDialog) {k : QString} (hk : ∀ c ∈ controls, c.key ≠ k) :
    d.session.params.find k = none := by
  have hkeys (k : QString) (hin : k ∈ controls.map (·.key)) : ¬∀ c ∈ controls, c.key ≠ k := by
    obtain ⟨c, hc, rfl⟩ := List.mem_map.mp hin
    exact fun h => h c hc rfl
  have hport : k ≠ "port".toList := by rintro rfl; exact hkeys _ (by decide) hk
  have hhost : k ≠ "host".toList := by rintro rfl; exact hkeys _ (by decide) hk
  have huser : k ≠ "username".toList := by rintro rfl; exact hkeys _ (by decide) hk
  rw [session]
  by_cases hcore : k ∈ kCoreFields
  · rw [SessionForm.toSession_find_core _ hcore, if_neg hport, if_neg fun h => h.elim hhost huser]
  · have hname : k ≠ "name".toList := by rintro rfl; exact hcore (by decide)
    have htype : k ≠ "type".toList := by rintro rfl; exact hcore (by decide)
    rw [SessionForm.toSession_find _ _ hcore, fields_find_other d hname htype hk]

theorem session_name (d : SessionDialog) : d.session.name = d.name := by
  have hrow : ("name".toList, some d.name) ∈ d.rows := List.mem_cons_self
  have hlookup := (QMap.lookup_iff_mem (by rw [rows_keys]; exact keys_nodup)).mpr hrow
  rw [session, SessionForm.toSession_name, QMap.value, fields_find, hlookup]
  rfl

theorem session_type (d : SessionDialog) : d.session.type = d.type.val := by
  have hrow : ("type".toList, some d.typeText) ∈ d.rows :=
    List.mem_cons_of_mem _ List.mem_cons_self
  have hlookup := (QMap.lookup_iff_mem (by rw [rows_keys]; exact keys_nodup)).mpr hrow
  rw [session, SessionForm.toSession_type, QMap.value, fields_find, hlookup]
  exact sessionTypeFromString_toString _

theorem session_password (d : SessionDialog) :
    d.session.params.find "password" = if d.password = [] then none else some d.password := by
  have hc : (⟨"password", .every, .line, fun d => Control.line d.password⟩ : Control) ∈ controls :=
    List.mem_of_getElem? (i := 3) rfl
  exact (session_find_control d hc).trans (ite_not _ _ _)

theorem session_vault_ref (d : SessionDialog) : d.session.params.find "vault_ref" = none :=
  session_find_other d (by decide)

end SessionDialog

end Ui
