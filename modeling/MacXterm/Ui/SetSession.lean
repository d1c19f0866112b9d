import MacXterm.Core.Readings
import MacXterm.Qt.Widgets
import MacXterm.Ui.SessionDialog

namespace Ui

open Qt Core

def iconItems : List QString := ["🔑", "🖥️", "🌐", "📁", "⭐", "🐚", "🔒", "🧪"]

namespace SessionDialog

-- The type box is not editable: a text that is none of its items leaves the first one current.
def typeItem (text : QString) : { t : SessionType // t ∈ typeItems } :=
  match typeItems.attach.find? fun t => sessionTypeToString t.val = text with
  | some t => t
  | none => ⟨.ssh, ssh_mem_typeItems⟩

-- label is the translated text of the first item, which carries no data; an icon that the box
-- does not offer is added as an item and then looked up by its text.
def iconData (label ic : QString) : QString :=
  if ic = [] ∨ ic ∈ iconItems then ic
  else if ic = label then []
  else ic

def resolutionItem (w h : QString) : { r : QString // r ∈ resolutionItems } :=
  let res : QString := if w ≠ [] ∧ h ≠ [] then w ++ '×' :: h else "Default"
  if hres : res ∈ resolutionItems then ⟨res, hres⟩ else ⟨"Default", default_mem_resolutionItems⟩

def schemeItem (sc : QString) : { c : QString // c ∈ schemeItems } :=
  if hsc : sc ∈ schemeItems then ⟨sc, hsc⟩ else ⟨[], by decide⟩

def scrollbackValue (sb : QString) : { n : Int // -1 ≤ n ∧ n ≤ 1000000 } :=
  let v := if sb = [] then -1 else (toInt sb).getD 0
  ⟨max (-1) (min v 1000000), by omega⟩

def backspaceItem (b : QString) : { b : QString // b ∈ backspaceItems } :=
  if b = "ctrl-h".toList then ⟨"ctrl-h", by decide⟩ else ⟨[], by decide⟩

-- setSession on the dialog as its constructor leaves it.
def setSession (label : QString) (s : Session) : SessionDialog :=
  let f := SessionForm.fromSession s
  { name := lineEdit (f.value "name" [])
    type := typeItem (f.value "type" [])
    host := lineEdit (f.value "host" [])
    port := spinBox 65535 ((variantToInt (f.value "port" [])).getD 0)
    user := lineEdit (f.value "username" [])
    password := lineEdit (s.param "password")
    keyfile := lineEdit (s.param "keyfile")
    passphrase := lineEdit (s.param "passphrase")
    gateway := lineEdit (s.param "gateway")
    shell := lineEdit (s.param "shell")
    folder := lineEdit (s.param "folder")
    icon := iconData label (s.param "icon")
    compression := s.param "compression" = "1".toList
    x11 := s.params.value "x11" "1" ≠ "0".toList
    agent := s.param "agent" = "1".toList
    agentForward := s.param "agentforward" = "1".toList
    sshKeepalive := spinBox 86400 ((toInt (s.param "keepalive")).getD 0)
    sshRemoteCmd := lineEdit (s.param "remotecommand")
    sshStayOpen := s.param "stayopen" = "1".toList
    gwUser := lineEdit (s.param "gateway_user")
    gwPassword := lineEdit (s.param "gateway_password")
    gwPassphrase := lineEdit (s.param "gateway_passphrase")
    domain := lineEdit (s.param "domain")
    rdpResolution := resolutionItem (s.param "width") (s.param "height")
    rdpClipboard := s.params.value "redirect_clipboard" "1" ≠ "0".toList
    rdpDrives := s.param "redirect_drives" = "1".toList
    rdpAudio := s.param "redirect_audio" = "1".toList
    rdpNla := s.params.value "nla" "1" ≠ "0".toList
    rdpIgnoreCert := s.param "ignorecert" = "1".toList
    vncViewOnly := s.param "viewonly" = "1".toList
    termFont := lineEdit (s.param "term.font")
    termFontSize := spinBox 72 ((toInt (s.param "term.fontSize")).getD 0)
    termScheme := schemeItem (s.param "term.scheme")
    termScrollback := scrollbackValue (s.param "term.scrollback")
    termBackspace := backspaceItem (s.param "term.backspace") }

end SessionDialog

end Ui
