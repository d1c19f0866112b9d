import MacXterm.Qt.Map

namespace Core

open Qt

inductive SessionType where
  | ssh | telnet | rsh | rlogin | serial | mosh | sftp | ftp | s3
  | shell | rdp | vnc | xdmcp | browser | unknown
  deriving DecidableEq

def typeNames : QHash SessionType QString :=
  [(.ssh, "SSH"), (.telnet, "Telnet"), (.rsh, "RSH"), (.rlogin, "Rlogin"), (.serial, "Serial"),
    (.mosh, "Mosh"), (.sftp, "SFTP"), (.ftp, "FTP"), (.s3, "S3"), (.shell, "Shell"),
    (.rdp, "RDP"), (.vnc, "VNC"), (.xdmcp, "XDMCP"), (.browser, "Browser"),
    (.unknown, "Unknown")]

def sessionTypeToString (t : SessionType) : QString := typeNames.value t "Unknown"

def sessionTypeFromString (s : QString) : SessionType :=
  let up := toUpper (trimmed s)
  match typeNames.find? fun e => toUpper e.2 == up with
  | some e => e.1
  | none => .unknown

theorem sessionTypeFromString_toString (t : SessionType) :
    sessionTypeFromString (sessionTypeToString t) = t := by
  cases t <;> decide

@[ext] structure Session where
  name : QString
  type : SessionType
  params : QMap QString
  deriving DecidableEq

namespace Session

def param (s : Session) (key : QString) : QString := s.params.value key []

def setParam (s : Session) (key value : QString) : Session :=
  { s with params := s.params.insert key value }

def setParams (s : Session) (p : QMap QString) : Session := { s with params := p }

def setName (s : Session) (n : QString) : Session := { s with name := n }

def host (s : Session) : QString := s.param "host"

def setHost (s : Session) (h : QString) : Session := s.setParam "host" h

def username (s : Session) : QString := s.param "username"

def setUsername (s : Session) (u : QString) : Session := s.setParam "username" u

def setPort (s : Session) (p : Int) : Session := s.setParam "port" (number p)

def port (s : Session) : Int :=
  match toInt (s.param "port") with
  | some p => p
  | none =>
      match s.type with
      | .ssh | .sftp | .mosh => 22
      | .telnet => 23
      | .rlogin => 513
      | .rsh => 514
      | .ftp => 21
      | .rdp => 3389
      | .vnc => 5900
      | .xdmcp => 177
      | _ => 0

@[simp] theorem find_setParam (s : Session) (key value k : QString) :
    (s.setParam key value).params.find k = if k = key then some value else s.params.find k :=
  QMap.find_insert s.params key k value

theorem param_eq (s : Session) (key : QString) : s.param key = (s.params.find key).getD [] := rfl

theorem param_setParam_ne {s : Session} {key v k : QString} (h : k ≠ key) :
    (s.setParam key v).param k = s.param k := by
  rw [param_eq, find_setParam, if_neg h, ← param_eq]

theorem param_setParam_self (s : Session) (key v : QString) : (s.setParam key v).param key = v := by
  rw [param_eq, find_setParam, if_pos rfl, Option.getD_some]

theorem param_ite_ne {s : Session} {c : Prop} [Decidable c] {key v k : QString} (h : k ≠ key) :
    (if c then s.setParam key v else s).param k = s.param k := by
  split
  · exact param_setParam_ne h
  · rfl

theorem param_ite_not_ne {s : Session} {c : Prop} [Decidable c] {key v k : QString} (h : k ≠ key) :
    (if c then s else s.setParam key v).param k = s.param k := by
  split
  · rfl
  · exact param_setParam_ne h

end Session

end Core
