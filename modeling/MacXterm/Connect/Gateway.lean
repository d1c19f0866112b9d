import MacXterm.Core.Session
import MacXterm.Qt.Words

namespace Connect

open Qt Core

structure Gateway where
  user : QString
  host : QString
  port : Int
  deriving DecidableEq

namespace Gateway

-- toInt() gives 0 where the text is no number.
def portOf (text : QString) : Int :=
  let port := (toInt text).getD 0
  if port ≤ 0 then 22 else port

def address (spec : QString) : QString × Int :=
  match cutAt ':' spec with
  | some (host, port) => (host, portOf port)
  | none => (spec, 22)

-- The gateway spec [user@]host[:port] of a session; it has one only where spec is not empty.
def ofSession (s : Session) : Gateway :=
  let spec := s.param "gateway"
  let r := match cutAt '@' spec with
    | some (user, rest) => (user, address rest)
    | none => (s.username, address spec)
  let user := if s.param "gateway_user" = [] then r.1 else s.param "gateway_user"
  ⟨user, r.2.1, r.2.2⟩

end Gateway

structure Outcomes where
  openSocket : Bool
  sessionInit : Bool
  handshake : Bool
  userauth : Bool
  directTcpip : Bool
  socketPair : Bool

-- What a session talks over: a socket dialled to the target, a channel of a gateway, a device.
inductive Link where
  | socket (host : QString) (port : Int)
  | channel (gw : Gateway) (host : QString) (port : Int)
  | device (name : QString)
  deriving DecidableEq

-- The hosts dialled in opening a connection, and the link it has if that worked.
structure Attempt where
  dialled : List (QString × Int)
  link : Option Link
  deriving DecidableEq

def dial (o : Outcomes) (host : QString) (port : Int) : Attempt :=
  ⟨[(host, port)], if o.openSocket then some (.socket host port) else none⟩

namespace SshConnection

def openViaJump (o : Outcomes) (s : Session) : Attempt :=
  let gw := Gateway.ofSession s
  let link := if o.openSocket && o.sessionInit && o.handshake && o.userauth && o.directTcpip &&
      o.socketPair then some (.channel gw s.host s.port) else none
  ⟨[(gw.host, gw.port)], link⟩

def connectSession (o : Outcomes) (s : Session) : Attempt :=
  if s.param "gateway" ≠ [] then openViaJump o s else dial o s.host s.port

end SshConnection

-- static_cast<quint16>
def u16 (p : Int) : Int := p % 2 ^ 16

namespace TelnetConnection

def connectSession (o : Outcomes) (s : Session) : Attempt := dial o s.host (u16 s.port)

end TelnetConnection

namespace SimpleTcpConnection

def connectSession (o : Outcomes) (s : Session) : Attempt := dial o s.host (u16 s.port)

end SimpleTcpConnection

namespace SerialConnection

def connectSession (o : Outcomes) (s : Session) : Attempt :=
  let name := s.param "port"
  ⟨[], if o.openSocket then some (.device name) else none⟩

end SerialConnection

end Connect
