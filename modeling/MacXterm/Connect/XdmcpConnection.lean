import MacXterm.Lib.Mealy
import MacXterm.Lib.Reactor
import MacXterm.Connect.XdmcpProtocol

namespace Connect

open Qt Xdmcp

namespace Xdmcp

inductive Phase where
  | idle
  | query
  | request
  | done
  deriving DecidableEq

structure Remote where
  address : QString
  port : UInt16

-- The bound UDP socket: its IPv4 address and the datagrams the system holds for it.
structure Socket where
  localAddress : UInt32
  pending : List QByteArray

inductive Output where
  | sent (datagram : QByteArray) (peer : Remote)
  | willing (hostname status : QByteArray)
  | accepted (sessionId : UInt32)
  | rejected (opcode : UInt16)
  | failed (error : QString)

def ipv4Bytes (v4 : UInt32) : QByteArray :=
  BigEndian.bytes32 (if v4 ≠ 0 then v4 else 0x7F000001)

def requestParams (localAddress : UInt32) : RequestParams where
  connectionTypes := [0]
  connectionAddresses := [ipv4Bytes localAddress]
  authorizationNames := [toUtf8 ("MIT-MAGIC-COOKIE-1" : String)]

-- One datagram of the loop in onReadyRead; at rest the loop is left.
def handle (remote : Remote) (localAddress : UInt32) (phase : Phase) (dg : QByteArray) :
    Turn Phase Output :=
  let h := parseHeader dg
  if !h.valid then .go phase []
  else if isRejection h.opcode then .rest .done [.rejected h.opcode]
  else if phase = .query ∧ h.opcode = Willing then
    let w := parseWilling dg
    if !w.valid then .go phase []
    else .go .request
      [.willing w.hostname w.status, .sent (encodeRequest (requestParams localAddress)) remote]
  else if phase = .request ∧ h.opcode = Accept then
    let a := parseAccept dg
    if !a.valid then .go phase []
    else .go .done [.accepted a.sessionId]
  else .go phase []

end Xdmcp

structure XdmcpConnection where
  sock : Option Socket
  remote : Remote
  phase : Phase

namespace XdmcpConnection

def new : XdmcpConnection := ⟨none, ⟨[], 177⟩, .idle⟩

-- addresses is what the host name resolves to, bound the address the socket is given.
def start (c : XdmcpConnection) (addresses : List QString) (bound : Option UInt32)
    (port : UInt16) : Bool × XdmcpConnection × List Output :=
  match addresses with
  | [] => (false, c, [.failed ("Cannot resolve host" : String)])
  | peer :: _ =>
      match bound with
      | none =>
          (false, { c with sock := none, remote := ⟨peer, port⟩ },
            [.failed ("Cannot bind UDP socket" : String)])
      | some localAddress =>
          (true, ⟨some ⟨localAddress, []⟩, ⟨peer, port⟩, .query⟩,
            [.sent (encodeQuery []) ⟨peer, port⟩])

def stop (c : XdmcpConnection) : XdmcpConnection := { c with sock := none, phase := .idle }

def readPending (c : XdmcpConnection) (localAddress : UInt32) :
    List QByteArray → XdmcpConnection × List (QByteArray × List Output)
  | [] => ({ c with sock := some ⟨localAddress, []⟩ }, [])
  | dg :: rest =>
      match handle c.remote localAddress c.phase dg with
      | .rest phase out =>
          (⟨some ⟨localAddress, rest⟩, c.remote, phase⟩, [(dg, out)])
      | .go phase out =>
          let r := readPending { c with phase } localAddress rest
          (r.1, (dg, out) :: r.2)

def onReadyRead (c : XdmcpConnection) : XdmcpConnection × List (QByteArray × List Output) :=
  match c.sock with
  | none => (c, [])
  | some sock => c.readPending sock.localAddress sock.pending

inductive Event where
  | arrive (dg : QByteArray)
  | readyRead
  | stop

def arrive (c : XdmcpConnection) (dg : QByteArray) : XdmcpConnection :=
  { c with sock := c.sock.map fun sock => { sock with pending := sock.pending ++ [dg] } }

def handleEvent (c : XdmcpConnection) :
    Event → XdmcpConnection × List (QByteArray × List Output)
  | .arrive dg => (c.arrive dg, [])
  | .readyRead => c.onReadyRead
  | .stop => (c.stop, [])

-- Every datagram read in the run, with what it made the connection put out.
def run (c : XdmcpConnection) : List Event → XdmcpConnection × List (QByteArray × List Output)
  | [] => (c, [])
  | e :: es =>
      let r := c.handleEvent e
      let q := run r.1 es
      (q.1, r.2 ++ q.2)

end XdmcpConnection

end Connect
