import MacXterm.Connect.Zrle
import MacXterm.Lib.Reactor

namespace Connect

open Qt Rfb

inductive Phase where
  | version
  | security
  | securityResult
  | serverInit
  | running
  deriving DecidableEq

inductive State where
  | disconnected
  | connecting
  | connected
  | failed
  | closed
  deriving DecidableEq

inductive Event where
  | write (data : QByteArray)
  | stateChanged (s : State)
  | errorOccurred (text : QString)
  | serverReady (width height : UInt16) (name : QString)
  | copyRect (srcX srcY x y w h : UInt16)
  | rectDecoded (x y w h : UInt16) (pixels : List UInt32)
  deriving DecidableEq

structure VncConnection (z : Zlib) where
  phase : Phase
  buf : QByteArray
  serverInit : ServerInit
  zlib : RfbZlibStream z
  state : State

namespace VncConnection

variable {z : Zlib}

def connecting : VncConnection z :=
  ⟨.version, [], ⟨0, 0, 0, 0, [], false⟩, .init, .connecting⟩

abbrev VncTurn (z : Zlib) : Type := Turn (VncConnection z) Event

def setState (c : VncConnection z) (s : State) : VncConnection z × List Event :=
  if s ≠ c.state then ({ c with state := s }, [.stateChanged s]) else (c, [])

def fail (c : VncConnection z) (text : QString) : VncTurn z :=
  let (c, out) := c.setState .failed
  .rest c (out ++ [.errorOccurred text])

def readVersion (c : VncConnection z) : VncTurn z :=
  if c.buf.length < 12 then .rest c []
  else
    match parseVersion (c.buf.take 12) with
    | none => c.fail "Bad RFB version"
    | some v =>
        .go { c with buf := removeFront c.buf 12, phase := .security } [.write (formatVersion v)]

def readSecurity (c : VncConnection z) : VncTurn z :=
  if c.buf = [] then .rest c []
  else
    let n := (byteAt c.buf 0).toNat
    if n = 0 then c.fail "Server rejected connection"
    else if c.buf.length < 1 + n then .rest c []
    else
      let types := mid c.buf 1 n
      let chosen := if 1 ∈ types then 1 else byteAt types 0
      .go { c with buf := removeFront c.buf (1 + n), phase := .securityResult }
        [.write [chosen]]

def readSecurityResult (c : VncConnection z) : VncTurn z :=
  if c.buf.length < 4 then .rest c []
  else
    let result := rd32be c.buf 0
    let c := { c with buf := removeFront c.buf 4 }
    if result ≠ 0 then c.fail "VNC authentication failed"
    else .go { c with phase := .serverInit } [.write [1]]

def requestFramebuffer (s : ServerInit) : QByteArray :=
  [3, 0, 0, 0, 0, 0] ++ BigEndian.bytes16 s.width ++ BigEndian.bytes16 s.height

-- 24 + nameLen is a quint32: it wraps, int() of it may be negative, left and remove take it as it is.
def readServerInit (c : VncConnection z) : VncTurn z :=
  if c.buf.length < 24 then .rest c []
  else
    let size := (24 + rd32be c.buf 20).toNat
    if c.buf.length < int32 size then .rest c []
    else
      let s := parseServerInit (c.buf.take size)
      let c := { c with serverInit := s, buf := removeFront c.buf size }
      let (c, out) := c.setState .connected
      .go { c with phase := .running }
        (out ++ [.serverReady s.width s.height s.name,
          .write (encodeSetEncodings [EncZRLE, EncHextile, EncRRE, EncCopyRect, EncRaw]),
          .write (requestFramebuffer s)])

def decode (zlib : RfbZlibStream z) (r : Rectangle) (buf : QByteArray) (off : Int) :
    RectData × RfbZlibStream z :=
  if r.encoding = EncZRLE then decodeZRLERect zlib r buf off else (decodeRect r buf off 4, zlib)

structure Update (z : Zlib) where
  decoded : List (Rectangle × RectData)
  off : Int
  zlib : RfbZlibStream z
  complete : Bool

-- The for loop over the headers; off stands behind the header of the rectangle to decode.
def decodeRects (buf : QByteArray) :
    List Rectangle → Int → RfbZlibStream z → Update z
  | [], off, zlib => ⟨[], off, zlib, true⟩
  | r :: rects, off, zlib =>
      let off := int32 (off + 12)
      let (d, zlib) := decode zlib r buf off
      if !d.complete then ⟨[], off, zlib, false⟩
      else
        let u := decodeRects buf rects (int32 (off + d.consumed)) zlib
        { u with decoded := (r, d) :: u.decoded }

def signal (p : Rectangle × RectData) : Event :=
  if p.2.isCopy then .copyRect p.2.srcX p.2.srcY p.1.x p.1.y p.1.width p.1.height
  else .rectDecoded p.1.x p.1.y p.1.width p.1.height p.2.pixels

def readUpdate (c : VncConnection z) : VncTurn z :=
  if c.buf = [] ∨ byteAt c.buf 0 ≠ 0 then .rest c []
  else
    match parseFramebufferUpdate c.buf with
    | none => .rest c []
    | some rects =>
        let u := decodeRects c.buf rects 4 c.zlib
        let c := { c with zlib := u.zlib }
        if !u.complete then .rest c (u.decoded.map signal)
        else .go { c with buf := removeFront c.buf u.off } (u.decoded.map signal)

-- One block of onReadyRead, or one turn of its loop: it returns or goes on to the next.
def turn (c : VncConnection z) : VncTurn z :=
  match c.phase with
  | .version => c.readVersion
  | .security => c.readSecurity
  | .securityResult => c.readSecurityResult
  | .serverInit => c.readServerInit
  | .running => c.readUpdate

section Blocks

variable {c : VncConnection z}

theorem turn_version (h : c.phase = .version) : c.turn = c.readVersion := by rw [turn, h]

theorem turn_security (h : c.phase = .security) : c.turn = c.readSecurity := by rw [turn, h]

theorem turn_securityResult (h : c.phase = .securityResult) :
    c.turn = c.readSecurityResult := by rw [turn, h]

theorem turn_serverInit (h : c.phase = .serverInit) : c.turn = c.readServerInit := by
  rw [turn, h]

theorem turn_running (h : c.phase = .running) : c.turn = c.readUpdate := by rw [turn, h]

end Blocks

def receive (c : VncConnection z) (data : QByteArray) : VncConnection z :=
  { c with buf := c.buf ++ data }

-- The four blocks before the loop run once each and a turn of the loop that removes nothing is
-- followed by the same turn for ever, so none stands for a loop that does not end.
def onReadyRead (c : VncConnection z) (data : QByteArray) :
    Option (VncConnection z × List Event) :=
  Reactor.run turn ((c.buf ++ data).length + 5) (c.receive data)

end VncConnection

end Connect
