import MacXterm.Lib.Mealy
import MacXterm.Qt.FileSystem
import MacXterm.Qt.Map

namespace Ftp

open Qt

structure Command where
  verb : QString
  arg : QString
  valid : Bool
  deriving DecidableEq

def parse (toUpper : QString → QString) (line : QByteArray) : Command :=
  let s := trimmed (fromUtf8 line)
  if s = [] then ⟨[], [], false⟩
  else
    match s.findIdx? (· == ' ') with
    | none => ⟨toUpper s, [], toUpper s ≠ []⟩
    | some sp => ⟨toUpper (s.take sp), s.drop (sp + 1), toUpper (s.take sp) ≠ []⟩

def reply (code : Nat) (text : QString) : QByteArray :=
  toUtf8 (number code) ++ toUtf8 (' ' :: text) ++ toUtf8 ['\r', '\n']

structure Conn where
  cwd : QString
  dataSrv : Bool
  storeTarget : QString
  deriving DecidableEq

def Conn.initial : Conn := ⟨['/'], false, []⟩

structure FtpServer where
  root : QString
  bindAddr : QString
  conns : QHash Nat Conn
  deriving DecidableEq

-- What the network does during one command: the port PASV's listener gets, and the bytes the
-- client sends on the data connection when it opens one.
structure Network where
  listenPort : Option UInt16
  dataConnection : Option QByteArray

structure Outcome (σ : Type) where
  conn : Conn
  fs : σ
  control : List QByteArray
  data : Option QByteArray
  closes : Bool

namespace FtpServer

variable (s : FtpServer)

def rootAbs : QString := QDir.cleanPath s.root

def absolute (conn : Conn) (arg : QString) : QString :=
  let rel := if arg.head? = some '/' then arg else conn.cwd ++ '/' :: arg
  QDir.cleanPath (s.root ++ '/' :: rel)

def resolve (conn : Conn) (arg : QString) : QString :=
  let abs := s.absolute conn arg
  if QDir.Inside s.rootAbs abs then abs else s.rootAbs

end FtpServer

section Commands

variable {σ : Type} (F : FileSystem σ) (s : FtpServer) (conn : Conn) (fs : σ) (net : Network)
  (cmd : Command)

def answer (code : Nat) (text : QString) : Outcome σ := ⟨conn, fs, [reply code text], none, false⟩

def acceptData : Option QByteArray := if conn.dataSrv then net.dataConnection else none

def cwd : Outcome σ :=
  let abs := s.resolve conn cmd.arg
  if F.isDir fs abs then
    let rel := abs.drop s.rootAbs.length
    let conn := { conn with cwd := if rel = [] then ['/'] else rel }
    answer conn fs 250 ("Directory changed to ".toList ++ conn.cwd)
  else answer conn fs 550 "No such directory"

def pasv : Outcome σ :=
  let conn := { conn with dataSrv := true }
  match net.listenPort with
  | none => answer conn fs 425 "Cannot open data connection"
  | some p =>
      let oct := s.bindAddr.splitOn '.'
      let host := [','].intercalate ((List.range 4).map fun i => oct.getD i [])
      answer conn fs 227 ("Entering Passive Mode (".toList ++ host ++ ',' :: number (p.toNat / 256) ++
        ',' :: number (p.toNat % 256) ++ [')'])

def rightJustified (width : Nat) (t : QString) : QString :=
  List.replicate (width - t.length) ' ' ++ t

def listLine (fi : FileInfo) : QString :=
  (if fi.isDir then 'd' else '-') :: "rw-r--r-- 1 owner group ".toList ++
    rightJustified 12 (number fi.size) ++ ' ' :: fi.lastModified ++ ' ' :: fi.fileName ++ ['\r', '\n']

def nlstLine (fi : FileInfo) : QString := fi.fileName ++ ['\r', '\n']

def transfer (opening : QString) (body : QByteArray) : Outcome σ :=
  match acceptData conn net with
  | none => ⟨conn, fs, [reply 150 opening, reply 425 "No data connection"], none, false⟩
  | some _ => ⟨conn, fs, [reply 150 opening, reply 226 "Transfer complete"], some body, false⟩

def list (line : FileInfo → QString) : Outcome σ :=
  let infos := F.entryInfoList fs (s.resolve conn cmd.arg)
  transfer conn fs net "Opening data connection for directory list"
    (infos.flatMap fun fi => toUtf8 (line fi))

def retr : Outcome σ :=
  match F.openRead fs (s.resolve conn cmd.arg) with
  | none => answer conn fs 550 "No such file"
  | some body => transfer conn fs net "Opening data connection" body

def stor : Outcome σ :=
  let opening := reply 150 "Opening data connection"
  match acceptData conn net with
  | none => ⟨conn, fs, [opening, reply 425 "No data connection"], none, false⟩
  | some body =>
      match F.openWrite fs (s.resolve conn cmd.arg) body with
      | none => ⟨conn, fs, [opening, reply 550 "Cannot store file"], none, false⟩
      | some (fs, wrote) =>
          if wrote = body.length then
            ⟨conn, fs, [opening, reply 226 "Transfer complete"], none, false⟩
          else ⟨conn, fs, [opening, reply 550 "Cannot store file"], none, false⟩

def mkd : Outcome σ :=
  match F.mkpath fs (s.resolve conn cmd.arg) with
  | (true, fs) => answer conn fs 257 ('"' :: cmd.arg ++ "\" created".toList)
  | (false, fs) => answer conn fs 550 "Cannot create directory"

def rmd : Outcome σ :=
  match F.removeRecursively fs (s.resolve conn cmd.arg) with
  | (true, fs) => answer conn fs 250 "Directory removed"
  | (false, fs) => answer conn fs 550 "Cannot remove"

def dele : Outcome σ :=
  match F.remove fs (s.resolve conn cmd.arg) with
  | some fs => answer conn fs 250 "File deleted"
  | none => answer conn fs 550 "Cannot delete"

def rnfr : Outcome σ :=
  let conn := { conn with storeTarget := s.resolve conn cmd.arg }
  if F.pathExists fs conn.storeTarget then answer conn fs 350 "Ready for RNTO"
  else answer conn fs 550 "No such file"

def rnto : Outcome σ :=
  let cleared := { conn with storeTarget := [] }
  match decide (conn.storeTarget ≠ []), F.rename fs conn.storeTarget (s.resolve conn cmd.arg) with
  | true, some fs => answer cleared fs 250 "Renamed"
  | _, _ => answer cleared fs 550 "Rename failed"

def execute : Outcome σ :=
  let v := cmd.verb
  if v = "USER" then answer conn fs 331 "User name okay, need password"
  else if v = "PASS" then answer conn fs 230 "User logged in"
  else if v = "SYST" then answer conn fs 215 "UNIX Type: L8"
  else if v = "TYPE" then answer conn fs 200 ("Type set to ".toList ++ cmd.arg)
  else if v = "NOOP" then answer conn fs 200 "OK"
  else if v = "PWD" then answer conn fs 257 ('"' :: conn.cwd ++ "\" is current directory".toList)
  else if v = "CWD" then cwd F s conn fs cmd
  else if v = "PASV" then pasv s conn fs net
  else if v = "LIST" then list F s conn fs net cmd listLine
  else if v = "NLST" then list F s conn fs net cmd nlstLine
  else if v = "RETR" then retr F s conn fs net cmd
  else if v = "STOR" then stor F s conn fs net cmd
  else if v = "MKD" then mkd F s conn fs cmd
  else if v = "RMD" then rmd F s conn fs cmd
  else if v = "DELE" then dele F s conn fs cmd
  else if v = "RNFR" then rnfr F s conn fs cmd
  else if v = "RNTO" then rnto F s conn fs cmd
  else if v = "SITE" then answer conn fs 200 "OK"
  else if v = "QUIT" then ⟨conn, fs, [reply 221 "Goodbye"], none, true⟩
  else answer conn fs 502 "Command not implemented"

end Commands

structure Step (σ : Type) where
  server : FtpServer
  fs : σ
  control : List QByteArray
  data : Option QByteArray
  closes : Bool

def connOf (s : FtpServer) (c : Nat) : Conn := s.conns.value c .initial

def handleLine {σ : Type} (F : FileSystem σ) (toUpper : QString → QString) (s : FtpServer) (fs : σ)
    (c : Nat) (line : QByteArray) (net : Network) : Step σ :=
  let cmd := parse toUpper line
  if !cmd.valid then ⟨s, fs, [reply 500 "Syntax error"], none, false⟩
  else
    let o := execute F s (connOf s c) fs net cmd
    ⟨{ s with conns := s.conns.insert c o.conn }, o.fs, o.control, o.data, o.closes⟩

def newConnection (s : FtpServer) (c : Nat) : FtpServer × QByteArray :=
  ({ s with conns := s.conns.insert c .initial }, reply 220 "macXterm FTP ready")

def disconnected (s : FtpServer) (c : Nat) : FtpServer :=
  { s with conns := s.conns.filter fun e => e.1 ≠ c }

section Isolation

variable {σ : Type}

-- What happens to the sockets of the clients, with the disk and the network as a line finds them.
inductive ServerEvent (σ : Type) where
  | newConnection (c : Nat)
  | readyRead (c : Nat) (line : QByteArray) (fs : σ) (net : Network)
  | disconnected (c : Nat)

def ServerEvent.client : ServerEvent σ → Nat
  | .newConnection c => c
  | .readyRead c _ _ _ => c
  | .disconnected c => c

structure Effects (σ : Type) where
  fs : Option σ
  control : List QByteArray
  data : Option QByteArray
  closes : Bool

variable (F : FileSystem σ) (toUpper : QString → QString)

def serve (s : FtpServer) : ServerEvent σ → FtpServer × List (Effects σ)
  | .newConnection c =>
      let (s, greeting) := newConnection s c
      (s, [⟨none, [greeting], none, false⟩])
  | .readyRead c line fs net =>
      let t := handleLine F toUpper s fs c line net
      (t.server, [⟨some t.fs, t.control, t.data, t.closes⟩])
  | .disconnected c => (disconnected s c, [])

structure SameFor (c : Nat) (s t : FtpServer) : Prop where
  root : s.root = t.root
  bindAddr : s.bindAddr = t.bindAddr
  conn : connOf s c = connOf t c

theorem connOf_insert (s : FtpServer) (c d : Nat) (conn : Conn) :
    connOf { s with conns := s.conns.insert c conn } d = if d = c then conn else connOf s d := by
  change ((s.conns.insert c conn).find d).getD .initial = _
  rw [QHash.find_insert]
  split <;> rfl

theorem connOf_disconnected (s : FtpServer) (c d : Nat) :
    connOf (disconnected s c) d = if d = c then .initial else connOf s d := by
  change ((s.conns.erase c).find d).getD .initial = _
  rw [QHash.find_erase]
  split <;> rfl

theorem execute_sameFor {c : Nat} {s t : FtpServer} (h : SameFor c s t) :
    execute F s = execute F t := by
  obtain ⟨root, bindAddr, conns⟩ := s
  obtain ⟨root', bindAddr', conns'⟩ := t
  obtain ⟨hroot, hbind, -⟩ := h
  cases hroot
  cases hbind
  rfl

theorem serve_own (s t : FtpServer) (e : ServerEvent σ) (h : SameFor e.client s t) :
    SameFor e.client (serve F toUpper s e).1 (serve F toUpper t e).1 ∧
      (serve F toUpper s e).2 = (serve F toUpper t e).2 := by
  cases e with
  | newConnection c =>
    refine ⟨⟨h.root, h.bindAddr, ?_⟩, rfl⟩
    rw [serve, serve, newConnection, newConnection, ServerEvent.client, connOf_insert,
      connOf_insert, if_pos rfl, if_pos rfl]
  | readyRead c line fs net =>
    have hconn : connOf s c = connOf t c := h.conn
    simp only [serve, handleLine, hconn, execute_sameFor F h]
    split
    · exact ⟨h, rfl⟩
    · refine ⟨⟨h.root, h.bindAddr, ?_⟩, rfl⟩
      rw [ServerEvent.client, connOf_insert, connOf_insert, if_pos rfl, if_pos rfl]
  | disconnected c =>
    refine ⟨⟨h.root, h.bindAddr, ?_⟩, rfl⟩
    rw [serve, serve, ServerEvent.client, connOf_disconnected, connOf_disconnected, if_pos rfl,
      if_pos rfl]

theorem serve_other (s t : FtpServer) (e : ServerEvent σ) (c : Nat) (hc : e.client ≠ c)
    (h : SameFor c s t) : SameFor c (serve F toUpper s e).1 t := by
  cases e with
  | newConnection d =>
    refine ⟨h.root, h.bindAddr, ?_⟩
    exact (connOf_insert s d c _).trans ((if_neg hc.symm).trans h.conn)
  | readyRead d line fs net =>
    simp only [serve, handleLine]
    split
    · exact h
    · refine ⟨h.root, h.bindAddr, ?_⟩
      exact (connOf_insert s d c _).trans ((if_neg hc.symm).trans h.conn)
  | disconnected d =>
    refine ⟨h.root, h.bindAddr, ?_⟩
    exact (connOf_disconnected s d c).trans ((if_neg hc.symm).trans h.conn)

-- A client is served as if it had the server to itself.
theorem connections_isolated (s : FtpServer) (events : List (ServerEvent σ)) (c : Nat) :
    let own := events.filter fun e => e.client = c
    (Mealy.trace (serve F toUpper) s events).filter (fun e => e.1.client = c) =
        Mealy.trace (serve F toUpper) s own ∧
      connOf (Mealy.after (serve F toUpper) s events) c =
        connOf (Mealy.after (serve F toUpper) s own) c := by
  intro own
  have hisolated : SameFor c (Mealy.after (serve F toUpper) s events)
      (Mealy.after (serve F toUpper) s own) ∧ _ :=
    Mealy.isolated (serve_own F toUpper) (serve_other F toUpper) ⟨rfl, rfl, rfl⟩
  exact ⟨hisolated.2, hisolated.1.conn⟩

end Isolation

end Ftp
