import MacXterm.Lib.Mealy
import MacXterm.Sftp.CommandRoundTrip
import MacXterm.Sftp.FtpClient
import MacXterm.Sftp.Listing
import MacXterm.Sftp.RemotePath
import MacXterm.Sftp.ReplyFraming
import MacXterm.Tools.Ftp.Escape

namespace Sftp

open Qt Lines Ftp

-- The pieces in which a stream arrives.
abbrev Cut := { cut : QByteArray → List QByteArray // ∀ b, (cut b).flatten = b }

-- What the network and the client's own disk do during one call.
structure Occasion where
  cut : Cut
  listenPort : Option UInt16
  reachable : Bool
  opened : Bool

structure FtpSession (σ : Type) where
  server : FtpServer
  fs : σ
  -- What the server has written on the control connection and the client has not read.
  ctrl : Source UInt8
  -- What the last command sent on a data connection.
  data : Option QByteArray

inductive RemoteCall where
  | list (path : QString)
  | download (remotePath : QString)
  | upload (body : QByteArray) (remotePath : QString)
  | makeDir (path : QString)
  | removeFile (path : QString)
  | removeDir (path : QString)
  | rename (source target : QString)
  | chmod (path : QString) (mode : Nat)

inductive Turn (σ : Type) where
  | call (on : Occasion) (call : RemoteCall)
  -- Something else changes the served disk between two calls.
  | elsewhere (fs : σ)

def chmodText (path : QString) (mode : Nat) : QString :=
  "CHMOD ".toList ++ Nat.toDigits 8 mode ++ ' ' :: path

-- The calls that come to one command and its one reply.
def RemoteCall.single : RemoteCall → Option (QString × QString)
  | .makeDir path => some ("MKD", path)
  | .removeFile path => some ("DELE", path)
  | .removeDir path => some ("RMD", path)
  | .chmod path mode => some ("SITE", chmodText path mode)
  | _ => none

inductive RemoteAnswer where
  | listed (entries : Option (List SftpEntry))
  | downloaded (transfer : Transfer)
  | uploaded (ret : Int)
  | done (ok : Bool)

def Occasion.connects (on : Occasion) : Bool := on.listenPort.isSome && on.reachable

-- What a command line carries as it is.
def Fits (arg : QString) : Prop := '\n' ∉ arg ∧ ∀ c, arg.getLast? = some c → isSpace c = false

-- The address in the text of a 227 reply.
def passive (reply : QString) : Option (QString × UInt16) :=
  match reply.findIdx? (· == '('), reply.findIdx? (· == ')') with
  | some a, some b =>
      if b < a then none
      else
        let n := ((reply.drop (a + 1)).take (b - a - 1)).splitOn ','
        if n.length < 6 then none
        else
          let part (i : Nat) : BitVec 32 := BitVec.ofInt 32 ((toInt (n.getD i [])).getD 0)
          some (['.'].intercalate (n.take 4), .ofBitVec ((part 4 <<< 8 ||| part 5).setWidth 16))
  | _, _ => none

-- What stands between the first and the last quotation mark of a 257 reply.
def quoted (reply : QString) : Option QString :=
  match reply.findIdx? (· == '"'), RemotePath.lastIndexOf reply '"' with
  | some a, b => if b > a then some ((reply.drop (a + 1)).take (b.toNat - a - 1)) else none
  | none, _ => none

def whole (chunk : QByteArray) : Option Chunk := some ⟨chunk, chunk.length⟩

namespace FtpSession

variable {σ : Type} (F : FileSystem σ) (toUpper : QString → QString) (wide : Char → Bool)
  (nameLess : QString → QString → Bool) (c : Nat) (on : Occasion)

def serve (net : Network) (s : FtpSession σ) (line : QByteArray) : FtpSession σ :=
  let r := handleLine F toUpper s.server s.fs c line net
  let arrivals := s.ctrl.arrivals ++ (on.cut.val r.control.flatten).map some
  ⟨r.server, r.fs, ⟨s.ctrl.buffer, arrivals⟩, r.data⟩

def sendCmd (net : Network) (verb arg : QString) (s : FtpSession σ) :
    (Int × QString) × FtpSession σ :=
  let lines := drain FtpClient.lineFeed (on.cut.val (FtpClient.command verb arg))
  let s := lines.foldl (serve F toUpper c on net) s
  let r := FtpClient.readReply wide s.ctrl
  (r.1, { s with ctrl := r.2 })

def lastReply (s : FtpSession σ) : Int × FtpSession σ :=
  let r := FtpClient.readReply wide s.ctrl
  (r.1.1, { s with ctrl := r.2 })

-- A connection to where nobody listens fails.
def openPasv (s : FtpSession σ) : Bool × FtpSession σ :=
  let r := sendCmd F toUpper wide c on ⟨on.listenPort, none⟩ "PASV" [] s
  let listening := on.listenPort.map fun p => (s.server.bindAddr, p)
  (r.1.1 = 227 ∧ passive r.1.2 ≠ none ∧ passive r.1.2 = listening ∧ on.reachable, r.2)

def list (path : QString) (s : FtpSession σ) : Option (List SftpEntry) × FtpSession σ :=
  let (pasv, s) := openPasv F toUpper wide c on s
  if ¬pasv then (none, s)
  else
    let (reply, s) := sendCmd F toUpper wide c on ⟨none, some []⟩ "LIST" path s
    let chunks := on.cut.val (s.data.getD [])
    let (last, t) := lastReply wide s
    let r : FtpClient.ListResults := ⟨true, pasv, reply.1.toNat, chunks.dropLast.map some,
      chunks.getLast?.getD [], last.toNat⟩
    (FtpClient.list nameLess r, if reply.1 ≠ 150 ∧ reply.1 ≠ 125 then s else t)

def download (remotePath : QString) (s : FtpSession σ) : Transfer × FtpSession σ :=
  let (pasv, s) := openPasv F toUpper wide c on s
  if ¬pasv then (.failed, s)
  else
    let (reply, s) := sendCmd F toUpper wide c on ⟨none, some []⟩ "RETR" remotePath s
    let chunks := on.cut.val (s.data.getD [])
    let tail := chunks.getLast?.getD []
    let (last, t) := lastReply wide s
    let r : FtpClient.DownloadResults := ⟨true, pasv, reply.1.toNat, on.opened,
      chunks.dropLast.map whole, ⟨tail, tail.length⟩, last.toNat, chunks.flatten.length⟩
    (FtpClient.download r, if reply.1.tdiv 100 ≠ 1 ∨ ¬on.opened then s else t)

def upload (body : QByteArray) (remotePath : QString) (s : FtpSession σ) : Int × FtpSession σ :=
  if ¬on.opened then (-1, s)
  else
    let (pasv, s) := openPasv F toUpper wide c on s
    if ¬pasv then (-1, s)
    else
      let sent (bytes : QByteArray) :=
        sendCmd F toUpper wide c on ⟨none, some bytes⟩ "STOR" remotePath s
      let reply := (sent body).1
      -- A client that gives up closes the data connection with nothing sent.
      let s := if reply.1.tdiv 100 = 1 then (sent body).2 else (sent []).2
      let (last, t) := lastReply wide s
      let r : FtpClient.UploadResults := ⟨true, on.opened, pasv, reply.1.toNat, body, body.length,
        last.toNat⟩
      ((FtpClient.upload r).ret, if reply.1.tdiv 100 = 1 then t else s)

def accepted (verb arg : QString) (s : FtpSession σ) : Bool × FtpSession σ :=
  let r := sendCmd F toUpper wide c on ⟨none, none⟩ verb arg s
  (r.1.1.tdiv 100 = 2, r.2)

def makeDir (path : QString) (s : FtpSession σ) : Bool × FtpSession σ :=
  accepted F toUpper wide c on "MKD" path s

def removeFile (path : QString) (s : FtpSession σ) : Bool × FtpSession σ :=
  accepted F toUpper wide c on "DELE" path s

def removeDir (path : QString) (s : FtpSession σ) : Bool × FtpSession σ :=
  accepted F toUpper wide c on "RMD" path s

def rename (source target : QString) (s : FtpSession σ) : Bool × FtpSession σ :=
  let r := sendCmd F toUpper wide c on ⟨none, none⟩ "RNFR" source s
  if r.1.1 = 350 then accepted F toUpper wide c on "RNTO" target r.2 else (false, r.2)

def chmod (path : QString) (mode : Nat) (s : FtpSession σ) : Bool × FtpSession σ :=
  accepted F toUpper wide c on "SITE" (chmodText path mode) s

def call (s : FtpSession σ) : RemoteCall → FtpSession σ × RemoteAnswer
  | .list path =>
      let r := list F toUpper wide nameLess c on path s
      (r.2, .listed r.1)
  | .download remotePath =>
      let r := download F toUpper wide c on remotePath s
      (r.2, .downloaded r.1)
  | .upload body remotePath =>
      let r := upload F toUpper wide c on body remotePath s
      (r.2, .uploaded r.1)
  | .makeDir path =>
      let r := makeDir F toUpper wide c on path s
      (r.2, .done r.1)
  | .removeFile path =>
      let r := removeFile F toUpper wide c on path s
      (r.2, .done r.1)
  | .removeDir path =>
      let r := removeDir F toUpper wide c on path s
      (r.2, .done r.1)
  | .rename source target =>
      let r := rename F toUpper wide c on source target s
      (r.2, .done r.1)
  | .chmod path mode =>
      let r := chmod F toUpper wide c on path mode s
      (r.2, .done r.1)

def step (s : FtpSession σ) : Turn σ → FtpSession σ × List RemoteAnswer
  | .call on request =>
      let r := call F toUpper wide nameLess c on s request
      (r.1, [r.2])
  | .elsewhere fs => ({ s with fs }, [])

-- The directory the client then works from, none where it gives up.
def connectSession (cwd username password : QString) (s : FtpSession σ) :
    Option QString × FtpSession σ :=
  let send (verb arg : QString) (s : FtpSession σ) :=
    sendCmd F toUpper wide c on ⟨none, none⟩ verb arg s
  let (greeting, s) := lastReply wide s
  if greeting.tdiv 100 ≠ 2 then (none, s)
  else
    let user := send "USER" (if username = [] then "anonymous".toList else username) s
    let pass := send "PASS" password user.2
    let (code, s) := if user.1.1 = 331 then (pass.1.1, pass.2) else (user.1.1, user.2)
    if code.tdiv 100 ≠ 2 then (none, s)
    else
      let pwd := send "PWD" [] (send "TYPE" ['I'] s).2
      (some (if pwd.1.1 = 257 then (quoted pwd.1.2).getD cwd else cwd), pwd.2)

end FtpSession

section Replies

variable {wide : Char → Bool}

-- What the client makes of a line the server wrote.
def heard (n : Nat) (text : QString) : Int × QString := (n, trimmed (number n ++ ' ' :: text))

@[simp]
theorem heard_code (n : Nat) (text : QString) : (heard n text).1 = n := rfl

theorem reply_bytes {n : Nat} {code : ReplyCode} (h : code.chars = number n) (text : QString) :
    reply n text = code.start ++ toUtf8 text ++ crlf := by
  have hbreak : toUtf8 ['\r', '\n'] = crlf := by decide
  have htext : toUtf8 (' ' :: text) = toUtf8 [' '] ++ toUtf8 text := toUtf8_append [' '] text
  rw [reply, ReplyCode.start, h, hbreak, htext, toUtf8_append]
  simp only [List.append_assoc]

theorem lineFeed_not_mem {text : QString} (h : '\n' ∉ text) :
    FtpClient.lineFeed ∉ toUtf8 text := by
  have hmem := mem_toUtf8_ascii (c := '\n') (by decide) (s := text)
  exact fun hbyte => h (hmem.mp hbyte)

theorem fromUtf8_reply (n : Nat) (text : QString) :
    trimmed (fromUtf8 (reply n text)) = trimmed (number n ++ ' ' :: text) := by
  have hbytes : reply n text = toUtf8 (number n ++ ' ' :: text ++ ['\r', '\n']) := by
    rw [toUtf8_append, toUtf8_append]
    rfl
  have hdigit (d : Char) (hd : d ∈ number n) : d.isDigit = true := isDigit_of_mem_number hd
  have hbom : dropBom (number n ++ ' ' :: text ++ ['\r', '\n']) =
      number n ++ ' ' :: text ++ ['\r', '\n'] := by
    obtain ⟨d, ds, hds⟩ := List.exists_cons_of_ne_nil (number_ne_nil n)
    have hne : d ≠ '\uFEFF' := by
      rintro rfl
      exact absurd (hdigit _ (hds ▸ List.mem_cons_self)) (by decide)
    rw [hds, List.cons_append, List.cons_append, dropBom_cons hne]
  rw [hbytes, fromUtf8_toUtf8, hbom, trimmed_back (List.all_eq_true.mp rfl)]

theorem readReply_reply {n : Nat} {text : QString} {rest : QByteArray} {ctrl : Source UInt8}
    (hn : CodeRange n) (htext : '\n' ∉ text) (hflow : ctrl.Flowing)
    (h : ctrl.unread = reply n text ++ rest) :
    (FtpClient.readReply wide ctrl).1 = heard n text ∧
      (FtpClient.readReply wide ctrl).2.unread = rest ∧
      (FtpClient.readReply wide ctrl).2.Flowing := by
  obtain ⟨code, hchars, hvalue⟩ := exists_code hn
  have hscan := @scan_single wide code ⟨toUtf8 text, lineFeed_not_mem htext⟩ rest
  rw [← reply_bytes hchars, ← h, fromUtf8_reply, hvalue] at hscan
  exact readReply_scan hflow hscan

end Replies

section Passive

theorem port_parts (p : UInt16) :
    UInt16.ofBitVec ((BitVec.ofInt 32 ((p.toNat / 256 : Nat) : Int) <<< 8 |||
      BitVec.ofInt 32 ((p.toNat % 256 : Nat) : Int)).setWidth 16) = p := by
  have hlt := p.toNat_lt
  apply UInt16.toNat_inj.mp
  rw [UInt16.toNat_ofBitVec, BitVec.toNat_setWidth, BitVec.toNat_or, BitVec.toNat_shiftLeft,
    BitVec.ofInt_natCast, BitVec.ofInt_natCast, BitVec.toNat_ofNat, BitVec.toNat_ofNat,
    Nat.mod_eq_of_lt (show p.toNat / 256 < 2 ^ 32 by omega),
    Nat.mod_eq_of_lt (show p.toNat % 256 < 2 ^ 32 by omega), Nat.shiftLeft_eq,
    Nat.mod_eq_of_lt (show p.toNat / 256 * 2 ^ 8 < 2 ^ 32 by omega), ← Nat.shiftLeft_eq,
    ← Nat.shiftLeft_add_eq_or_of_lt (show p.toNat % 256 < 2 ^ 8 by omega), Nat.shiftLeft_eq]
  omega

theorem passive_numbered {lead : QString} (hopen : '(' ∉ lead) (hclose : ')' ∉ lead)
    {quad : List Nat} (hquad : quad.length = 4) (p : UInt16) :
    passive (lead ++ '(' :: (numbered ',' (quad ++ [p.toNat / 256, p.toNat % 256]) ++ [')'])) =
      some (numbered '.' quad, p) := by
  have hlt := p.toNat_lt
  generalize hns : quad ++ [p.toNat / 256, p.toNat % 256] = ns
  have hbody : ')' ∉ lead ++ '(' :: numbered ',' ns := by
    intro hmem
    rcases List.mem_append.mp hmem with hmem | hmem
    · exact hclose hmem
    · rcases List.mem_cons.mp hmem with hmem | hmem
      · exact absurd hmem (by decide)
      · rcases mem_numbered hmem with hmem | hmem
        · exact absurd hmem (by decide)
        · exact absurd hmem (by decide)
  have hlast := @findIdx?_append_cons (lead ++ '(' :: numbered ',' ns) ')' hbody []
  rw [List.append_assoc, List.cons_append] at hlast
  have hlength : (lead ++ '(' :: numbered ',' ns).length =
      lead.length + 1 + (numbered ',' ns).length := by
    simp only [List.length_append, List.length_cons]
    omega
  have hmid : ((lead ++ '(' :: (numbered ',' ns ++ [')'])).drop (lead.length + 1)).take
      ((lead ++ '(' :: numbered ',' ns).length - lead.length - 1) = numbered ',' ns := by
    rw [hlength, ← List.drop_drop, List.drop_left, List.drop_one, List.tail_cons,
      List.take_append_of_le_length (by omega), List.take_of_length_le (by omega)]
  have hsplit : (numbered ',' ns).splitOn ',' = ns.map fun n : Nat => number n :=
    splitOn_numbered (by decide) (by rw [← hns]; simp)
  have hhost : (ns.map fun n : Nat => number n).take 4 = quad.map fun n : Nat => number n := by
    rw [← hns, List.map_append, List.take_append_of_le_length (by simp [hquad]),
      List.take_of_length_le (by simp [hquad])]
  have hhigh : (ns.map fun n : Nat => number n).getD 4 [] = number (p.toNat / 256 : Nat) := by
    simp [← hns, hquad]
  have hlow : (ns.map fun n : Nat => number n).getD 5 [] = number (p.toNat % 256 : Nat) := by
    simp [← hns, hquad]
  simp only [passive, findIdx?_append_cons hopen, hlast, hmid, hsplit]
  rw [if_neg (by omega), if_neg (by simp [← hns, hquad]), hhost, hhigh, hlow,
    toInt_number (by omega), toInt_number (by omega), Option.getD_some, Option.getD_some,
    port_parts]
  rfl

def passiveText (quad : List Nat) (p : UInt16) : QString :=
  "Entering Passive Mode (".toList ++
    (numbered ',' (quad ++ [p.toNat / 256, p.toNat % 256]) ++ [')'])

theorem numbered_passive {quad : List Nat} (hne : quad ≠ []) (lead : QString) (high low : Nat) :
    lead ++ numbered ',' quad ++ ',' :: number high ++ ',' :: number low ++ [')'] =
      lead ++ (numbered ',' (quad ++ [high, low]) ++ [')']) := by
  have hsplit : quad ++ [high, low] = quad ++ [high] ++ [low] := by
    rw [List.append_assoc]
    rfl
  rw [hsplit, numbered_concat (by simp), numbered_concat hne]
  simp only [List.append_assoc, List.cons_append]

def pasvReply (quad : List Nat) : Option UInt16 → Nat × QString
  | none => (425, "Cannot open data connection")
  | some p => (227, passiveText quad p)

theorem pasv_eq {σ : Type} {s : FtpServer} {quad : List Nat} (hquad : quad.length = 4)
    (haddr : s.bindAddr = numbered '.' quad) (conn : Conn) (fs : σ) (net : Network) :
    pasv s conn fs net = answer { conn with dataSrv := true } fs (pasvReply quad net.listenPort).1
      (pasvReply quad net.listenPort).2 := by
  cases hport : net.listenPort with
  | none => rw [pasv, hport, pasvReply]
  | some p =>
    obtain ⟨a, b, c, d, rfl⟩ := List.length_eq_four.mp hquad
    have hhigh : ((p.toNat / 256 : Nat) : Int) = p.toNat / 256 := Int.natCast_ediv _ _
    have hlow : ((p.toNat % 256 : Nat) : Int) = p.toNat % 256 := Int.natCast_emod _ _
    have hhost : [','].intercalate ((List.range 4).map fun i =>
        ([a, b, c, d].map fun n : Nat => number n).getD i []) = numbered ',' [a, b, c, d] := rfl
    unfold pasv
    rw [hport, haddr, splitOn_numbered (by decide) (List.cons_ne_nil _ _)]
    dsimp only
    rw [hhost, ← hhigh, ← hlow, numbered_passive (List.cons_ne_nil _ _)]
    unfold pasvReply passiveText
    with_reducible rfl

theorem pasvReply_range (quad : List Nat) (port : Option UInt16) :
    CodeRange (pasvReply quad port).1 := by
  cases port with
  | none => exact (by decide : CodeRange 425)
  | some p => exact (by decide : CodeRange 227)

theorem pasvReply_line (quad : List Nat) (port : Option UInt16) :
    '\n' ∉ (pasvReply quad port).2 := by
  cases port with
  | none => exact (by decide : '\n' ∉ "Cannot open data connection".toList)
  | some p =>
    intro hmem
    rcases List.mem_append.mp hmem with hmem | hmem
    · exact absurd hmem (by decide)
    · rcases List.mem_append.mp hmem with hmem | hmem
      · rcases mem_numbered hmem with hmem | hmem
        · exact absurd hmem (by decide)
        · exact absurd hmem (by decide)
      · exact absurd hmem (by decide)

theorem heard_passiveText {quad : List Nat} (hquad : quad.length = 4) (p : UInt16) :
    passive (heard 227 (passiveText quad p)).2 = some (numbered '.' quad, p) := by
  have hlead : number 227 ++ ' ' :: passiveText quad p = "227 Entering Passive Mode ".toList ++
      '(' :: (numbered ',' (quad ++ [p.toNat / 256, p.toNat % 256]) ++ [')']) := rfl
  have hflush : Flush ("227 Entering Passive Mode ".toList ++
      '(' :: (numbered ',' (quad ++ [p.toNat / 256, p.toNat % 256]) ++ [')'])) := by
    refine ⟨fun e he => ?_, fun e he => ?_⟩
    · obtain rfl := Option.some.inj he
      rfl
    · rw [List.getLast?_append_cons] at he
      simp only [List.getLast?_cons, List.getLast?_concat] at he
      obtain rfl := Option.some.inj he
      rfl
  have hheard : (heard 227 (passiveText quad p)).2 =
      trimmed (number 227 ++ ' ' :: passiveText quad p) := rfl
  rw [hheard, hlead, trimmed_flush hflush, passive_numbered (by decide) (by decide) hquad]

end Passive

section Exchange

variable {σ : Type} {F : FileSystem σ} {toUpper : QString → QString} {wide : Char → Bool} {c : Nat}
  {on : Occasion}

theorem lines_sent (verb : Verb) {arg : QString} (h : '\n' ∉ arg) :
    drain FtpClient.lineFeed (on.cut.val (FtpClient.command verb.val arg)) =
      [FtpClient.command verb.val arg] := by
  have hline := command_line verb.val arg
  rw [hline]
  exact drain_line (fun hmem => h ((lineFeed_mem verb arg).mp hmem)) (on.cut.property _)

-- One command carried out with the outcome o, after which the client has `rest` still to read.
structure Sent (c : Nat) (s : FtpSession σ) (o : Outcome σ) (rest : QByteArray)
    (t : FtpSession σ) : Prop where
  server : t.server = { s.server with conns := s.server.conns.insert c o.conn }
  fs : t.fs = o.fs
  data : t.data = o.data
  unread : t.ctrl.unread = rest
  flowing : t.ctrl.Flowing

variable (wide on) in
theorem sendCmd_reply {verb : Verb} {arg kept : QString} (harg : '\n' ∉ arg)
    (hparse : parse toUpper (FtpClient.command verb.val arg) = ⟨verb.val, kept, true⟩)
    {net : Network} {s : FtpSession σ} (hflow : s.ctrl.Flowing) {n : Nat} {text : QString}
    {rest : QByteArray} (hn : CodeRange n) (htext : '\n' ∉ text) {o : Outcome σ}
    (ho : execute F s.server (connOf s.server c) s.fs net ⟨verb.val, kept, true⟩ = o)
    (h : s.ctrl.unread ++ o.control.flatten = reply n text ++ rest) :
    (FtpSession.sendCmd F toUpper wide c on net verb.val arg s).1 = heard n text ∧
      Sent c s o rest (FtpSession.sendCmd F toUpper wide c on net verb.val arg s).2 := by
  have hserved : handleLine F toUpper s.server s.fs c (FtpClient.command verb.val arg) net =
      ⟨{ s.server with conns := s.server.conns.insert c o.conn }, o.fs, o.control, o.data,
        o.closes⟩ := by
    rw [← ho, ← hparse]
    exact handleLine_valid (by rw [hparse]; exact verb.property.1) s.fs c net
  have hunread := unread_append s.ctrl (on.cut.val o.control.flatten)
  rw [on.cut.property, h] at hunread
  have hread := @readReply_reply wide n text rest _ hn htext
    (flowing_append hflow (on.cut.val o.control.flatten)) hunread
  simp only [FtpSession.sendCmd, lines_sent verb harg, List.foldl_cons, List.foldl_nil,
    FtpSession.serve, hserved]
  exact ⟨hread.1, rfl, rfl, rfl, hread.2.1, hread.2.2⟩

def target (root path : QString) : QString := FtpServer.resolve ⟨root, [], []⟩ .initial path

def listed (F : FileSystem σ) (fs : σ) (p : QString) : QByteArray :=
  (F.entryInfoList fs p).flatMap fun fi => toUtf8 (listLine fi)

def stored (F : FileSystem σ) (fs : σ) (p : QString) (body : QByteArray) : σ :=
  match F.openWrite fs p body with
  | none => fs
  | some r => r.1

def fetched (connects : Bool) (content : Option QByteArray) : Transfer :=
  match connects, content with
  | true, some content => ⟨content.length, some content⟩
  | _, _ => .failed

-- What a call comes to where the client's paths are taken for paths on the served disk.
def direct (F : FileSystem σ) (nameLess : QString → QString → Bool) (root : QString)
    (on : Occasion) (fs : σ) : RemoteCall → σ × RemoteAnswer
  | .list path =>
      (fs, .listed (if on.connects then
        some (FtpClient.parseFtpList nameLess (listed F fs (target root path))) else none))
  | .download remotePath =>
      (fs, .downloaded (fetched on.connects (F.openRead fs (target root remotePath))))
  | .upload body remotePath =>
      (if on.opened && on.connects then stored F fs (target root remotePath) body else fs,
        .uploaded (if on.opened && on.connects then body.length else -1))
  | .makeDir path =>
      let r := F.mkpath fs (target root path)
      (r.2, .done r.1)
  | .removeFile path =>
      let r := F.remove fs (target root path)
      (r.getD fs, .done r.isSome)
  | .removeDir path =>
      let r := F.removeRecursively fs (target root path)
      (r.2, .done r.1)
  | .rename source dest =>
      let r := if F.pathExists fs (target root source) then
        F.rename fs (target root source) (target root dest) else none
      (r.getD fs, .done r.isSome)
  | .chmod _ _ => (fs, .done true)

def directStep (F : FileSystem σ) (nameLess : QString → QString → Bool) (root : QString) (fs : σ) :
    Turn σ → σ × List RemoteAnswer
  | .call on request =>
      let r := direct F nameLess root on fs request
      (r.1, [r.2])
  | .elsewhere fs => (fs, [])

-- A download's local file has to open where the server has begun to send.
def Admissible (F : FileSystem σ) (root : QString) (fs : σ) : Turn σ → Prop
  | .call _ (.list path) => Fits path
  | .call on (.download remotePath) => Fits remotePath ∧
      (on.connects = true → F.openRead fs (target root remotePath) ≠ none → on.opened = true)
  | .call _ (.upload _ remotePath) => Fits remotePath
  | .call _ (.makeDir path) => Fits path
  | .call _ (.removeFile path) => Fits path
  | .call _ (.removeDir path) => Fits path
  | .call _ (.rename source dest) => Fits source ∧ Fits dest
  | .call _ (.chmod path _) => '\n' ∉ path
  | .elsewhere _ => True

-- Between two commands.
structure Steady (root bindAddr : QString) (c : Nat) (s : FtpSession σ) : Prop where
  root : s.server.root = root
  bindAddr : s.server.bindAddr = bindAddr
  cwd : (connOf s.server c).cwd = ['/']
  flowing : s.ctrl.Flowing

-- Between two commands, with every reply read.
structure InStep (root bindAddr : QString) (c : Nat) (s : FtpSession σ) (fs : σ) : Prop
    extends Steady root bindAddr c s where
  fs : s.fs = fs
  unread : s.ctrl.unread = []

variable {root bindAddr : QString} {s t : FtpSession σ} {fs : σ}

theorem Steady.resolve (h : Steady root bindAddr c s) (path : QString) :
    s.server.resolve (connOf s.server c) path = target root path := by
  simp only [target, FtpServer.resolve, FtpServer.absolute, FtpServer.rootAbs, h.root, h.cwd]
  rfl

theorem Sent.conn {o : Outcome σ} {rest : QByteArray} (h : Sent c s o rest t) :
    connOf t.server c = o.conn := by
  rw [h.server]
  simp [connOf, QHash.value, QHash.insert]

theorem Sent.steady {o : Outcome σ} {rest : QByteArray} (hs : Steady root bindAddr c s)
    (hcwd : o.conn.cwd = ['/']) (h : Sent c s o rest t) : Steady root bindAddr c t where
  root := by rw [h.server]; exact hs.root
  bindAddr := by rw [h.server]; exact hs.bindAddr
  cwd := h.conn ▸ hcwd
  flowing := h.flowing

theorem Sent.inStep {o : Outcome σ} (hs : Steady root bindAddr c s) (hcwd : o.conn.cwd = ['/'])
    (h : Sent c s o [] t) : InStep root bindAddr c t o.fs :=
  ⟨h.steady hs hcwd, h.fs, h.unread⟩

section Command

variable (wide on) {verb : Verb} {arg kept : QString} {net : Network} {o : Outcome σ} {n : Nat}
  {text : QString}

theorem sendCmd_once (hs : InStep root bindAddr c s fs) (harg : '\n' ∉ arg)
    (hparse : parse toUpper (FtpClient.command verb.val arg) = ⟨verb.val, kept, true⟩)
    (ho : execute F s.server (connOf s.server c) fs net ⟨verb.val, kept, true⟩ = o)
    (hcontrol : o.control = [reply n text]) (hn : CodeRange n) (htext : '\n' ∉ text) :
    (FtpSession.sendCmd F toUpper wide c on net verb.val arg s).1 = heard n text ∧
      Sent c s o [] (FtpSession.sendCmd F toUpper wide c on net verb.val arg s).2 := by
  have hunread : s.ctrl.unread ++ o.control.flatten = reply n text ++ [] := by
    rw [hs.unread, hcontrol, List.flatten_singleton, List.nil_append, List.append_nil]
  rw [← hs.fs] at ho
  exact sendCmd_reply wide on harg hparse hs.flowing hn htext ho hunread

theorem sendCmd_twice (hs : InStep root bindAddr c s fs) (harg : '\n' ∉ arg)
    (hparse : parse toUpper (FtpClient.command verb.val arg) = ⟨verb.val, kept, true⟩)
    (ho : execute F s.server (connOf s.server c) fs net ⟨verb.val, kept, true⟩ = o)
    {opening : QString} (hcontrol : o.control = [reply 150 opening, reply n text])
    (hopening : '\n' ∉ opening) (hn : CodeRange n) (htext : '\n' ∉ text)
    (hcwd : o.conn.cwd = ['/']) :
    let r := FtpSession.sendCmd F toUpper wide c on net verb.val arg s
    r.1 = heard 150 opening ∧ Sent c s o (reply n text) r.2 ∧
      (FtpSession.lastReply wide r.2).1 = n ∧
      InStep root bindAddr c (FtpSession.lastReply wide r.2).2 o.fs := by
  have hunread : s.ctrl.unread ++ o.control.flatten = reply 150 opening ++ reply n text := by
    rw [hs.unread, hcontrol]
    simp
  rw [← hs.fs] at ho
  obtain ⟨hheard, hsent⟩ := sendCmd_reply wide on harg hparse hs.flowing
    (by decide) hopening ho hunread
  have hlast := @readReply_reply wide n text [] _ hn htext hsent.flowing
    (hsent.unread.trans (List.append_nil _).symm)
  have hsteady := hsent.steady hs.toSteady hcwd
  refine ⟨hheard, hsent, congrArg Prod.fst hlast.1, ⟨?_, hsent.fs, hlast.2.1⟩⟩
  exact ⟨hsteady.root, hsteady.bindAddr, hsteady.cwd, hlast.2.2⟩

theorem accepted_inStep (hs : InStep root bindAddr c s fs) (harg : '\n' ∉ arg)
    (hparse : parse toUpper (FtpClient.command verb.val arg) = ⟨verb.val, kept, true⟩)
    {conn : Conn} {gs : σ}
    (ho : execute F s.server (connOf s.server c) fs ⟨none, none⟩ ⟨verb.val, kept, true⟩ =
      answer conn gs n text) (hn : CodeRange n) (htext : '\n' ∉ text) (hcwd : conn.cwd = ['/']) :
    let r := FtpSession.accepted F toUpper wide c on verb.val arg s
    r.1 = decide ((n : Int).tdiv 100 = 2) ∧ InStep root bindAddr c r.2 gs := by
  obtain ⟨hheard, hsent⟩ := sendCmd_once wide on hs harg hparse ho rfl hn htext
  simp only [FtpSession.accepted, hheard]
  exact ⟨rfl, hsent.inStep hs.toSteady hcwd⟩

theorem sendCmd_answer (hs : InStep root bindAddr c s fs) (harg : '\n' ∉ arg)
    (hparse : parse toUpper (FtpClient.command verb.val arg) = ⟨verb.val, kept, true⟩)
    (ho : execute F s.server (connOf s.server c) fs net ⟨verb.val, kept, true⟩ =
      answer (connOf s.server c) fs n text) (hn : CodeRange n) (htext : '\n' ∉ text) :
    (FtpSession.sendCmd F toUpper wide c on net verb.val arg s).1 = heard n text ∧
      InStep root bindAddr c (FtpSession.sendCmd F toUpper wide c on net verb.val arg s).2 fs := by
  obtain ⟨hheard, hsent⟩ := sendCmd_once wide on hs harg hparse ho rfl hn htext
  exact ⟨hheard, hsent.inStep hs.toSteady hs.cwd⟩

end Command

theorem transfer_open {conn : Conn} {net : Network} (h : conn.dataSrv = true)
    {bytes : QByteArray} (hnet : net.dataConnection = some bytes) (opening : QString)
    (body : QByteArray) :
    transfer conn fs net opening body =
      ⟨conn, fs, [reply 150 opening, reply 226 "Transfer complete"], some body, false⟩ := by
  rw [transfer, acceptData, h, hnet]
  rfl

theorem stor_open {server : FtpServer} {conn : Conn} {net : Network} {cmd : Command}
    (h : conn.dataSrv = true) {body : QByteArray} (hnet : net.dataConnection = some body) :
    ∃ n text, CodeRange n ∧ '\n' ∉ text ∧ stor F server conn fs net cmd =
      ⟨conn, stored F fs (server.resolve conn cmd.arg) body,
        [reply 150 "Opening data connection", reply n text], none, false⟩ := by
  have haccept : acceptData conn net = some body := by rw [acceptData, h, hnet]; rfl
  simp only [stor, haccept, stored]
  cases hwrite : F.openWrite fs (server.resolve conn cmd.arg) body with
  | none => exact ⟨550, "Cannot store file", by decide, by decide, rfl⟩
  | some r =>
    dsimp only
    by_cases hwrote : r.2 = body.length
    · exact ⟨226, "Transfer complete", by decide, by decide, if_pos hwrote⟩
    · exact ⟨550, "Cannot store file", by decide, by decide, if_neg hwrote⟩

section Pieces

variable (chunks : List QByteArray)

theorem flatten_pieces : chunks.dropLast.flatten ++ chunks.getLast?.getD [] = chunks.flatten := by
  rcases List.eq_nil_or_concat chunks with rfl | ⟨init, last, rfl⟩
  · rfl
  · simp

theorem listBody_pieces (body : QByteArray) :
    FtpClient.listBody (chunks.map some) body = body ++ chunks.flatten := by
  induction chunks generalizing body with
  | nil => rw [List.flatten_nil, List.append_nil]; rfl
  | cons chunk chunks ih =>
    rw [List.map_cons, FtpClient.listBody, ih, List.flatten_cons, List.append_assoc]

theorem kept_whole (chunk : QByteArray) : (⟨chunk, chunk.length⟩ : Chunk).kept = chunk := by
  rw [Chunk.kept, Int.toNat_natCast, List.take_length]

theorem readLoop_pieces (total : Int) (file : QByteArray) :
    FtpClient.readLoop (chunks.map whole) total file =
      (total + chunks.flatten.length, file ++ chunks.flatten) := by
  induction chunks generalizing total file with
  | nil => simp [FtpClient.readLoop]
  | cons chunk chunks ih =>
    rw [List.map_cons, whole, FtpClient.readLoop, kept_whole, ih, List.flatten_cons,
      List.append_assoc, List.length_append]
    simp only [Prod.mk.injEq, and_true]
    omega

theorem download_whole {retr : Nat} (h : retr / 100 = 1) (reply : Nat) :
    FtpClient.download ⟨true, true, retr, true, chunks.dropLast.map whole,
      ⟨chunks.getLast?.getD [], (chunks.getLast?.getD []).length⟩, reply, chunks.flatten.length⟩ =
      ⟨chunks.flatten.length, some chunks.flatten⟩ := by
  have hlength : (0 : Int) + chunks.dropLast.flatten.length + (chunks.getLast?.getD []).length =
      chunks.flatten.length := by
    rw [← flatten_pieces chunks, List.length_append]
    omega
  simp only [FtpClient.download, readLoop_pieces, kept_whole, List.nil_append, flatten_pieces, h,
    hlength, List.take_length]
  simp

end Pieces

theorem target_ne_nil (root path : QString) : target root path ≠ [] := by
  have habs : FtpServer.absolute ⟨root, [], []⟩ .initial path ≠ [] := by
    rw [FtpServer.absolute, QDir.cleanPath, if_neg (by simp)]
    exact QDir.render_ne_nil _ _ (QDir.segmentStack_canonical _)
  rw [target, FtpServer.resolve]
  split
  · exact habs
  · rename_i hout
    rw [FtpServer.rootAbs]
    cases root with
    | nil =>
      refine absurd (QDir.inside_nil_of_rooted ?_) hout
      rw [FtpServer.absolute, QDir.cleanPath, if_neg (by simp)]
      exact QDir.isRooted_render _ _ (QDir.segmentStack_canonical _)
    | cons d ds =>
      rw [QDir.cleanPath, if_neg (by simp)]
      exact QDir.render_ne_nil _ _ (QDir.segmentStack_canonical _)

section Calls

variable (hupper : ∀ v : Verb, toUpper v.val = v.val)

include hupper

theorem parse_fits (verb : Verb) {arg : QString} (h : Fits arg) :
    parse toUpper (FtpClient.command verb.val arg) = ⟨verb.val, arg, true⟩ :=
  parse_command verb (hupper verb) h.2

def pasvVerb : Verb := ⟨"PASV", by simp⟩

variable (F wide on) in
theorem openPasv_inStep {quad : List Nat} (hquad : quad.length = 4)
    (hs : InStep root (numbered '.' quad) c s fs) :
    let r := FtpSession.openPasv F toUpper wide c on s
    r.1 = on.connects ∧ InStep root (numbered '.' quad) c r.2 fs ∧
      (connOf r.2.server c).dataSrv = true := by
  have hparse := @parse_fits _ hupper pasvVerb [] ⟨List.not_mem_nil, nofun⟩
  have hexec : execute F s.server (connOf s.server c) fs ⟨on.listenPort, none⟩
      ⟨pasvVerb.val, [], true⟩ = _ :=
    (execute_pasv rfl).trans (pasv_eq hquad hs.bindAddr (connOf s.server c) fs _)
  obtain ⟨hheard, hsent⟩ := sendCmd_once wide on hs List.not_mem_nil hparse hexec
    rfl (pasvReply_range quad on.listenPort) (pasvReply_line quad on.listenPort)
  refine ⟨?_, hsent.inStep hs.toSteady hs.cwd, congrArg Conn.dataSrv hsent.conn⟩
  have hverb : pasvVerb.val = "PASV".toList := rfl
  simp only [FtpSession.openPasv, ← hverb, hheard, hs.bindAddr, Occasion.connects]
  cases on.listenPort with
  | none => rfl
  | some p =>
    have hpassive := heard_passiveText hquad p
    have hcode : (heard 227 (passiveText quad p)).1 = 227 := rfl
    simp only [pasvReply, hpassive, hcode, Option.map_some, Option.isSome_some, Bool.true_and]
    simp

def listVerb : Verb := ⟨"LIST", by simp⟩

def retrVerb : Verb := ⟨"RETR", by simp⟩

def storVerb : Verb := ⟨"STOR", by simp⟩

theorem list_inStep (nameLess : QString → QString → Bool) {quad : List Nat}
    (hquad : quad.length = 4) (hs : InStep root (numbered '.' quad) c s fs) {path : QString}
    (hpath : Fits path) :
    let r := FtpSession.list F toUpper wide nameLess c on path s
    r.1 = (if on.connects then
      some (FtpClient.parseFtpList nameLess (listed F fs (target root path))) else none) ∧
      InStep root (numbered '.' quad) c r.2 fs := by
  obtain ⟨hpasv, hs, hdata⟩ := openPasv_inStep F wide on hupper hquad hs
  simp only [FtpSession.list]
  generalize FtpSession.openPasv F toUpper wide c on s = opened at hpasv hs hdata
  obtain ⟨pasv, s⟩ := opened
  dsimp only at hpasv hs hdata ⊢
  rw [hpasv]
  cases hconnects : on.connects with
  | false => exact ⟨rfl, hs⟩
  | true =>
    have hexec : execute F s.server (connOf s.server c) fs ⟨none, some []⟩
        ⟨listVerb.val, path, true⟩ = _ :=
      (execute_list rfl).trans (transfer_open hdata rfl _ _)
    rw [hs.resolve] at hexec
    have htwice := sendCmd_twice wide on hs hpath.1
      (parse_fits hupper listVerb hpath) hexec rfl (by decide) (by decide) (by decide) hs.cwd
    have hverb : listVerb.val = "LIST".toList := rfl
    rw [hverb] at htwice
    generalize FtpSession.sendCmd F toUpper wide c on ⟨none, some []⟩ "LIST".toList path s = sent
      at htwice
    obtain ⟨hheard, hsent, -, hlast⟩ := htwice
    obtain ⟨answer, t⟩ := sent
    obtain rfl := hheard
    refine ⟨?_, hlast⟩
    have hlisting : t.data.getD [] = listed F fs (target root path) := by
      rw [hsent.data]
      rfl
    simp only [FtpClient.list, listBody_pieces, List.nil_append, flatten_pieces, on.cut.property,
      hlisting]
    simp

variable (wide on) in
-- A file that is there is announced, sent and then reported as sent.
theorem retr_twice (hs : InStep root bindAddr c s fs)
    (hdata : (connOf s.server c).dataSrv = true) {remotePath : QString} (hpath : Fits remotePath)
    {content : QByteArray} (hread : F.openRead fs (target root remotePath) = some content) :
    let r := FtpSession.sendCmd F toUpper wide c on ⟨none, some []⟩ "RETR".toList remotePath s
    r.1 = heard 150 "Opening data connection" ∧
      Sent c s ⟨connOf s.server c, fs, [reply 150 "Opening data connection",
        reply 226 "Transfer complete"], some content, false⟩ (reply 226 "Transfer complete") r.2 ∧
      InStep root bindAddr c (FtpSession.lastReply wide r.2).2 fs := by
  have hexec : execute F s.server (connOf s.server c) fs ⟨none, some []⟩
      ⟨retrVerb.val, remotePath, true⟩ = _ := execute_retr rfl
  rw [retr, hs.resolve, hread] at hexec
  obtain ⟨hheard, hsent, -, hlast⟩ := sendCmd_twice wide on hs hpath.1
    (parse_fits hupper retrVerb hpath) (hexec.trans (transfer_open hdata rfl _ _)) rfl (by decide)
    (by decide) (by decide) hs.cwd
  exact ⟨hheard, hsent, hlast⟩

theorem download_inStep {quad : List Nat} (hquad : quad.length = 4)
    (hs : InStep root (numbered '.' quad) c s fs) {remotePath : QString} (hpath : Fits remotePath)
    (hopened : on.connects = true → F.openRead fs (target root remotePath) ≠ none →
      on.opened = true) :
    let r := FtpSession.download F toUpper wide c on remotePath s
    r.1 = fetched on.connects (F.openRead fs (target root remotePath)) ∧
      InStep root (numbered '.' quad) c r.2 fs := by
  obtain ⟨hpasv, hs, hdata⟩ := openPasv_inStep F wide on hupper hquad hs
  simp only [FtpSession.download]
  generalize FtpSession.openPasv F toUpper wide c on s = opened at hpasv hs hdata
  obtain ⟨pasv, s⟩ := opened
  dsimp only at hpasv hs hdata ⊢
  rw [hpasv]
  cases hconnects : on.connects with
  | false => exact ⟨rfl, hs⟩
  | true =>
    cases hread : F.openRead fs (target root remotePath) with
    | none =>
      have hverb : retrVerb.val = "RETR".toList := rfl
      have hexec : execute F s.server (connOf s.server c) fs ⟨none, some []⟩
          ⟨retrVerb.val, remotePath, true⟩ = _ := execute_retr rfl
      rw [retr, hs.resolve, hread] at hexec
      obtain ⟨hheard, hsent⟩ := sendCmd_once wide on hs hpath.1
        (parse_fits hupper retrVerb hpath) hexec rfl (by decide) (by decide)
      rw [hverb] at hheard hsent
      generalize FtpSession.sendCmd F toUpper wide c on ⟨none, some []⟩ "RETR".toList remotePath s =
        sent at hheard hsent
      obtain ⟨answer, t⟩ := sent
      obtain rfl := hheard
      have hnext : InStep root (numbered '.' quad) c t fs := hsent.inStep hs.toSteady hs.cwd
      simp only [FtpClient.download]
      exact ⟨by simp [fetched], by simpa using hnext⟩
    | some content =>
      have hopened := hopened hconnects (by rw [hread]; exact Option.some_ne_none content)
      have hretr := retr_twice wide on hupper hs hdata hpath hread
      generalize FtpSession.sendCmd F toUpper wide c on ⟨none, some []⟩ "RETR".toList remotePath s =
        sent at hretr
      obtain ⟨answer, t⟩ := sent
      obtain ⟨rfl, hsent, hlast⟩ := hretr
      have hcontent : t.data.getD [] = content := by
        rw [hsent.data]
        rfl
      have hwhole := @download_whole (on.cut.val content) 150 rfl
        (FtpSession.lastReply wide t).1.toNat
      rw [on.cut.property] at hwhole
      simp only [hcontent, hopened, heard_code, on.cut.property]
      exact ⟨by simpa [fetched] using hwhole, by simpa using hlast⟩

theorem upload_inStep {quad : List Nat} (hquad : quad.length = 4)
    (hs : InStep root (numbered '.' quad) c s fs) (body : QByteArray) {remotePath : QString}
    (hpath : Fits remotePath) :
    let r := FtpSession.upload F toUpper wide c on body remotePath s
    r.1 = (if on.opened && on.connects then (body.length : Int) else -1) ∧
      InStep root (numbered '.' quad) c r.2
        (if on.opened && on.connects then stored F fs (target root remotePath) body else fs) := by
  cases hopened : on.opened with
  | false =>
    simp only [FtpSession.upload, hopened]
    exact ⟨rfl, hs⟩
  | true =>
    obtain ⟨hpasv, hs, hdata⟩ := openPasv_inStep F wide on hupper hquad hs
    simp only [FtpSession.upload, hopened]
    generalize FtpSession.openPasv F toUpper wide c on s = opened at hpasv hs hdata
    obtain ⟨pasv, s⟩ := opened
    dsimp only at hpasv hs hdata ⊢
    rw [hpasv]
    cases hconnects : on.connects with
    | false => exact ⟨rfl, hs⟩
    | true =>
      have hverb : storVerb.val = "STOR".toList := rfl
      obtain ⟨n, text, hn, htext, hstor⟩ := @stor_open _ F fs s.server _ ⟨none, some body⟩
        ⟨storVerb.val, remotePath, true⟩ hdata body rfl
      rw [hs.resolve] at hstor
      have hexec : execute F s.server (connOf s.server c) fs ⟨none, some body⟩
          ⟨storVerb.val, remotePath, true⟩ = _ := (execute_stor rfl).trans hstor
      have htwice := sendCmd_twice wide on hs hpath.1
        (parse_fits hupper storVerb hpath) hexec rfl (by decide) hn htext hs.cwd
      rw [hverb] at htwice
      generalize FtpSession.sendCmd F toUpper wide c on ⟨none, some body⟩ "STOR".toList
        remotePath s = sent at htwice
      obtain ⟨hheard, hsent, -, hlast⟩ := htwice
      obtain ⟨answer, t⟩ := sent
      obtain rfl := hheard
      simp only [FtpClient.upload, heard_code]
      exact ⟨by simp, by simpa using hlast⟩

def rnfrVerb : Verb := ⟨"RNFR", by simp⟩

def rntoVerb : Verb := ⟨"RNTO", by simp⟩

theorem rename_inStep (hs : InStep root bindAddr c s fs) {source dest : QString}
    (hsource : Fits source) (hdest : Fits dest) :
    let r := FtpSession.rename F toUpper wide c on source dest s
    let renamed := if F.pathExists fs (target root source) then
      F.rename fs (target root source) (target root dest) else none
    r.1 = renamed.isSome ∧ InStep root bindAddr c r.2 (renamed.getD fs) := by
  have hfrom : rnfrVerb.val = "RNFR".toList := rfl
  have hto : rntoVerb.val = "RNTO".toList := rfl
  have hexec : execute F s.server (connOf s.server c) fs ⟨none, none⟩
      ⟨rnfrVerb.val, source, true⟩ = _ := execute_rnfr rfl
  rw [rnfr, hs.resolve] at hexec
  simp only [FtpSession.rename]
  cases hexists : F.pathExists fs (target root source) with
  | false =>
    rw [hexists] at hexec
    obtain ⟨hheard, hsent⟩ := sendCmd_once wide on hs hsource.1
      (parse_fits hupper rnfrVerb hsource) hexec rfl (by decide) (by decide)
    rw [hfrom] at hheard hsent
    have hcode : (heard 550 "No such file".toList).1 ≠ 350 := by decide
    rw [hheard, if_neg hcode]
    exact ⟨rfl, hsent.inStep hs.toSteady hs.cwd⟩
  | true =>
    rw [hexists] at hexec
    obtain ⟨hheard, hsent⟩ := sendCmd_once wide on hs hsource.1
      (parse_fits hupper rnfrVerb hsource) hexec rfl (by decide) (by decide)
    rw [hfrom] at hheard hsent
    have hcode : (heard 350 "Ready for RNTO".toList).1 = 350 := rfl
    rw [hheard, if_pos hcode]
    have hnext : InStep root bindAddr c _ fs := hsent.inStep hs.toSteady hs.cwd
    have hsaved : (connOf _ c).storeTarget = target root source :=
      congrArg Conn.storeTarget hsent.conn
    generalize (FtpSession.sendCmd F toUpper wide c on ⟨none, none⟩ "RNFR".toList source s).2 = t
      at hnext hsaved
    have hexec : execute F t.server (connOf t.server c) fs ⟨none, none⟩
        ⟨rntoVerb.val, dest, true⟩ = _ := execute_rnto rfl
    rw [rnto, hsaved, hnext.resolve, decide_eq_true (target_ne_nil root source)] at hexec
    have hparse := parse_fits hupper rntoVerb hdest
    rw [← hto, if_pos rfl]
    cases hmoved : F.rename fs (target root source) (target root dest) with
    | none =>
      rw [hmoved] at hexec
      exact accepted_inStep wide on hnext hdest.1 hparse hexec (by decide) (by decide) hnext.cwd
    | some gs =>
      rw [hmoved] at hexec
      exact accepted_inStep wide on hnext hdest.1 hparse hexec (by decide) (by decide) hnext.cwd

-- The one reply to such a call tells how it went.
theorem single_executes (nameLess : QString → QString → Bool) (hs : Steady root bindAddr c s)
    {request : RemoteCall} {verb : Verb} {arg : QString}
    (hsingle : request.single = some (verb.val, arg))
    (hsound : Admissible F root fs (.call on request)) :
    '\n' ∉ arg ∧ ∃ kept n text,
      parse toUpper (FtpClient.command verb.val arg) = ⟨verb.val, kept, true⟩ ∧
      CodeRange n ∧ '\n' ∉ text ∧
      execute F s.server (connOf s.server c) fs ⟨none, none⟩ ⟨verb.val, kept, true⟩ =
        answer (connOf s.server c) (direct F nameLess root on fs request).1 n text ∧
      (direct F nameLess root on fs request).2 = .done (decide ((n : Int).tdiv 100 = 2)) := by
  cases request with
  | makeDir path =>
    obtain ⟨hverb, rfl⟩ := Prod.mk.inj (Option.some.inj hsingle)
    have hexec : execute F s.server (connOf s.server c) fs ⟨none, none⟩
        ⟨verb.val, path, true⟩ = _ := execute_mkd hverb.symm
    rw [mkd, hs.resolve] at hexec
    refine ⟨hsound.1, path, ?_⟩
    simp only [direct]
    cases hmade : F.mkpath fs (target root path) with
    | mk ok gs =>
      rw [hmade] at hexec
      cases ok with
      | true =>
        refine ⟨257, '"' :: path ++ "\" created".toList, parse_fits hupper verb hsound, by decide,
          ?_, hexec, rfl⟩
        have hpath := hsound.1
        simp [hpath]
      | false =>
        exact ⟨550, "Cannot create directory", parse_fits hupper verb hsound, by decide, by decide,
          hexec, rfl⟩
  | removeFile path =>
    obtain ⟨hverb, rfl⟩ := Prod.mk.inj (Option.some.inj hsingle)
    have hexec : execute F s.server (connOf s.server c) fs ⟨none, none⟩
        ⟨verb.val, path, true⟩ = _ := execute_dele hverb.symm
    rw [Ftp.dele, hs.resolve] at hexec
    refine ⟨hsound.1, path, ?_⟩
    simp only [direct]
    cases hremoved : F.remove fs (target root path) with
    | some gs =>
      rw [hremoved] at hexec
      exact ⟨250, "File deleted", parse_fits hupper verb hsound, by decide, by decide, hexec, rfl⟩
    | none =>
      rw [hremoved] at hexec
      exact ⟨550, "Cannot delete", parse_fits hupper verb hsound, by decide, by decide, hexec, rfl⟩
  | removeDir path =>
    obtain ⟨hverb, rfl⟩ := Prod.mk.inj (Option.some.inj hsingle)
    have hexec : execute F s.server (connOf s.server c) fs ⟨none, none⟩
        ⟨verb.val, path, true⟩ = _ := execute_rmd hverb.symm
    rw [rmd, hs.resolve] at hexec
    refine ⟨hsound.1, path, ?_⟩
    simp only [direct]
    cases hremoved : F.removeRecursively fs (target root path) with
    | mk ok gs =>
      rw [hremoved] at hexec
      cases ok with
      | true =>
        exact ⟨250, "Directory removed", parse_fits hupper verb hsound, by decide, by decide, hexec,
          rfl⟩
      | false =>
        exact ⟨550, "Cannot remove", parse_fits hupper verb hsound, by decide, by decide, hexec,
          rfl⟩
  | chmod path mode =>
    obtain ⟨hverb, rfl⟩ := Prod.mk.inj (Option.some.inj hsingle)
    obtain ⟨kept, hparse⟩ := parse_sent verb (hupper verb) (chmodText path mode)
    refine ⟨?_, kept, 200, "OK", hparse, by decide, by decide, execute_site hverb.symm, rfl⟩
    intro hmem
    rcases List.mem_append.mp hmem with hmem | hmem
    · rcases List.mem_append.mp hmem with hmem | hmem
      · exact absurd hmem (by decide)
      · have hdigit := Nat.isDigit_of_mem_toDigits (by decide) (by decide) hmem
        exact absurd hdigit (by decide)
    · rcases List.mem_cons.mp hmem with hmem | hmem
      · exact absurd hmem (by decide)
      · exact hsound hmem
  | list path => cases hsingle
  | download remotePath => cases hsingle
  | upload body remotePath => cases hsingle
  | rename source dest => cases hsingle

omit hupper in
theorem call_single (nameLess : QString → QString → Bool) {request : RemoteCall}
    {verb arg : QString} (h : request.single = some (verb, arg)) (s : FtpSession σ) :
    FtpSession.call F toUpper wide nameLess c on s request =
      ((FtpSession.accepted F toUpper wide c on verb arg s).2,
        .done (FtpSession.accepted F toUpper wide c on verb arg s).1) := by
  cases request with
  | makeDir path => obtain ⟨rfl, rfl⟩ := Prod.mk.inj (Option.some.inj h); rfl
  | removeFile path => obtain ⟨rfl, rfl⟩ := Prod.mk.inj (Option.some.inj h); rfl
  | removeDir path => obtain ⟨rfl, rfl⟩ := Prod.mk.inj (Option.some.inj h); rfl
  | chmod path mode => obtain ⟨rfl, rfl⟩ := Prod.mk.inj (Option.some.inj h); rfl
  | list path => cases h
  | download remotePath => cases h
  | upload body remotePath => cases h
  | rename source dest => cases h

theorem single_inStep (nameLess : QString → QString → Bool) (hs : InStep root bindAddr c s fs)
    {request : RemoteCall} (verb : Verb) {arg : QString}
    (hsingle : request.single = some (verb.val, arg))
    (hsound : Admissible F root fs (.call on request)) :
    let r := FtpSession.call F toUpper wide nameLess c on s request
    InStep root bindAddr c r.1 (direct F nameLess root on fs request).1 ∧
      r.2 = (direct F nameLess root on fs request).2 := by
  obtain ⟨harg, kept, n, text, hparse, hn, htext, hexec, hdone⟩ :=
    single_executes hupper nameLess hs.toSteady hsingle hsound
  obtain ⟨hok, hnext⟩ := accepted_inStep wide on hs harg hparse hexec hn htext hs.cwd
  rw [call_single nameLess hsingle]
  exact ⟨hnext, by rw [hdone, hok]⟩

def mkdVerb : Verb := ⟨"MKD", by simp⟩

def rmdVerb : Verb := ⟨"RMD", by simp⟩

def siteVerb : Verb := ⟨"SITE", by simp⟩

theorem call_inStep (nameLess : QString → QString → Bool) {quad : List Nat}
    (hquad : quad.length = 4) (hs : InStep root (numbered '.' quad) c s fs) {request : RemoteCall}
    (hsound : Admissible F root fs (.call on request)) :
    let r := FtpSession.call F toUpper wide nameLess c on s request
    InStep root (numbered '.' quad) c r.1 (direct F nameLess root on fs request).1 ∧
      r.2 = (direct F nameLess root on fs request).2 := by
  cases request with
  | list path =>
    obtain ⟨hlisted, hnext⟩ := list_inStep hupper nameLess hquad hs hsound
    exact ⟨hnext, congrArg RemoteAnswer.listed hlisted⟩
  | download remotePath =>
    obtain ⟨hmoved, hnext⟩ := download_inStep hupper hquad hs hsound.1 hsound.2
    exact ⟨hnext, congrArg RemoteAnswer.downloaded hmoved⟩
  | upload body remotePath =>
    obtain ⟨hmoved, hnext⟩ := upload_inStep hupper hquad hs body hsound
    exact ⟨hnext, congrArg RemoteAnswer.uploaded hmoved⟩
  | rename source dest =>
    obtain ⟨hrenamed, hnext⟩ := rename_inStep hupper hs hsound.1 hsound.2
    exact ⟨hnext, congrArg RemoteAnswer.done hrenamed⟩
  | makeDir path =>
    exact single_inStep hupper nameLess hs mkdVerb rfl hsound
  | removeFile path =>
    exact single_inStep hupper nameLess hs dele rfl hsound
  | removeDir path =>
    exact single_inStep hupper nameLess hs rmdVerb rfl hsound
  | chmod path mode =>
    exact single_inStep hupper nameLess hs siteVerb rfl hsound

theorem step_inStep (nameLess : QString → QString → Bool) {quad : List Nat}
    (hquad : quad.length = 4) (hs : InStep root (numbered '.' quad) c s fs) {turn : Turn σ}
    (hsound : Admissible F root fs turn) :
    let r := FtpSession.step F toUpper wide nameLess c s turn
    InStep root (numbered '.' quad) c r.1 (directStep F nameLess root fs turn).1 ∧
      r.2 = (directStep F nameLess root fs turn).2 := by
  cases turn with
  | call on request =>
    obtain ⟨hnext, hsame⟩ := call_inStep hupper nameLess hquad hs hsound
    exact ⟨hnext, congrArg (fun a => [a]) hsame⟩
  | elsewhere gs =>
    exact ⟨⟨⟨hs.root, hs.bindAddr, hs.cwd, hs.flowing⟩, rfl, hs.unread⟩, rfl⟩

theorem run_inStep (wide : Char → Bool) (nameLess : QString → QString → Bool) {quad : List Nat}
    (hquad : quad.length = 4) (hs : InStep root (numbered '.' quad) c s fs) {turns : List (Turn σ)}
    (hsound : Mealy.Along (directStep F nameLess root) (Admissible F root) fs turns) :
    let run := FtpSession.step F toUpper wide nameLess c
    let plain := directStep F nameLess root
    InStep root (numbered '.' quad) c (Mealy.after run s turns) (Mealy.after plain fs turns) ∧
      Mealy.outputs run s turns = Mealy.outputs plain fs turns := by
  refine Mealy.refines (fun s gs turn hs hturn => ?_) hs hsound
  exact step_inStep hupper nameLess hquad hs hturn

def userVerb : Verb := ⟨"USER", by simp⟩

def passVerb : Verb := ⟨"PASS", by simp⟩

def typeVerb : Verb := ⟨"TYPE", by simp⟩

def pwdVerb : Verb := ⟨"PWD", by simp⟩

omit hupper in
variable (wide) in
theorem greeting_inStep (hs : Steady root bindAddr c s)
    (h : s.ctrl.unread = reply 220 "macXterm FTP ready") :
    (FtpSession.lastReply wide s).1 = 220 ∧
      InStep root bindAddr c (FtpSession.lastReply wide s).2 s.fs := by
  have hread := @readReply_reply wide 220 "macXterm FTP ready" [] s.ctrl (by decide) (by decide)
    hs.flowing (h.trans (List.append_nil _).symm)
  exact ⟨congrArg Prod.fst hread.1, ⟨hs.root, hs.bindAddr, hs.cwd, hread.2.2⟩, rfl, hread.2.1⟩

theorem connectSession_inStep (hs : Steady root bindAddr c s)
    (hgreeting : s.ctrl.unread = reply 220 "macXterm FTP ready") (cwd : QString)
    {username password : QString} (hname : '\n' ∉ username) (hpass : '\n' ∉ password) :
    let r := FtpSession.connectSession F toUpper wide c on cwd username password s
    r.1 = some ['/'] ∧ InStep root bindAddr c r.2 s.fs := by
  obtain ⟨hcode, hs⟩ := greeting_inStep wide hs hgreeting
  simp only [FtpSession.connectSession, hcode]
  generalize s.fs = fs at hs ⊢
  generalize (FtpSession.lastReply wide s).2 = s at hs
  have huser : '\n' ∉ if username = [] then "anonymous".toList else username := by
    split
    · decide
    · exact hname
  generalize (if username = [] then "anonymous".toList else username) = user at huser
  obtain ⟨kept, hparse⟩ := parse_sent userVerb (hupper userVerb) user
  obtain ⟨hheard, hs⟩ := @sendCmd_answer _ F toUpper wide c on root bindAddr s fs userVerb user kept
    ⟨none, none⟩ _ _ hs huser hparse (execute_user rfl) (by decide) (by decide)
  have hverb : userVerb.val = "USER".toList := rfl
  rw [hverb] at hheard hs
  rw [hheard]
  generalize (FtpSession.sendCmd F toUpper wide c on ⟨none, none⟩ "USER".toList user s).2 = s at hs
  obtain ⟨kept, hparse⟩ := parse_sent passVerb (hupper passVerb) password
  obtain ⟨hheard, hs⟩ := @sendCmd_answer _ F toUpper wide c on root bindAddr s fs passVerb password
    kept ⟨none, none⟩ _ _ hs hpass hparse (execute_pass rfl) (by decide) (by decide)
  have hverb : passVerb.val = "PASS".toList := rfl
  rw [hverb] at hheard hs
  rw [hheard]
  generalize (FtpSession.sendCmd F toUpper wide c on ⟨none, none⟩ "PASS".toList password s).2 = s
    at hs
  have hgreeted : ¬ (220 : Int).tdiv 100 ≠ 2 := by decide
  have hasked : (heard 331 "User name okay, need password".toList).1 = 331 := rfl
  have hadmitted : ¬ (heard 230 "User logged in".toList).1.tdiv 100 ≠ 2 := by decide
  rw [if_neg hgreeted, if_pos hasked]
  dsimp only
  rw [if_neg hadmitted]
  have hparse := @parse_fits _ hupper typeVerb ['I'] ⟨by decide, by rintro d ⟨⟩; rfl⟩
  obtain ⟨-, hs⟩ := @sendCmd_answer _ F toUpper wide c on root bindAddr s fs typeVerb ['I'] ['I']
    ⟨none, none⟩ _ _ hs (by decide) hparse (execute_type rfl) (by decide) (by decide)
  have hverb : typeVerb.val = "TYPE".toList := rfl
  rw [hverb] at hs
  generalize (FtpSession.sendCmd F toUpper wide c on ⟨none, none⟩ "TYPE".toList ['I'] s).2 = s at hs
  have hparse := @parse_fits _ hupper pwdVerb [] ⟨List.not_mem_nil, nofun⟩
  have hexec : execute F s.server (connOf s.server c) fs ⟨none, none⟩ ⟨pwdVerb.val, [], true⟩ = _ :=
    execute_pwd rfl
  rw [hs.cwd] at hexec
  obtain ⟨hheard, hs⟩ := sendCmd_answer wide on hs List.not_mem_nil hparse hexec
    (by decide) (by decide)
  have hverb : pwdVerb.val = "PWD".toList := rfl
  rw [hverb] at hheard hs
  rw [hheard]
  refine ⟨?_, hs⟩
  have hquoted : quoted (heard 257 ('"' :: ['/'] ++ "\" is current directory".toList)).2 =
      some ['/'] := by decide
  have hcode : (heard 257 ('"' :: ['/'] ++ "\" is current directory".toList)).1 = 257 := rfl
  rw [if_pos hcode, hquoted, Option.getD_some]

variable (F wide on) in
theorem login_inStep (server : FtpServer) {quad : List Nat}
    (haddr : server.bindAddr = numbered '.' quad) {ctrl : Source UInt8} (hflow : ctrl.Flowing)
    (hgreeting : ctrl.unread = (newConnection server c).2) (fs : σ) (cwd : QString)
    {username password : QString} (hname : '\n' ∉ username) (hpass : '\n' ∉ password) :
    let r := FtpSession.connectSession F toUpper wide c on cwd username password
      ⟨(newConnection server c).1, fs, ctrl, none⟩
    r.1 = some ['/'] ∧ InStep server.root (numbered '.' quad) c r.2 fs := by
  have hcwd : (connOf (newConnection server c).1 c).cwd = ['/'] := by
    simp [newConnection, connOf, QHash.value, QHash.insert, Conn.initial]
  have hs : Steady server.root (numbered '.' quad) c
      ⟨(newConnection server c).1, fs, ctrl, none⟩ := ⟨rfl, haddr, hcwd, hflow⟩
  exact connectSession_inStep hupper hs hgreeting cwd hname hpass

-- The calls that come to one command, and what else may happen between them.
def Turn.Plain : Turn σ → Prop
  | .call _ request => ∃ (verb : Verb) (arg : QString), request.single = some (verb.val, arg)
  | .elsewhere _ => True

variable (wide) in
theorem stale_inStep (nameLess : QString → QString → Bool) {n : Nat} {text : QString}
    (hn : CodeRange n) (htext : '\n' ∉ text) (hs : Steady root bindAddr c s)
    (hunread : s.ctrl.unread = reply n text) {turns : List (Turn σ)}
    (hplain : ∀ turn ∈ turns, turn.Plain)
    (hsound : Mealy.Along (directStep F nameLess root) (Admissible F root) s.fs turns) :
    let run := FtpSession.step F toUpper wide nameLess c
    Mealy.outputs run s turns =
        (.done (decide ((n : Int).tdiv 100 = 2)) ::
          Mealy.outputs (directStep F nameLess root) s.fs turns).dropLast ∧
      (Mealy.after run s turns).fs = Mealy.after (directStep F nameLess root) s.fs turns := by
  induction turns generalizing s n text with
  | nil => exact ⟨rfl, rfl⟩
  | cons turn turns ih =>
    obtain ⟨hturn, hsound⟩ := hsound
    have hrest := fun t ht => hplain t (List.mem_cons_of_mem turn ht)
    cases turn with
    | elsewhere gs =>
      exact ih hn htext (s := { s with fs := gs }) ⟨hs.root, hs.bindAddr, hs.cwd, hs.flowing⟩
        hunread hrest hsound
    | call on request =>
      obtain ⟨verb, arg, hsingle⟩ := hplain _ List.mem_cons_self
      obtain ⟨harg, kept, m, answered, hparse, hm, hanswered, hexec, hdone⟩ :=
        single_executes hupper nameLess hs hsingle hturn
      have hpending : s.ctrl.unread ++ [reply m answered].flatten =
          reply n text ++ reply m answered := by
        rw [hunread, List.flatten_singleton]
      obtain ⟨hheard, hsent⟩ := sendCmd_reply wide on harg hparse hs.flowing hn
        htext hexec hpending
      have hstep : FtpSession.step F toUpper wide nameLess c s (.call on request) =
          ((FtpSession.sendCmd F toUpper wide c on ⟨none, none⟩ verb.val arg s).2,
            [.done (decide ((n : Int).tdiv 100 = 2))]) := by
        simp only [FtpSession.step, call_single nameLess hsingle, FtpSession.accepted, hheard]
        rfl
      have hplainly : directStep F nameLess root s.fs (.call on request) =
          ((direct F nameLess root on s.fs request).1,
            [.done (decide ((m : Int).tdiv 100 = 2))]) := by
        rw [← hdone]
        rfl
      rw [hplainly] at hsound
      have hfs : (FtpSession.sendCmd F toUpper wide c on ⟨none, none⟩ verb.val arg s).2.fs =
          (direct F nameLess root on s.fs request).1 := hsent.fs
      rw [← hfs] at hsound
      obtain ⟨houts, hafter⟩ := ih hm hanswered (hsent.steady hs hs.cwd) hsent.unread hrest hsound
      simp only [Mealy.outputs_cons, Mealy.after_cons, hstep, hplainly, houts, hafter, ← hfs]
      exact ⟨rfl, trivial⟩

variable (wide) in
-- The client leaves without the reply that tells of the end of the transfer.
theorem download_stale {quad : List Nat} (hquad : quad.length = 4)
    (hs : InStep root (numbered '.' quad) c s fs) {remotePath : QString} (hpath : Fits remotePath)
    (hconnects : on.connects = true) {content : QByteArray}
    (hread : F.openRead fs (target root remotePath) = some content) (hopened : on.opened = false) :
    let r := FtpSession.download F toUpper wide c on remotePath s
    r.1 = .failed ∧ Steady root (numbered '.' quad) c r.2 ∧ r.2.fs = fs ∧
      r.2.ctrl.unread = reply 226 "Transfer complete" := by
  obtain ⟨hpasv, hs, hdata⟩ := openPasv_inStep F wide on hupper hquad hs
  simp only [FtpSession.download]
  generalize FtpSession.openPasv F toUpper wide c on s = opened at hpasv hs hdata
  obtain ⟨pasv, s⟩ := opened
  dsimp only at hpasv hs hdata ⊢
  have hretr := retr_twice wide on hupper hs hdata hpath hread
  generalize FtpSession.sendCmd F toUpper wide c on ⟨none, some []⟩ "RETR".toList remotePath s =
    sent at hretr
  obtain ⟨answer, t⟩ := sent
  obtain ⟨rfl, hsent, -⟩ := hretr
  have hsteady := hsent.steady hs.toSteady hs.cwd
  simp only [hpasv, hconnects, hopened, FtpClient.download, heard_code]
  exact ⟨by simp, by simpa using hsteady, by simpa using hsent.fs, by simpa using hsent.unread⟩

end Calls

end Exchange

theorem asciiUpper_verb (v : Verb) : asciiUpper v.val = v.val := by
  refine (List.map_congr_left fun d hd => ?_).trans (List.map_id _)
  have hbounds := v.bounds hd
  simp only [Char.toNat] at hbounds
  refine dif_neg fun h => ?_
  have hlow := UInt32.le_iff_toNat_le.mp h.1
  have ha : 'a'.val.toNat = 97 := rfl
  omega

def inOnePiece : Cut := ⟨fun b => [b], fun _ => List.flatten_singleton⟩

def openDay : Occasion := ⟨inOnePiece, some 4000, true, true⟩

def localServer : FtpServer := ⟨"/srv", numbered '.' [127, 0, 0, 1], []⟩

def uploadAndFetch : List (Turn PathStore) :=
  [.call openDay (.upload [1, 2, 3] "/a b"), .call openDay (.rename "/a b" "/c"),
    .call openDay (.download "/c")]

def greeted : Source UInt8 := ⟨reply 220 "macXterm FTP ready", []⟩

theorem fits_ab : Fits "/a b" := ⟨by decide, by rintro d ⟨⟩; rfl⟩

theorem fits_c : Fits "/c" := ⟨by decide, by rintro d ⟨⟩; rfl⟩

theorem uploadAndFetch_sound (fs : PathStore) :
    Mealy.Along (directStep PathStore.fileSystem (fun _ _ => false) localServer.root)
      (Admissible PathStore.fileSystem localServer.root) fs uploadAndFetch :=
  ⟨fits_ab, ⟨fits_ab, fits_c⟩, ⟨fits_c, fun _ _ => rfl⟩, trivial⟩

def readOnlyDay : Occasion := { openDay with opened := false }

def makeThenRemove : List (Turn PathStore) :=
  [.call openDay (.removeFile "/a b"), .call openDay (.makeDir "/c")]

end Sftp
