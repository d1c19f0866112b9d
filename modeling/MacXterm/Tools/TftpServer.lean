import MacXterm.Lib.MachineInt
import MacXterm.Lib.Reactor
import MacXterm.Lib.Wrap
import MacXterm.Qt.Map
import MacXterm.Tools.HttpServer
import MacXterm.Tools.TftpPacket

namespace Tftp

open Qt Sftp

def kBlockSize : Int := 512

structure Transfer where
  data : QByteArray
  nextBlock : Int := 1

structure TftpServer where
  root : QString
  transfers : QHash QString Transfer

def start (cwd : WorkingDir) (rootDir : QString) : TftpServer := ⟨absoluteFilePath cwd rootDir, []⟩

structure Peer where
  address : QString
  port : UInt16

def Peer.key (p : Peer) : QString := p.address ++ ':' :: number p.port.toNat

section Serve

variable (cwd : WorkingDir) (files : Http.Files)

def TftpServer.full (s : TftpServer) (filename : QString) : QString :=
  absoluteFilePath cwd (s.root ++ RemotePath.normalize ('/' :: filename))

def TftpServer.readRequest (s : TftpServer) (peer : Peer) (p : Packet) :
    TftpServer × Option QByteArray :=
  let full := s.full cwd p.filename
  if ¬s.root <+: full ∨ files.isFile full = false then (s, some (encodeError 1 "File not found"))
  else
    match files.openRead full with
    | none => (s, some (encodeError 2 "Access violation"))
    | some data =>
        ({ s with transfers := s.transfers.insert peer.key { data } },
          some (encodeData 1 (data.take kBlockSize.toNat)))

def TftpServer.acked (s : TftpServer) (peer : Peer) (p : Packet) :
    TftpServer × Option QByteArray :=
  match s.transfers.find peer.key with
  | none => (s, none)
  | some t =>
      if (p.block.toNat : Int) = t.nextBlock then
        let ackedStart := int32 ((t.nextBlock - 1) * kBlockSize)
        let ackedLen := int32 (min kBlockSize (t.data.length - ackedStart))
        if ackedLen < kBlockSize then
          ({ s with transfers := s.transfers.erase peer.key }, none)
        else
          let nextBlock := int32 (t.nextBlock + 1)
          let off := int32 ((nextBlock - 1) * kBlockSize)
          ({ s with transfers := s.transfers.insert peer.key { t with nextBlock } },
            some (encodeData (.ofInt nextBlock) (mid t.data off kBlockSize)))
      else (s, none)

def TftpServer.onDatagram (s : TftpServer) (peer : Peer) (buf : QByteArray) :
    TftpServer × Option QByteArray :=
  let p := decode buf
  match p.op with
  | .rrq => s.readRequest cwd files peer p
  | .ack => s.acked peer p
  | .wrq => (s, some (encodeError 2 "Server is read-only"))
  | _ => (s, none)

structure Exchange where
  server : TftpServer
  sent : Option QByteArray

def exchange (r : TftpServer × Option QByteArray) : Exchange := ⟨r.1, r.2⟩

-- A client that acknowledges each DATA packet with the block number in it.
def turn (peer : Peer) (x : Exchange) : Turn Exchange QByteArray :=
  match x.sent with
  | none => .rest x []
  | some dg =>
      if (decode dg).op = .data then
        .go (exchange (x.server.onDatagram cwd files peer (encodeAck (decode dg).block))) [dg]
      else .rest ⟨x.server, none⟩ [dg]

end Serve

structure Complete (data : QByteArray) (sent : List QByteArray) : Prop where
  packets : ∀ dg ∈ sent, (decode dg).op = .data
  whole : (sent.flatMap fun dg => (decode dg).data) = data
  full : ∀ dg ∈ sent.dropLast, (decode dg).data.length = 512
  last : ∃ dg, sent.getLast? = some dg ∧ (decode dg).data.length < 512

-- The request is one for a file below the root that can be read and holds the data.
structure Requests (cwd : WorkingDir) (files : Http.Files) (s : TftpServer) (buf data : QByteArray) :
    Prop where
  op : (decode buf).op = .rrq
  inside : s.root <+: s.full cwd (decode buf).filename
  file : files.isFile (s.full cwd (decode buf).filename) = true
  content : files.openRead (s.full cwd (decode buf).filename) = some data

def packet (data : QByteArray) (i : Nat) : QByteArray :=
  encodeData (.ofInt (i + 1)) (Blocks.block 512 data i)

theorem decode_packet (data : QByteArray) (i : Nat) :
    (decode (packet data i)).op = .data ∧ (decode (packet data i)).block = .ofInt (i + 1) ∧
      (decode (packet data i)).data = Blocks.block 512 data i := by
  rw [packet, decode_encodeData]
  exact ⟨rfl, rfl, rfl⟩

theorem toNat_ofInt {n : Nat} (h : n < 2 ^ 16) : (UInt16.ofInt n).toNat = n := by
  have hmod : ((n : Int) % 2 ^ 16).toNat = n := by omega
  rw [UInt16.ofInt, hmod, UInt16.toNat_ofNat_of_lt' h]

theorem mid_block (data : QByteArray) (i : Nat) :
    mid data ((i * 512 : Nat) : Int) 512 = Blocks.block 512 data i := by
  have hpos : ¬((i * 512 : Nat) : Int) < 0 := by omega
  rw [mid, if_neg hpos, if_neg (show ¬(512 : Int) < 0 by decide), Int.toNat_natCast]
  split
  · rename_i h
    rw [Blocks.block, List.drop_eq_nil_of_le (by omega), List.take_nil]
  · rfl

section Exchange

variable {cwd : WorkingDir} {files : Http.Files} {peer : Peer} {data : QByteArray} {i : Nat}
  {s : TftpServer}

theorem onDatagram_ack (s : TftpServer) (block : UInt16) :
    s.onDatagram cwd files peer (encodeAck block) =
      s.acked peer { op := .ack, block, valid := true } := by
  simp only [TftpServer.onDatagram, decode_encodeAck]

def ackOf (i : Nat) : Packet := { op := .ack, block := .ofInt (i + 1), valid := true }

theorem turn_packet (cwd : WorkingDir) (files : Http.Files) (peer : Peer) (s : TftpServer)
    (data : QByteArray) (i : Nat) :
    turn cwd files peer ⟨s, some (packet data i)⟩ =
      .go (exchange (s.acked peer (ackOf i))) [packet data i] := by
  obtain ⟨hop, hblock, -⟩ := decode_packet data i
  simp only [turn, hop, if_true, hblock, onDatagram_ack]
  rfl

theorem block_ackOf (h : i < 65535) : ((ackOf i).block.toNat : Int) = (i : Int) + 1 := by
  exact_mod_cast toNat_ofInt (n := i + 1) (by omega)

theorem acked_last (hs : s.transfers.find peer.key = some { data, nextBlock := i + 1 })
    (hi : i < 65535) (hle : i * 512 ≤ data.length) (hlast : data.length < (i + 1) * 512) :
    s.acked peer (ackOf i) = ({ s with transfers := s.transfers.erase peer.key }, none) := by
  have hstart : int32 (((i : Int) + 1 - 1) * kBlockSize) = i * 512 := by
    rw [kBlockSize, int32_eq] <;> omega
  have hlen : int32 (min kBlockSize ((data.length : Int) - i * 512)) = data.length - i * 512 := by
    rw [kBlockSize, int32_eq] <;> omega
  simp only [TftpServer.acked, hs]
  rw [if_pos (block_ackOf hi), hstart, hlen, if_pos (by rw [kBlockSize]; omega)]

theorem acked_more (hs : s.transfers.find peer.key = some { data, nextBlock := i + 1 })
    (hi : i < 65535) (hmore : (i + 1) * 512 ≤ data.length) :
    s.acked peer (ackOf i) =
      ({ s with transfers :=
          s.transfers.insert peer.key { data, nextBlock := ((i + 1 : Nat) : Int) + 1 } },
        some (packet data (i + 1))) := by
  have hstart : int32 (((i : Int) + 1 - 1) * kBlockSize) = i * 512 := by
    rw [kBlockSize, int32_eq] <;> omega
  have hlen : int32 (min kBlockSize ((data.length : Int) - i * 512)) = 512 := by
    rw [kBlockSize, int32_eq] <;> omega
  have hnext : int32 ((i : Int) + 1 + 1) = ((i + 1 : Nat) : Int) + 1 := by
    rw [int32_eq] <;> omega
  have hoff : int32 ((((i + 1 : Nat) : Int) + 1 - 1) * kBlockSize) = (((i + 1) * 512 : Nat) : Int) := by
    rw [kBlockSize, int32_eq] <;> omega
  simp only [TftpServer.acked, hs]
  rw [if_pos (block_ackOf hi), hstart, hlen, if_neg (by rw [kBlockSize]; omega), hnext, hoff]
  have hblock := mid_block data (i + 1)
  simp only [kBlockSize, hblock, packet]

-- The block after the 65535th is 0 on the wire, and the counter goes on to 65536.
theorem acked_wrapped (hs : s.transfers.find peer.key = some { data, nextBlock := i + 1 })
    (hi : i = 65535) : s.acked peer (ackOf i) = (s, none) := by
  have hlt := (ackOf i).block.toNat_lt
  simp only [TftpServer.acked, hs]
  exact if_neg (by omega)

def packetsFrom (data : QByteArray) (i n : Nat) : List QByteArray :=
  (List.range' i n).map (packet data)

-- The last block that is sent: that of a short packet, or the one whose number is 0 on the wire.
def lastBlock (data : QByteArray) : Nat := min (data.length / 512) 65535

theorem settles_blocks (k : Nat) (hk : i + k = lastBlock data)
    (hs : s.transfers.find peer.key = some { data, nextBlock := i + 1 }) :
    ∃ t, Reactor.Settles (turn cwd files peer) ⟨s, some (packet data i)⟩ t
        (packetsFrom data i (k + 1)) ∧
      (t.server.transfers.find peer.key = none ↔ data.length < 65535 * 512) := by
  have hgo := turn_packet cwd files peer s data i
  induction k generalizing i s with
  | zero =>
    have hrest (r : TftpServer) : Reactor.Settles (turn cwd files peer) ⟨r, none⟩ ⟨r, none⟩ [] :=
      Reactor.settles_rest rfl
    have hi : i = min (data.length / 512) 65535 := hk
    by_cases hlast : data.length < 65535 * 512
    · have hshort : i < 65535 ∧ i * 512 ≤ data.length ∧ data.length < (i + 1) * 512 := by
        omega
      rw [acked_last hs hshort.1 hshort.2.1 hshort.2.2] at hgo
      exact ⟨_, (hrest _).go hgo,
        iff_of_true ((QHash.find_erase ..).trans (if_pos rfl)) hlast⟩
    · have hwrap : i = 65535 := by
        omega
      rw [acked_wrapped hs hwrap] at hgo
      refine ⟨_, (hrest _).go hgo, iff_of_false ?_ hlast⟩
      exact fun hnone => Option.some_ne_none _ (hs.symm.trans hnone)
  | succ k ih =>
    have hk' : i + (k + 1) = min (data.length / 512) 65535 := hk
    have hmore : i < 65535 ∧ (i + 1) * 512 ≤ data.length := by
      omega
    rw [acked_more hs hmore.1 hmore.2] at hgo
    obtain ⟨t, ht, hremoved⟩ := @ih (i + 1)
      { s with transfers :=
          s.transfers.insert peer.key { data, nextBlock := ((i + 1 : Nat) : Int) + 1 } }
      (by omega) ((QHash.find_insert ..).trans (if_pos rfl)) (turn_packet ..)
    exact ⟨t, ht.go hgo, hremoved⟩

theorem onDatagram_request {buf : QByteArray} (h : Requests cwd files s buf data) :
    s.onDatagram cwd files peer buf =
      ({ s with transfers := s.transfers.insert peer.key { data } }, some (packet data 0)) := by
  have hno : ¬(¬s.root <+: s.full cwd (decode buf).filename ∨
      files.isFile (s.full cwd (decode buf).filename) = false) := by
    simp [h.inside, h.file]
  simp only [TftpServer.onDatagram, h.op, TftpServer.readRequest]
  rw [if_neg hno, h.content]
  simp only [packet, Blocks.block, Nat.zero_mul, List.drop_zero, kBlockSize]
  rfl

theorem request_settles (peer : Peer) {buf : QByteArray} (h : Requests cwd files s buf data) :
    ∃ t, Reactor.Settles (turn cwd files peer) (exchange (s.onDatagram cwd files peer buf)) t
        (packetsFrom data 0 (lastBlock data + 1)) ∧
      (t.server.transfers.find peer.key = none ↔ data.length < 65535 * 512) := by
  rw [onDatagram_request h]
  exact settles_blocks (lastBlock data) (Nat.zero_add _)
    ((QHash.find_insert ..).trans (if_pos rfl))

theorem complete_packets (h : data.length < 65535 * 512) :
    Complete data (packetsFrom data 0 (lastBlock data + 1)) := by
  have hlast : lastBlock data = data.length / 512 := by
    unfold lastBlock
    omega
  have hpackets : packetsFrom data 0 (lastBlock data + 1) =
      (List.range (data.length / 512)).map (packet data) ++ [packet data (data.length / 512)] := by
    rw [packetsFrom, hlast, ← List.range_eq_range', List.range_succ, List.map_append]
    rfl
  rw [hpackets]
  refine ⟨fun dg hdg => ?_, ?_, fun dg hdg => ?_, packet data (data.length / 512), by simp, ?_⟩
  · rw [← List.map_singleton (f := packet data), ← List.map_append] at hdg
    obtain ⟨i, -, rfl⟩ := List.mem_map.mp hdg
    exact (decode_packet data i).1
  · rw [← List.map_singleton (f := packet data), ← List.map_append, ← List.range_succ,
      List.flatMap_map]
    simp only [decode_packet]
    exact (Blocks.flatMap_block 512 data _).trans (List.take_of_length_le (by omega))
  · rw [List.dropLast_concat] at hdg
    obtain ⟨i, hi, rfl⟩ := List.mem_map.mp hdg
    have hlt := List.mem_range.mp hi
    rw [(decode_packet data i).2.2, Blocks.length_block_eq_iff data i (by decide)]
    omega
  · rw [(decode_packet data _).2.2, Blocks.length_block]
    omega

theorem tftp_read_complete_iff (peer : Peer) {buf : QByteArray}
    (h : Requests cwd files s buf data) :
    (∃ t sent, Reactor.Settles (turn cwd files peer)
        (exchange (s.onDatagram cwd files peer buf)) t sent ∧
      Complete data sent ∧ t.server.transfers.find peer.key = none) ↔
      data.length < 65535 * 512 := by
  obtain ⟨t, ht, hremoved⟩ := request_settles peer h
  constructor
  · rintro ⟨t', sent, ht', -, hgone⟩
    obtain ⟨rfl, -⟩ := ht.unique ht'
    exact hremoved.mp hgone
  · intro hlt
    exact ⟨t, _, ht, complete_packets hlt, hremoved.mpr hlt⟩

end Exchange

theorem isRooted_root : QDir.isRooted "/".toList = true := rfl

def rootDirectory : WorkingDir := ⟨"/", isRooted_root⟩

def bootServer : TftpServer := ⟨"/srv", []⟩

def bootFiles (data : QByteArray) : Http.Files := ⟨fun _ => true, fun _ => some data⟩

def bootClient : Peer := ⟨"10.0.0.2", 1024⟩

def bootRequest : QByteArray := [0, 1] ++ toUtf8 "boot.bin" ++ [0] ++ toUtf8 "octet" ++ [0]

theorem bootRequest_requests (data : QByteArray) :
    Requests rootDirectory (bootFiles data) bootServer bootRequest data :=
  ⟨by decide +kernel, by decide +kernel, rfl, rfl⟩

theorem tftp_read_complete_short :
    ∃ t sent, Reactor.Settles (turn rootDirectory (bootFiles [1, 2, 3]) bootClient)
        (exchange (bootServer.onDatagram rootDirectory (bootFiles [1, 2, 3]) bootClient bootRequest))
        t sent ∧
      Complete [1, 2, 3] sent ∧ t.server.transfers.find bootClient.key = none :=
  (tftp_read_complete_iff bootClient (bootRequest_requests [1, 2, 3])).mpr (by decide)

def bigFile : QByteArray := List.replicate (65535 * 512) 0

theorem tftp_read_stalls :
    ¬∃ t sent, Reactor.Settles (turn rootDirectory (bootFiles bigFile) bootClient)
        (exchange (bootServer.onDatagram rootDirectory (bootFiles bigFile) bootClient bootRequest))
        t sent ∧
      Complete bigFile sent ∧ t.server.transfers.find bootClient.key = none := by
  rintro ⟨t', sent, ht', -, hgone⟩
  obtain ⟨t, ht, hremoved⟩ := request_settles bootClient (bootRequest_requests bigFile)
  obtain ⟨rfl, -⟩ := ht.unique ht'
  have hlt := hremoved.mp hgone
  rw [bigFile, List.length_replicate] at hlt
  exact absurd hlt (Nat.lt_irrefl _)

end Tftp
