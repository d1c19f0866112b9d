import MacXterm.Lib.Mealy
import MacXterm.Qt.Number
import MacXterm.Qt.Words
import MacXterm.Tools.TftpServer

namespace Tftp

open Qt

deriving instance DecidableEq for Peer

-- A datagram, who sent it, and the files as they are when it is read.
structure Datagram where
  files : Http.Files
  peer : Peer
  bytes : QByteArray

section Runs

variable (cwd : WorkingDir)

def TftpServer.serve (s : TftpServer) (d : Datagram) : TftpServer × Option QByteArray :=
  s.onDatagram cwd d.files d.peer d.bytes

def TftpServer.after (s : TftpServer) (ds : List Datagram) : TftpServer :=
  ds.foldl (fun s d => (s.serve cwd d).1) s

-- The file that a request names, when it is one below the root that can be read.
def TftpServer.named (s : TftpServer) (d : Datagram) : Option QByteArray :=
  let p := decode d.bytes
  let full := s.full cwd p.filename
  if p.op = .rrq ∧ s.root <+: full ∧ d.files.isFile full = true then d.files.openRead full else none

def TftpServer.lastRequested (s : TftpServer) (ds : List Datagram) (peer : Peer) :
    Option QByteArray :=
  ds.foldl (fun last d => if d.peer = peer then (s.named cwd d).or last else last) none

-- A DATA packet that goes out holds its slice of the file the peer asked for last.
def Sliced (s : TftpServer) (ds : List Datagram) (d : Datagram) : Prop :=
  ∀ dg, ((s.after cwd ds).serve cwd d).2 = some dg → (decode dg).op = .data →
    ∃ data, s.lastRequested cwd (ds ++ [d]) d.peer = some data ∧
      (data.length / 512 + 1 < 65536 →
        1 ≤ (decode dg).block.toNat ∧
          (decode dg).data = (data.drop (512 * ((decode dg).block.toNat - 1))).take 512)

def Apart (s : TftpServer) (ds : List Datagram) (d : Datagram) : Prop :=
  ∀ peer, peer ≠ d.peer →
    (s.after cwd (ds ++ [d])).transfers.find peer.key = (s.after cwd ds).transfers.find peer.key

-- An entry where none was, or a first block.
def Started (s : TftpServer) (ds : List Datagram) (d : Datagram) : Prop :=
  ((s.after cwd ds).transfers.find d.peer.key = none ∧
      (s.after cwd (ds ++ [d])).transfers.find d.peer.key ≠ none) ∨
    ∃ dg, ((s.after cwd ds).serve cwd d).2 = some dg ∧ (decode dg).op = .data ∧
      (decode dg).block = 1

def RightSlices (s : TftpServer) (ds : List Datagram) : Prop :=
  ∀ pre d post, ds = pre ++ d :: post →
    Sliced cwd s pre d ∧ Apart cwd s pre d ∧
      (Started cwd s pre d → (decode d.bytes).valid = true)

end Runs

theorem key_injective {p q : Peer} (h : p.key = q.key) : p = q := by
  have hcolon (r : Peer) : ':' ∉ (number r.port.toNat).reverse := by
    intro hc
    exact absurd (isDigit_of_mem_number (List.mem_reverse.mp hc)) (by decide)
  have hcut (r : Peer) : cutAt ':' r.key.reverse =
      some ((number r.port.toNat).reverse, r.address.reverse) :=
    cutAt_eq_some.mpr ⟨hcolon r, by simp [Peer.key]⟩
  have hparts := hcut p
  rw [h, hcut q, Option.some.injEq, Prod.mk.injEq, List.reverse_inj, List.reverse_inj] at hparts
  have hport : q.port.toNat = p.port.toNat := by
    exact_mod_cast number_injective hparts.1
  obtain ⟨address, port⟩ := p
  obtain rfl := hparts.2
  obtain rfl := UInt16.toNat_inj.mp hport
  rfl

theorem decode_encodeError (code : UInt16) (msg : QString) :
    (decode (encodeError code msg)).op = .error := by
  have hop := (rd16be_header 5 code (toUtf8 msg ++ [0])).1
  have hlength : (encodeError code msg).length = 4 + ((toUtf8 msg).length + 1) := by
    simp [encodeError]
    omega
  rw [decode, if_neg (by omega)]
  simp only [encodeError, List.append_assoc] at hlength ⊢
  simp only [hop, hlength]
  change (if 4 + ((toUtf8 msg).length + 1) < 4 then _ else _ : Packet).op = .error
  rw [if_neg (by omega)]

-- Every entry has sent its block, and holds the file its peer asked for last.
structure Current (cwd : WorkingDir) (s : TftpServer) (ds : List Datagram) : Prop where
  root : (s.after cwd ds).root = s.root
  sent : ∀ peer t, (s.after cwd ds).transfers.find peer.key = some t →
    ∃ i : Nat, t.nextBlock = i + 1 ∧ i ≤ 65535 ∧ i * 512 ≤ t.data.length ∧
      s.lastRequested cwd ds peer = some t.data

section Step

variable {cwd : WorkingDir} {s : TftpServer} {ds : List Datagram} {d : Datagram}

theorem after_concat : s.after cwd (ds ++ [d]) = ((s.after cwd ds).serve cwd d).1 := by
  rw [TftpServer.after, List.foldl_append]
  rfl

theorem lastRequested_concat (peer : Peer) : s.lastRequested cwd (ds ++ [d]) peer =
    if d.peer = peer then (s.named cwd d).or (s.lastRequested cwd ds peer)
    else s.lastRequested cwd ds peer := by
  rw [TftpServer.lastRequested, List.foldl_append]
  rfl

theorem acked_congr {peer : Peer} {p q : Packet} (h : p.block = q.block) :
    s.acked peer p = s.acked peer q := by
  rw [TftpServer.acked, TftpServer.acked, h]

inductive Acked (s : TftpServer) (peer : Peer) (p : Packet) (data : QByteArray) (i : Nat) : Prop where
  | ignored (h : s.acked peer p = (s, none))
  | done (h : s.acked peer p = ({ s with transfers := s.transfers.erase peer.key }, none))
  | more (hi : i < 65535) (hlength : (i + 1) * 512 ≤ data.length)
      (h : s.acked peer p =
        ({ s with transfers :=
            s.transfers.insert peer.key { data, nextBlock := ((i + 1 : Nat) : Int) + 1 } },
          some (packet data (i + 1))))

theorem acked_cases {peer : Peer} {data : QByteArray} {i : Nat} (p : Packet)
    (hs : s.transfers.find peer.key = some { data, nextBlock := i + 1 }) (hi : i ≤ 65535)
    (hle : i * 512 ≤ data.length) : Acked s peer p data i := by
  by_cases hblock : (p.block.toNat : Int) = i + 1
  · have hlt := p.block.toNat_lt
    have hi' : i < 65535 := by
      omega
    have hsame : p.block = (ackOf i).block := by
      have hack := block_ackOf hi'
      exact UInt16.toNat_inj.mp (by omega)
    have hack : s.acked peer p = s.acked peer (ackOf i) := acked_congr hsame
    rcases Nat.lt_or_ge data.length ((i + 1) * 512) with hlast | hmore
    · exact .done (hack.trans (acked_last hs hi' hle hlast))
    · exact .more hi' hmore (hack.trans (acked_more hs hi' hmore))
  · refine .ignored ?_
    simp only [TftpServer.acked, hs]
    exact if_neg hblock

theorem named_congr {t : TftpServer} (h : t.root = s.root) (d : Datagram) :
    t.named cwd d = s.named cwd d := by
  obtain ⟨root, transfers⟩ := s
  obtain rfl := h
  rfl

theorem rrq_of_named {data : QByteArray} (h : s.named cwd d = some data) :
    (decode d.bytes).op = .rrq ∧ Requests cwd d.files s d.bytes data := by
  simp only [TftpServer.named] at h
  split at h
  · rename_i hfile
    exact ⟨hfile.1, hfile.1, hfile.2.1, hfile.2.2, h⟩
  · cases h

-- What one datagram does.
inductive Served (cwd : WorkingDir) (s : TftpServer) (d : Datagram) : Prop where
  | request (data : QByteArray) (hnamed : s.named cwd d = some data)
      (h : s.serve cwd d =
        ({ s with transfers := s.transfers.insert d.peer.key { data } }, some (packet data 0)))
  | other (hnamed : s.named cwd d = none) (hstate : (s.serve cwd d).1 = s)
      (hreply : ∀ dg, (s.serve cwd d).2 = some dg → (decode dg).op ≠ .data)
  | done (hnamed : s.named cwd d = none)
      (h : s.serve cwd d = ({ s with transfers := s.transfers.erase d.peer.key }, none))
  | next (data : QByteArray) (i : Nat) (hnamed : s.named cwd d = none)
      (hs : s.transfers.find d.peer.key = some { data, nextBlock := i + 1 })
      (hi : i < 65535) (hlength : (i + 1) * 512 ≤ data.length)
      (h : s.serve cwd d =
        ({ s with transfers :=
            s.transfers.insert d.peer.key { data, nextBlock := ((i + 1 : Nat) : Int) + 1 } },
          some (packet data (i + 1))))

theorem served_request (h : (decode d.bytes).op = .rrq) : Served cwd s d := by
  cases hnamed : s.named cwd d with
  | some data => exact .request data hnamed (onDatagram_request (rrq_of_named hnamed).2)
  | none =>
    have hserve : s.serve cwd d = s.readRequest cwd d.files d.peer (decode d.bytes) := by
      simp only [TftpServer.serve, TftpServer.onDatagram, h]
    have hrefused : ∃ code msg, s.serve cwd d = (s, some (encodeError code msg)) := by
      simp only [TftpServer.named, h, true_and] at hnamed
      rw [hserve, TftpServer.readRequest]
      split
      · exact ⟨_, _, rfl⟩
      · rename_i hfile
        simp only [not_or, not_not, Bool.not_eq_false] at hfile
        rw [if_pos hfile] at hnamed
        rw [hnamed]
        exact ⟨_, _, rfl⟩
    obtain ⟨code, msg, hrefused⟩ := hrefused
    refine .other hnamed (by rw [hrefused]) fun dg hdg => ?_
    rw [hrefused, Option.some.injEq] at hdg
    rw [← hdg, decode_encodeError]
    decide

theorem served_ack (h : (decode d.bytes).op = .ack)
    (hs : ∀ t, s.transfers.find d.peer.key = some t →
      ∃ i : Nat, t.nextBlock = i + 1 ∧ i ≤ 65535 ∧ i * 512 ≤ t.data.length) :
    Served cwd s d := by
  have hserve : s.serve cwd d = s.acked d.peer (decode d.bytes) := by
    simp only [TftpServer.serve, TftpServer.onDatagram, h]
  have hnamed : s.named cwd d = none := by
    simp [TftpServer.named, h]
  have hquiet (hsame : s.acked d.peer (decode d.bytes) = (s, none)) : Served cwd s d := by
    rw [← hserve] at hsame
    refine .other hnamed (by rw [hsame]) fun dg hdg => ?_
    rw [hsame] at hdg
    cases hdg
  cases hfind : s.transfers.find d.peer.key with
  | none =>
    refine hquiet ?_
    simp only [TftpServer.acked, hfind]
  | some t =>
    obtain ⟨i, hnext, hi, hle⟩ := hs t hfind
    obtain ⟨data, nextBlock⟩ := t
    obtain rfl := hnext
    cases acked_cases (decode d.bytes) hfind hi hle with
    | ignored hack => exact hquiet hack
    | done hack => exact .done hnamed (hserve.trans hack)
    | more hi hlength hack => exact .next data i hnamed hfind hi hlength (hserve.trans hack)

theorem served_cases (hs : ∀ t, s.transfers.find d.peer.key = some t →
      ∃ i : Nat, t.nextBlock = i + 1 ∧ i ≤ 65535 ∧ i * 512 ≤ t.data.length) :
    Served cwd s d := by
  have hignored (hop : (decode d.bytes).op ≠ .rrq) (hstate : (s.serve cwd d).1 = s)
      (hreply : ∀ dg, (s.serve cwd d).2 = some dg → (decode dg).op ≠ .data) : Served cwd s d :=
    .other (by simp [TftpServer.named, hop]) hstate hreply
  cases hop : (decode d.bytes).op with
  | rrq => exact served_request hop
  | ack => exact served_ack hop hs
  | wrq =>
    have hserve : s.serve cwd d = (s, some (encodeError 2 "Server is read-only")) := by
      simp only [TftpServer.serve, TftpServer.onDatagram, hop]
    refine hignored (by simp [hop]) (by rw [hserve]) fun dg hdg => ?_
    rw [hserve, Option.some.injEq] at hdg
    rw [← hdg, decode_encodeError]
    decide
  | data | error | invalid =>
    have hserve : s.serve cwd d = (s, none) := by
      simp only [TftpServer.serve, TftpServer.onDatagram, hop]
    refine hignored (by simp [hop]) (by rw [hserve]) fun dg hdg => ?_
    rw [hserve] at hdg
    cases hdg

theorem toNat_block {n : Nat} (h : n + 1 < 2 ^ 16) :
    (UInt16.ofInt ((n : Int) + 1)).toNat = n + 1 := toNat_ofInt (n := n + 1) h

theorem served_after (hc : Current cwd s ds) (d : Datagram) : Served cwd (s.after cwd ds) d :=
  served_cases fun t ht => by
    obtain ⟨i, hnext, hi, hle, -⟩ := hc.sent d.peer t ht
    exact ⟨i, hnext, hi, hle⟩

theorem lastRequested_none (h : s.named cwd d = none) (peer : Peer) :
    s.lastRequested cwd (ds ++ [d]) peer = s.lastRequested cwd ds peer := by
  rw [lastRequested_concat, h, Option.none_or, ite_self]

theorem lastRequested_own {data : QByteArray} (h : s.named cwd d = some data) :
    s.lastRequested cwd (ds ++ [d]) d.peer = some data := by
  rw [lastRequested_concat, if_pos rfl, h, Option.some_or]

theorem lastRequested_apart {peer : Peer} (h : peer ≠ d.peer) :
    s.lastRequested cwd (ds ++ [d]) peer = s.lastRequested cwd ds peer := by
  rw [lastRequested_concat, if_neg (Ne.symm h)]

theorem find_insert_peer (h : QHash QString Transfer) (p q : Peer) (t : Transfer) :
    (h.insert p.key t).find q.key = if q = p then some t else h.find q.key := by
  rw [QHash.find_insert]
  exact if_congr ⟨key_injective, congrArg Peer.key⟩ rfl rfl

theorem find_erase_peer (h : QHash QString Transfer) (p q : Peer) :
    (h.erase p.key).find q.key = if q = p then none else h.find q.key := by
  rw [QHash.find_erase]
  exact if_congr ⟨key_injective, congrArg Peer.key⟩ rfl rfl

theorem apart_of_served (hc : Current cwd s ds) (d : Datagram) : Apart cwd s ds d := by
  intro peer hpeer
  rw [after_concat]
  cases served_after hc d with
  | request data hnamed h => rw [h, find_insert_peer, if_neg hpeer]
  | other hnamed hstate hreply => rw [hstate]
  | done hnamed h => rw [h, find_erase_peer, if_neg hpeer]
  | next data i hnamed hs hi hlength h => rw [h, find_insert_peer, if_neg hpeer]

theorem current_concat (hc : Current cwd s ds) (d : Datagram) : Current cwd s (ds ++ [d]) := by
  have hsame := @named_congr cwd s _ hc.root d
  have hapart := apart_of_served hc d
  have hroot : (s.after cwd (ds ++ [d])).root = (s.after cwd ds).root := by
    rw [after_concat]
    cases served_after hc d with
    | request data hnamed h => rw [h]
    | other hnamed hstate hreply => rw [hstate]
    | done hnamed h => rw [h]
    | next data i hnamed hs hi hlength h => rw [h]
  refine ⟨hroot.trans hc.root, fun peer t ht => ?_⟩
  by_cases hpeer : peer = d.peer
  · subst hpeer
    rw [after_concat] at ht
    cases served_after hc d with
    | request data hnamed h =>
      rw [h, find_insert_peer, if_pos rfl, Option.some.injEq] at ht
      subst ht
      have hstart : 0 * 512 ≤ data.length := by
        omega
      exact ⟨0, rfl, Nat.zero_le _, hstart, lastRequested_own (hsame ▸ hnamed)⟩
    | other hnamed hstate hreply =>
      rw [hstate] at ht
      rw [lastRequested_none (hsame ▸ hnamed)]
      exact hc.sent _ t ht
    | done hnamed h =>
      rw [h, find_erase_peer, if_pos rfl] at ht
      cases ht
    | next data i hnamed hs hi hlength h =>
      rw [h, find_insert_peer, if_pos rfl, Option.some.injEq] at ht
      subst ht
      obtain ⟨-, -, -, -, hlast⟩ := hc.sent _ _ hs
      rw [lastRequested_none (hsame ▸ hnamed)]
      exact ⟨i + 1, rfl, hi, hlength, hlast⟩
  · rw [hapart peer hpeer] at ht
    rw [lastRequested_apart hpeer]
    exact hc.sent peer t ht

theorem sliced_of_served (hc : Current cwd s ds) (d : Datagram) : Sliced cwd s ds d := by
  have hsame := @named_congr cwd s _ hc.root d
  intro dg hdg hop
  cases served_after hc d with
  | request data hnamed h =>
    rw [h, Option.some.injEq] at hdg
    obtain ⟨-, hblock, hdata⟩ := decode_packet data 0
    refine ⟨data, lastRequested_own (hsame ▸ hnamed), fun _ => ?_⟩
    rw [← hdg, hblock, hdata, toNat_block (by decide), Nat.add_sub_cancel, Nat.mul_comm]
    exact ⟨by decide, rfl⟩
  | other hnamed hstate hreply => exact absurd hop (hreply dg hdg)
  | done hnamed h =>
    rw [h] at hdg
    cases hdg
  | next data i hnamed hs hi hlength h =>
    rw [h, Option.some.injEq] at hdg
    obtain ⟨-, hblock, hdata⟩ := decode_packet data (i + 1)
    obtain ⟨-, -, -, -, hlast⟩ := hc.sent _ _ hs
    refine ⟨data, (lastRequested_none (hsame ▸ hnamed) _).trans hlast, fun hfew => ?_⟩
    rw [← hdg, hblock, hdata, toNat_block (by omega), Nat.add_sub_cancel, Nat.mul_comm]
    exact ⟨Nat.le_add_left _ _, rfl⟩

theorem started_iff (hc : Current cwd s ds) (d : Datagram) :
    Started cwd s ds d ↔ s.named cwd d ≠ none := by
  have hsame := @named_congr cwd s _ hc.root d
  rw [Started, after_concat, ← hsame]
  cases served_after hc d with
  | request data hnamed h =>
    obtain ⟨hop, hblock, -⟩ := decode_packet data 0
    rw [hnamed, h]
    exact iff_of_true (.inr ⟨_, rfl, hop, hblock⟩) (Option.some_ne_none _)
  | other hnamed hstate hreply =>
    rw [hnamed, hstate]
    refine iff_of_false ?_ (not_not_intro rfl)
    rintro (⟨hnone, hsome⟩ | ⟨dg, hdg, hop, -⟩)
    · exact hsome hnone
    · exact hreply dg hdg hop
  | done hnamed h =>
    rw [hnamed, h, find_erase_peer, if_pos rfl]
    refine iff_of_false ?_ (not_not_intro rfl)
    rintro (⟨-, hsome⟩ | ⟨dg, hdg, -⟩)
    · exact hsome rfl
    · cases hdg
  | next data i hnamed hs hi hlength h =>
    rw [hnamed, hs, h]
    refine iff_of_false ?_ (not_not_intro rfl)
    rintro (⟨hnone, -⟩ | ⟨dg, hdg, -, hfirst⟩)
    · cases hnone
    · rw [Option.some.injEq] at hdg
      rw [← hdg, (decode_packet data (i + 1)).2.1] at hfirst
      have hvalue := congrArg UInt16.toNat hfirst
      rcases Nat.lt_or_ge (i + 2) (2 ^ 16) with hlt | hge
      · rw [toNat_block hlt] at hvalue
        exact absurd hvalue (by simp)
      · obtain rfl : i = 65534 := by omega
        exact absurd hfirst (by decide)

theorem current_after (h : s.transfers = []) (ds : List Datagram) : Current cwd s ds := by
  induction ds using List.reverseRecOn with
  | nil =>
    refine ⟨rfl, fun peer t ht => ?_⟩
    rw [TftpServer.after, List.foldl_nil, h] at ht
    cases ht
  | append_singleton ds d ih => exact current_concat ih d

end Step

theorem right_slices_iff (cwd : WorkingDir) (rootDir : QString) (ds : List Datagram) :
    RightSlices cwd (start cwd rootDir) ds ↔
      ∀ d ∈ ds, (start cwd rootDir).named cwd d ≠ none → (decode d.bytes).valid = true := by
  have hc (pre : List Datagram) : Current cwd (start cwd rootDir) pre := current_after rfl pre
  constructor
  · intro h d hd hnamed
    obtain ⟨pre, post, rfl⟩ := List.append_of_mem hd
    exact (h pre d post rfl).2.2 ((started_iff (hc pre) d).mpr hnamed)
  · rintro h pre d post rfl
    refine ⟨sliced_of_served (hc pre) d, apart_of_served (hc pre) d, fun hstarted => ?_⟩
    exact h d (List.mem_append_right _ List.mem_cons_self) ((started_iff (hc pre) d).mp hstarted)

-- A request without the zero byte behind its mode.
def openRequest : Datagram :=
  ⟨bootFiles [1, 2, 3], bootClient, [0, 1] ++ toUtf8 "boot.bin" ++ [0] ++ toUtf8 "octet"⟩

theorem open_request_starts_transfer :
    ¬ ∀ (cwd : WorkingDir) (rootDir : QString) (ds : List Datagram),
      RightSlices cwd (start cwd rootDir) ds := by
  intro h
  have hnamed : (start rootDirectory "/srv").named rootDirectory openRequest ≠ none := by
    decide +kernel
  have hcurrent : Current rootDirectory (start rootDirectory "/srv") [] := current_after rfl []
  have hvalid := (h rootDirectory "/srv" [openRequest] [] openRequest [] rfl).2.2
    ((started_iff hcurrent openRequest).mpr hnamed)
  exact absurd hvalid (by decide +kernel)

section Isolation

variable (cwd : WorkingDir)

def step (s : TftpServer) (d : Datagram) : TftpServer × List QByteArray :=
  ((s.serve cwd d).1, (s.serve cwd d).2.toList)

structure SameFor (peer : Peer) (s t : TftpServer) : Prop where
  root : s.root = t.root
  transfer : s.transfers.find peer.key = t.transfers.find peer.key

theorem readRequest_own {s t : TftpServer} (files : Http.Files) (peer : Peer) (p : Packet)
    (h : SameFor peer s t) :
    SameFor peer (s.readRequest cwd files peer p).1 (t.readRequest cwd files peer p).1 ∧
      (s.readRequest cwd files peer p).2 = (t.readRequest cwd files peer p).2 := by
  have hfull : s.full cwd p.filename = t.full cwd p.filename := by
    rw [TftpServer.full, TftpServer.full, h.root]
  simp only [TftpServer.readRequest, hfull, h.root]
  split
  · exact ⟨h, rfl⟩
  · split
    · exact ⟨h, rfl⟩
    · refine ⟨⟨rfl, ?_⟩, rfl⟩
      rw [find_insert_peer, find_insert_peer, if_pos rfl, if_pos rfl]

theorem acked_own {s t : TftpServer} (peer : Peer) (p : Packet) (h : SameFor peer s t) :
    SameFor peer (s.acked peer p).1 (t.acked peer p).1 ∧
      (s.acked peer p).2 = (t.acked peer p).2 := by
  simp only [TftpServer.acked, h.transfer]
  cases t.transfers.find peer.key with
  | none => exact ⟨h, rfl⟩
  | some transfer =>
    dsimp only
    split
    · split
      · refine ⟨⟨h.root, ?_⟩, rfl⟩
        rw [find_erase_peer, find_erase_peer, if_pos rfl, if_pos rfl]
      · refine ⟨⟨h.root, ?_⟩, rfl⟩
        rw [find_insert_peer, find_insert_peer, if_pos rfl, if_pos rfl]
    · exact ⟨h, rfl⟩

theorem step_own (s t : TftpServer) (d : Datagram) (h : SameFor d.peer s t) :
    SameFor d.peer (step cwd s d).1 (step cwd t d).1 ∧ (step cwd s d).2 = (step cwd t d).2 := by
  simp only [step, TftpServer.serve, TftpServer.onDatagram]
  split
  · obtain ⟨hnext, hsent⟩ := readRequest_own cwd d.files d.peer (decode d.bytes) h
    exact ⟨hnext, congrArg Option.toList hsent⟩
  · obtain ⟨hnext, hsent⟩ := acked_own d.peer (decode d.bytes) h
    exact ⟨hnext, congrArg Option.toList hsent⟩
  · exact ⟨h, rfl⟩
  · exact ⟨h, rfl⟩

theorem step_other (s t : TftpServer) (d : Datagram) (peer : Peer) (hd : d.peer ≠ peer)
    (h : SameFor peer s t) : SameFor peer (step cwd s d).1 t := by
  simp only [step, TftpServer.serve, TftpServer.onDatagram]
  split
  · simp only [TftpServer.readRequest]
    split
    · exact h
    · split
      · exact h
      · exact ⟨h.root, by rw [find_insert_peer, if_neg hd.symm, h.transfer]⟩
  · simp only [TftpServer.acked]
    split
    · exact h
    · split
      · split
        · exact ⟨h.root, by rw [find_erase_peer, if_neg hd.symm, h.transfer]⟩
        · exact ⟨h.root, by rw [find_insert_peer, if_neg hd.symm, h.transfer]⟩
      · exact h
  · exact h
  · exact h

-- A peer is sent what it would be sent if no other one had ever written to the server.
theorem peers_isolated (s : TftpServer) (ds : List Datagram) (peer : Peer) :
    let own := ds.filter fun d => d.peer = peer
    (Mealy.trace (step cwd) s ds).filter (fun e => e.1.peer = peer) =
        Mealy.trace (step cwd) s own ∧
      (Mealy.after (step cwd) s ds).transfers.find peer.key =
        (Mealy.after (step cwd) s own).transfers.find peer.key := by
  intro own
  have hisolated : SameFor peer (Mealy.after (step cwd) s ds) (Mealy.after (step cwd) s own) ∧ _ :=
    Mealy.isolated (step_own cwd) (step_other cwd) ⟨rfl, rfl⟩
  exact ⟨hisolated.2, hisolated.1.transfer⟩

end Isolation

end Tftp
