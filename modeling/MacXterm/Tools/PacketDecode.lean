import MacXterm.Lib.Codec
import MacXterm.Lib.Traced
import MacXterm.Qt.Text

namespace Tools.PacketDecode

open Qt

structure PacketSummary where
  length : Int
  protocol : QString
  info : QString := []
deriving DecidableEq

def byteAt (data : QByteArray) (i : Int) : UInt8 := data.getD i.toNat 0

def word16At (data : QByteArray) (i : Int) : UInt16 :=
  BigEndian.word16 (byteAt data i) (byteAt data (i + 1))

def ipv4Text (a b c d : UInt8) : QString :=
  number a.toNat ++ '.' :: number b.toNat ++ '.' :: number c.toNat ++ '.' :: number d.toNat

def hex4 (v : UInt16) : QString :=
  let digits := Nat.toDigits 16 v.toNat
  List.replicate (4 - digits.length) '0' ++ digits

def endpoints (src : QString) (sport : UInt16) (dst : QString) (dport : UInt16) : QString :=
  src ++ ':' :: number sport.toNat ++ " → ".toList ++ dst ++ ':' :: number dport.toNat

-- The trace: every index that is read.
def byte (data : QByteArray) (i : Int) : Traced Int UInt8 := ⟨byteAt data i, [i]⟩

def be16 (data : QByteArray) (i : Int) : Traced Int UInt16 := do
  let high ← byte data i
  let low ← byte data (i + 1)
  return BigEndian.word16 high low

def ipv4 (data : QByteArray) (i : Int) : Traced Int QString := do
  let a ← byte data i
  let b ← byte data (i + 1)
  let c ← byte data (i + 2)
  let d ← byte data (i + 3)
  return ipv4Text a b c d

def summarizePorts (protocol : QString) (data : QByteArray) (caplen l4 : Int)
    (src dst : QString) : Traced Int PacketSummary := do
  let sport ← be16 data l4
  let dport ← be16 data (l4 + 2)
  return ⟨caplen, protocol, endpoints src sport dst dport⟩

def summarizeIpv4 (data : QByteArray) (caplen off : Int) : Traced Int PacketSummary :=
  if caplen < off + 20 then pure ⟨caplen, "IPv4?", []⟩
  else do
    let first ← byte data off
    let ihl := (first &&& 0x0F).toNat * 4
    let proto ← byte data (off + 9)
    let src ← ipv4 data (off + 12)
    let dst ← ipv4 data (off + 16)
    let l4 := off + ihl
    if proto = 6 ∧ l4 + 4 ≤ caplen then summarizePorts "TCP" data caplen l4 src dst
    else if proto = 17 ∧ l4 + 4 ≤ caplen then summarizePorts "UDP" data caplen l4 src dst
    else if proto = 1 then pure ⟨caplen, "ICMP", src ++ " → ".toList ++ dst⟩
    else pure ⟨caplen, "IPv4", src ++ " → ".toList ++ dst ++ " (proto ".toList ++
      number proto.toNat ++ ")".toList⟩

def summarizeNetwork (data : QByteArray) (caplen off : Int) (ethertype : UInt16) :
    Traced Int PacketSummary :=
  if ethertype = 0x0806 then pure ⟨caplen, "ARP", []⟩
  else if ethertype = 0x86DD then pure ⟨caplen, "IPv6", []⟩
  else if ethertype ≠ 0x0800 then pure ⟨caplen, "0x".toList ++ hex4 ethertype, []⟩
  else summarizeIpv4 data caplen off

def summarize (data : Option QByteArray) (caplen linktype : Int) : Traced Int PacketSummary :=
  match data with
  | none => pure ⟨caplen, "?", []⟩
  | some data =>
      if caplen ≤ 0 then pure ⟨caplen, "?", []⟩
      else if linktype = 1 then
        if caplen < 14 then pure ⟨caplen, "ETH?", []⟩
        else do
          let ethertype ← be16 data 12
          summarizeNetwork data caplen 14 ethertype
      else if linktype = 0 then
        if caplen < 4 then pure ⟨caplen, "NULL?", []⟩
        else summarizeNetwork data caplen 4 0x0800
      else summarizeNetwork data caplen 0 0x0800

def Captured (caplen i : Int) : Prop := 0 ≤ i ∧ i < caplen

theorem reads_byte {data : QByteArray} {caplen i : Int} (h0 : 0 ≤ i) (h : i < caplen) :
    (byte data i).Only (Captured caplen) := by
  intro j hj
  obtain rfl := List.mem_singleton.mp hj
  exact ⟨h0, h⟩

theorem reads_be16 {data : QByteArray} {caplen i : Int} (h0 : 0 ≤ i) (h : i + 2 ≤ caplen) :
    (be16 data i).Only (Captured caplen) :=
  .bind (reads_byte h0 (by omega))
    (.bind (reads_byte (by omega) (by omega)) (.pure _))

theorem reads_ipv4 {data : QByteArray} {caplen i : Int} (h0 : 0 ≤ i) (h : i + 4 ≤ caplen) :
    (ipv4 data i).Only (Captured caplen) :=
  .bind (reads_byte h0 (by omega)) (.bind (reads_byte (by omega) (by omega))
    (.bind (reads_byte (by omega) (by omega))
      (.bind (reads_byte (by omega) (by omega)) (.pure _))))

theorem reads_summarizePorts {protocol : QString} {data : QByteArray} {caplen l4 : Int}
    {src dst : QString} (h0 : 0 ≤ l4) (h : l4 + 4 ≤ caplen) :
    (summarizePorts protocol data caplen l4 src dst).Only (Captured caplen) :=
  .bind (reads_be16 h0 (by omega))
    (.bind (reads_be16 (by omega) (by omega)) (.pure _))

theorem reads_summarizeIpv4 (data : QByteArray) {caplen off : Int} (h0 : 0 ≤ off) :
    (summarizeIpv4 data caplen off).Only (Captured caplen) := by
  refine .ite (fun _ => .pure _) fun hlen => ?_
  refine .bind (reads_byte h0 (by omega)) (.bind (reads_byte (by omega) (by omega)) ?_)
  refine .bind (reads_ipv4 (by omega) (by omega)) ?_
  refine .bind (reads_ipv4 (by omega) (by omega)) ?_
  refine .ite (fun h => reads_summarizePorts (by omega) h.2) fun _ => ?_
  refine .ite (fun h => reads_summarizePorts (by omega) h.2) fun _ => ?_
  exact .ite (fun _ => .pure _) fun _ => .pure _

theorem reads_summarizeNetwork (data : QByteArray) {caplen off : Int} (h0 : 0 ≤ off)
    (ethertype : UInt16) :
    (summarizeNetwork data caplen off ethertype).Only (Captured caplen) :=
  .ite (fun _ => .pure _) fun _ => .ite (fun _ => .pure _) fun _ =>
    .ite (fun _ => .pure _) fun _ => reads_summarizeIpv4 data h0

theorem reads_summarize (data : Option QByteArray) (caplen linktype : Int) :
    (summarize data caplen linktype).Only (Captured caplen) := by
  cases data with
  | none => exact .pure _
  | some data =>
    refine .ite (fun _ => .pure _) fun _ => .ite (fun _ => ?_) fun _ => ?_
    · refine .ite (fun _ => .pure _) fun hlen => ?_
      exact .bind (reads_be16 (by omega) (by omega))
        (reads_summarizeNetwork data (by omega) _)
    · refine .ite (fun _ => ?_) fun _ => reads_summarizeNetwork data (by omega) _
      exact .ite (fun _ => .pure _) fun _ => reads_summarizeNetwork data (by omega) _

def ReportsPorts (s : PacketSummary) : Prop :=
  s.protocol = "TCP".toList ∨ s.protocol = "UDP".toList

def version (data : QByteArray) (off : Int) : Nat := (byteAt data off).toNat / 16

def headerLength (data : QByteArray) (off : Int) : Int :=
  ((byteAt data off &&& 0x0F).toNat * 4 : Nat)

def fragmentOffset (data : QByteArray) (off : Int) : Nat := (word16At data (off + 6)).toNat % 8192

def addressAt (data : QByteArray) (i : Int) : QString :=
  ipv4Text (byteAt data i) (byteAt data (i + 1)) (byteAt data (i + 2)) (byteAt data (i + 3))

-- The addresses of the header at off, and the ports behind it.
def connection (data : QByteArray) (off : Int) : QString :=
  let l4 := off + headerLength data off
  endpoints (addressAt data (off + 12)) (word16At data l4) (addressAt data (off + 16))
    (word16At data (l4 + 2))

structure FirstIpv4 (data : QByteArray) (off : Int) : Prop where
  version : version data off = 4
  header : 20 ≤ headerLength data off
  first : fragmentOffset data off = 0

-- Where the link layer puts the header of an IPv4 packet.
def ipOffset (data : QByteArray) (caplen linktype : Int) : Option Int :=
  if caplen ≤ 0 then none
  else if linktype = 1 then
    if caplen < 14 ∨ word16At data 12 ≠ 0x0800 then none else some 14
  else if linktype = 0 then if caplen < 4 then none else some 4
  else some 0

structure Carried (data : QByteArray) (caplen off : Int) : Prop where
  header : off + 20 ≤ caplen
  protocol : byteAt data (off + 9) = 6 ∨ byteAt data (off + 9) = 17
  ports : off + headerLength data off + 4 ≤ caplen

structure Honest (data : QByteArray) (caplen linktype : Int) : Prop where
  reads : ∀ i ∈ (summarize (some data) caplen linktype).trace, 0 ≤ i ∧ i < caplen
  ports : ReportsPorts (summarize (some data) caplen linktype).value →
    ∃ off, ipOffset data caplen linktype = some off ∧ FirstIpv4 data off ∧
      (summarize (some data) caplen linktype).value.info = connection data off

-- Where four bytes stand behind a header that names TCP or UDP, they are its ports.
def Genuine (data : QByteArray) (caplen linktype : Int) : Prop :=
  ∀ off, ipOffset data caplen linktype = some off → Carried data caplen off → FirstIpv4 data off

theorem value_summarizeIpv4 (data : QByteArray) (caplen off : Int) :
    (summarizeIpv4 data caplen off).value =
      if caplen < off + 20 then ⟨caplen, "IPv4?", []⟩
      else if byteAt data (off + 9) = 6 ∧ off + headerLength data off + 4 ≤ caplen then
        ⟨caplen, "TCP", connection data off⟩
      else if byteAt data (off + 9) = 17 ∧ off + headerLength data off + 4 ≤ caplen then
        ⟨caplen, "UDP", connection data off⟩
      else if byteAt data (off + 9) = 1 then
        ⟨caplen, "ICMP", addressAt data (off + 12) ++ " → ".toList ++ addressAt data (off + 16)⟩
      else
        ⟨caplen, "IPv4", addressAt data (off + 12) ++ " → ".toList ++ addressAt data (off + 16) ++
          " (proto ".toList ++ number (byteAt data (off + 9)).toNat ++ ")".toList⟩ := by
  simp only [summarizeIpv4, Traced.value_ite, Traced.value_bind, Traced.value_pure]
  rfl

theorem summarizeIpv4_carried {data : QByteArray} {caplen off : Int}
    (h : Carried data caplen off) :
    ReportsPorts (summarizeIpv4 data caplen off).value ∧
      (summarizeIpv4 data caplen off).value.info = connection data off := by
  have hheader := h.header
  rw [value_summarizeIpv4, if_neg (by omega)]
  rcases h.protocol with hproto | hproto
  · rw [if_pos ⟨hproto, h.ports⟩]
    exact ⟨.inl rfl, rfl⟩
  · rw [if_neg (by rw [hproto]; exact fun hsix => absurd hsix.1 (by decide)),
      if_pos ⟨hproto, h.ports⟩]
    exact ⟨.inr rfl, rfl⟩

theorem not_reports {s : PacketSummary} (htcp : s.protocol ≠ "TCP".toList)
    (hudp : s.protocol ≠ "UDP".toList) : ¬ReportsPorts s := fun h => h.elim htcp hudp

theorem carried_of_reports {data : QByteArray} {caplen off : Int}
    (h : ReportsPorts (summarizeIpv4 data caplen off).value) : Carried data caplen off := by
  rw [value_summarizeIpv4] at h
  split_ifs at h with hlen htcp hudp hicmp
  · exact absurd h (not_reports (by simp) (by simp))
  · exact ⟨by omega, .inl htcp.1, htcp.2⟩
  · exact ⟨by omega, .inr hudp.1, hudp.2⟩
  · exact absurd h (not_reports (by simp) (by simp))
  · exact absurd h (not_reports (by simp) (by simp))

theorem not_reports_hex (caplen : Int) (ethertype : UInt16) :
    ¬ReportsPorts ⟨caplen, "0x".toList ++ hex4 ethertype, []⟩ := by
  rintro (h | h)
  · exact absurd (congrArg List.head? h) (by simp)
  · exact absurd (congrArg List.head? h) (by simp)

theorem summarizeNetwork_other {data : QByteArray} {caplen off : Int} {ethertype : UInt16}
    (h : ethertype ≠ 0x0800) :
    ¬ReportsPorts (summarizeNetwork data caplen off ethertype).value := by
  rw [summarizeNetwork, Traced.value_ite, Traced.value_ite, Traced.value_ite]
  split_ifs
  · exact not_reports (by simp) (by simp)
  · exact not_reports (by simp) (by simp)
  · exact not_reports_hex caplen ethertype

theorem summarizeNetwork_ipv4 (data : QByteArray) (caplen off : Int) :
    summarizeNetwork data caplen off 0x0800 = summarizeIpv4 data caplen off := by
  rw [summarizeNetwork, if_neg (by decide), if_neg (by decide), if_neg (by decide)]

theorem summarize_cases (data : QByteArray) (caplen linktype : Int) :
    (∃ off, ipOffset data caplen linktype = some off ∧
      (summarize (some data) caplen linktype).value = (summarizeIpv4 data caplen off).value) ∨
    ipOffset data caplen linktype = none ∧
      ¬ReportsPorts (summarize (some data) caplen linktype).value := by
  rw [ipOffset, summarize]
  by_cases hlen : caplen ≤ 0
  · rw [if_pos hlen, if_pos hlen]
    exact .inr ⟨rfl, not_reports (by simp) (by simp)⟩
  · rw [if_neg hlen, if_neg hlen]
    by_cases heth : linktype = 1
    · rw [if_pos heth, if_pos heth]
      by_cases hshort : caplen < 14
      · rw [if_pos hshort, if_pos (.inl hshort)]
        exact .inr ⟨rfl, not_reports (by simp) (by simp)⟩
      · rw [if_neg hshort]
        by_cases htype : word16At data 12 = 0x0800
        · rw [if_neg (not_or.mpr ⟨hshort, not_not.mpr htype⟩)]
          refine .inl ⟨14, rfl, ?_⟩
          change (summarizeNetwork data caplen 14 (word16At data 12)).value = _
          rw [htype, summarizeNetwork_ipv4]
        · rw [if_pos (.inr htype)]
          exact .inr ⟨rfl, summarizeNetwork_other htype⟩
    · rw [if_neg heth, if_neg heth]
      by_cases hnull : linktype = 0
      · rw [if_pos hnull, if_pos hnull]
        by_cases hshort : caplen < 4
        · rw [if_pos hshort, if_pos hshort]
          exact .inr ⟨rfl, not_reports (by simp) (by simp)⟩
        · rw [if_neg hshort, if_neg hshort, summarizeNetwork_ipv4]
          exact .inl ⟨4, rfl, rfl⟩
      · rw [if_neg hnull, if_neg hnull, summarizeNetwork_ipv4]
        exact .inl ⟨0, rfl, rfl⟩

theorem summarize_honest_iff (data : QByteArray) (caplen linktype : Int) :
    Honest data caplen linktype ↔ Genuine data caplen linktype := by
  rcases summarize_cases data caplen linktype with ⟨off, hoff, hvalue⟩ | ⟨hnone, hquiet⟩
  · constructor
    · intro h off' hoff' hcarried
      obtain rfl := Option.some.inj (hoff.symm.trans hoff')
      have hports := (summarizeIpv4_carried hcarried).1
      rw [← hvalue] at hports
      obtain ⟨off', hoff', hfirst, -⟩ := h.ports hports
      obtain rfl := Option.some.inj (hoff.symm.trans hoff')
      exact hfirst
    · refine fun h => ⟨reads_summarize (some data) caplen linktype, fun hports => ?_⟩
      rw [hvalue] at hports ⊢
      have hcarried := carried_of_reports hports
      exact ⟨off, hoff, h off hoff hcarried, (summarizeIpv4_carried hcarried).2⟩
  · refine iff_of_true ⟨reads_summarize (some data) caplen linktype, fun h => absurd h hquiet⟩ ?_
    intro off hoff
    rw [hnone] at hoff
    cases hoff

-- The second fragment of a UDP datagram; 'abcd' is payload.
def laterFragment : QByteArray :=
  [1, 1, 1, 1, 1, 1, 2, 2, 2, 2, 2, 2, 0x08, 0x00,
    0x45, 0, 0, 24, 0, 1, 0x00, 0xB9, 64, 17, 0, 0, 192, 168, 1, 2, 10, 0, 0, 1, 97, 98, 99, 100]

theorem fragment_shows_ports :
    ReportsPorts (summarize (some laterFragment) 38 1).value ∧ ¬Honest laterFragment 38 1 := by
  have hports : ReportsPorts (summarize (some laterFragment) 38 1).value := .inr (by decide)
  refine ⟨hports, fun h => ?_⟩
  obtain ⟨off, hoff, hfirst, -⟩ := h.ports hports
  obtain rfl : 14 = off := Option.some.inj hoff
  exact absurd hfirst.first (by decide)

end Tools.PacketDecode
