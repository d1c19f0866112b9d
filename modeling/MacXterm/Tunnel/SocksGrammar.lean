import MacXterm.Tunnel.Socks

namespace Tunnel.Socks

open Qt

inductive Address where
  | ipv4 (a b c d : UInt8)
  | domain (name : {name : QByteArray // name.length < 256})
  | ipv6 (ip6 : {ip6 : QByteArray // ip6.length = 16})

namespace Address

def atyp : Address → UInt8
  | ipv4 .. => 0x01
  | domain _ => 0x03
  | ipv6 _ => 0x04

def body : Address → QByteArray
  | ipv4 a b c d => [a, b, c, d]
  | domain name => .ofNat name.val.length :: name.val
  | ipv6 ip6 => ip6.val

def host (inetNtop : QByteArray → QByteArray) : Address → QByteArray
  | ipv4 a b c d => dotted a b c d
  | domain name => name.val
  | ipv6 ip6 => inetNtop ip6.val

end Address

abbrev CString : Type := {text : QByteArray // 0 ∉ text}

def Names4a (a b c d : UInt8) : Prop := a = 0 ∧ b = 0 ∧ c = 0 ∧ d ≠ 0

instance (a b c d : UInt8) : Decidable (Names4a a b c d) := instDecidableAnd

inductive Request where
  | socks5 (methods : {methods : QByteArray // methods.length < 256}) (version reserved : UInt8)
      (address : Address) (port : UInt16)
  | socks4 (port : UInt16) (a b c d : UInt8) (plain : ¬Names4a a b c d) (userid : CString)
  | socks4a (port : UInt16) (mark : {d : UInt8 // d ≠ 0}) (userid host : CString)

namespace Request

def encode : Request → QByteArray
  | socks5 methods version reserved address port =>
      [0x05, .ofNat methods.val.length] ++ methods.val ++
        [version, 0x01, reserved, address.atyp] ++ address.body ++ BigEndian.bytes16 port
  | socks4 port a b c d _ userid =>
      [0x04, 0x01] ++ BigEndian.bytes16 port ++ [a, b, c, d] ++ userid.val ++ [0]
  | socks4a port mark userid host =>
      [0x04, 0x01] ++ BigEndian.bytes16 port ++ [0, 0, 0, mark.val] ++ userid.val ++ [0] ++
        host.val ++ [0]

def WellFormed : Request → Prop
  | socks5 methods version _ _ _ => 0x00 ∈ methods.val ∧ version = 0x05
  | socks4 .. => True
  | socks4a .. => True

def host (inetNtop : QByteArray → QByteArray) : Request → QByteArray
  | socks5 _ _ _ address _ => address.host inetNtop
  | socks4 _ a b c d _ _ => dotted a b c d
  | socks4a _ _ _ host => host.val

def port : Request → UInt16
  | socks5 _ _ _ _ port => port
  | socks4 port .. => port
  | socks4a port .. => port

def replies : Request → List QByteArray
  | socks5 .. => [noAuthentication, success5]
  | socks4 .. => [granted4]
  | socks4a .. => [granted4]

end Request

variable (avail : Nat → Nat) (inetNtop : QByteArray → QByteArray)

theorem toNat_ofNat_length {bytes : QByteArray} (h : bytes.length < 256) :
    (UInt8.ofNat bytes.length).toNat = bytes.length := by
  rw [UInt8.toNat_ofNat', Nat.mod_eq_of_lt h]

theorem readAddress_body (address : Address) (rest : QByteArray) :
    readAddress avail inetNtop address.atyp (address.body ++ rest) =
      some (address.host inetNtop, rest) := by
  cases address with
  | ipv4 a b c d =>
    have hread := readN_append avail (show [a, b, c, d].length = 4 from rfl) rest
    rw [readAddress, if_pos (by rfl), Address.body, hread]
    rfl
  | domain name =>
    rw [Address.atyp, readAddress, if_neg (by decide), if_pos rfl, Address.body, List.cons_append,
      readN_one]
    exact readN_append avail (toNat_ofNat_length name.property).symm rest
  | ipv6 ip6 =>
    rw [Address.atyp, readAddress, if_neg (by decide), if_neg (by decide), if_pos rfl, Address.body,
      readN_append avail ip6.property]
    rfl

theorem of_readAddress {atyp : UInt8} {input host rest : QByteArray}
    (h : readAddress avail inetNtop atyp input = some (host, rest)) :
    ∃ address : Address, address.atyp = atyp ∧ input = address.body ++ rest := by
  rw [readAddress] at h
  split_ifs at h with h1 h3 h4
  · split at h
    · exact absurd h (by simp)
    · rename_i ip input' hread
      obtain ⟨rfl, hlen⟩ := of_readN hread
      obtain ⟨a, b, c, d, rfl⟩ := List.length_eq_four.mp hlen
      obtain ⟨-, rfl⟩ := Prod.mk.inj (Option.some.inj h)
      exact ⟨.ipv4 a b c d, h1.symm, rfl⟩
  · split at h
    · exact absurd h (by simp)
    · rename_i len input' hread
      obtain ⟨rfl, hlen⟩ := of_readN hread
      obtain ⟨n, rfl⟩ := List.length_eq_one_iff.mp hlen
      obtain ⟨rfl, hlength⟩ := of_readN h
      have hn : n = .ofNat host.length := by
        rw [hlength]
        exact (UInt8.ofNat_toNat).symm
      refine ⟨.domain ⟨host, ?_⟩, h3.symm, ?_⟩
      · rw [hlength]
        exact UInt8.toNat_lt _
      · rw [Address.body, ← hn]
        rfl
  · split at h
    · exact absurd h (by simp)
    · rename_i ip6 input' hread
      obtain ⟨rfl, hlen⟩ := of_readN hread
      obtain ⟨-, rfl⟩ := Prod.mk.inj (Option.some.inj h)
      exact ⟨.ipv6 ⟨ip6, hlen⟩, h4.symm, rfl⟩

theorem port_bytes16 (port : UInt16) :
    BigEndian.word16 (byteAt (BigEndian.bytes16 port) 0) (byteAt (BigEndian.bytes16 port) 1) =
      port :=
  BigEndian.word16_bytes16 port

theorem readN_four (a b c d : UInt8) (rest : QByteArray) :
    readN avail (a :: b :: c :: d :: rest) 4 = some ([a, b, c, d], rest) :=
  readN_append avail (show [a, b, c, d].length = 4 from rfl) rest

theorem readN_seven (cmd p0 p1 a b c d : UInt8) (rest : QByteArray) :
    readN avail (cmd :: p0 :: p1 :: a :: b :: c :: d :: rest) 7 =
      some ([cmd, p0, p1, a, b, c, d], rest) :=
  readN_append avail (show [cmd, p0, p1, a, b, c, d].length = 7 from rfl) rest

theorem exists_seven {bytes : QByteArray} (h : bytes.length = 7) :
    ∃ cmd p0 p1 a b c d, bytes = [cmd, p0, p1, a, b, c, d] := by
  obtain ⟨cmd, p0, p1, h3⟩ := List.length_eq_three.mp (show (bytes.take 3).length = 3 by simp [h])
  obtain ⟨a, b, c, d, h4⟩ := List.length_eq_four.mp (show (bytes.drop 3).length = 4 by simp [h])
  refine ⟨cmd, p0, p1, a, b, c, d, ?_⟩
  rw [← List.take_append_drop 3 bytes, h3, h4]
  rfl

theorem negotiate_socks5 (methods : {methods : QByteArray // methods.length < 256})
    (version reserved : UInt8) (address : Address) (port : UInt16) (rest : QByteArray) :
    socksNegotiate avail inetNtop
        ((Request.socks5 methods version reserved address port).encode ++ rest) =
      .accepted (address.host inetNtop) port rest [noAuthentication, success5] := by
  have hmethods (tail : QByteArray) :
      readN avail (methods.val ++ tail) (UInt8.ofNat methods.val.length).toNat =
        some (methods.val, tail) :=
    readN_append avail (toNat_ofNat_length methods.property).symm tail
  have hport := readN_append avail (BigEndian.length_bytes16 port) rest
  have hat (b : UInt8) : byteAt [b] 0 = b := rfl
  have hcmd : byteAt [version, 0x01, reserved, address.atyp] 1 = 0x01 := rfl
  have hatyp : byteAt [version, 0x01, reserved, address.atyp] 3 = address.atyp := rfl
  simp only [Request.encode, List.append_assoc, List.cons_append, List.nil_append, socksNegotiate,
    negotiate5, readN_one, hat, if_true, hmethods, readN_four, hcmd, hatyp, ne_eq,
    not_true_eq_false, if_false, readAddress_body, hport, port_bytes16]

theorem negotiate_four (port : UInt16) (a b c d : UInt8) (userid : CString) (rest : QByteArray) :
    socksNegotiate avail inetNtop
        ([0x04, 0x01] ++ BigEndian.bytes16 port ++ [a, b, c, d] ++ userid.val ++ 0 :: rest) =
      if Names4a a b c d then
        match readString avail rest with
        | none => .refused []
        | some (host, rest) => .accepted host port rest [granted4]
      else .accepted (dotted a b c d) port rest [granted4] := by
  obtain ⟨p0, p1, hbytes⟩ : ∃ p0 p1, BigEndian.bytes16 port = [p0, p1] := ⟨_, _, rfl⟩
  have huserid := readString_append avail userid.property rest
  have hat (b : UInt8) : byteAt [b] 0 = b := rfl
  have hreq : byteAt [0x01, p0, p1, a, b, c, d] 0 = 0x01 := rfl
  have hver : ¬(0x04 : UInt8) = 0x05 := by decide
  have hport : BigEndian.word16 p0 p1 = port := by
    rw [← port_bytes16 port, hbytes]
    rfl
  simp only [hbytes, List.cons_append, List.nil_append, socksNegotiate, negotiate4, readN_one, hat,
    if_true, if_neg hver, readN_seven, hreq, ne_eq, not_true_eq_false, if_false, huserid]
  rw [← hport]
  rfl

theorem negotiate_socks4 (port : UInt16) {a b c d : UInt8} (plain : ¬Names4a a b c d)
    (userid : CString) (rest : QByteArray) :
    socksNegotiate avail inetNtop ((Request.socks4 port a b c d plain userid).encode ++ rest) =
      .accepted (dotted a b c d) port rest [granted4] := by
  have h := negotiate_four avail inetNtop port a b c d userid rest
  rw [if_neg plain] at h
  rw [← h, Request.encode]
  simp only [List.append_assoc, List.singleton_append]

theorem negotiate_socks4a (port : UInt16) (mark : {d : UInt8 // d ≠ 0}) (userid host : CString)
    (rest : QByteArray) :
    socksNegotiate avail inetNtop ((Request.socks4a port mark userid host).encode ++ rest) =
      .accepted host.val port rest [granted4] := by
  have h := negotiate_four avail inetNtop port 0 0 0 mark.val userid (host.val ++ 0 :: rest)
  rw [if_pos ⟨rfl, rfl, rfl, mark.property⟩, readString_append avail host.property] at h
  refine Eq.trans ?_ h
  rw [Request.encode]
  simp only [List.append_assoc, List.cons_append, List.nil_append]

theorem negotiate_encode (req : Request) (rest : QByteArray) :
    socksNegotiate avail inetNtop (req.encode ++ rest) =
      .accepted (req.host inetNtop) req.port rest req.replies := by
  cases req with
  | socks5 methods version reserved address port =>
    exact negotiate_socks5 avail inetNtop methods version reserved address port rest
  | socks4 port a b c d plain userid =>
    exact negotiate_socks4 avail inetNtop port plain userid rest
  | socks4a port mark userid host =>
    exact negotiate_socks4a avail inetNtop port mark userid host rest

-- Everything the code lets through has the shape of a request.
def Parsed (input : QByteArray) (unread : QByteArray) : Prop :=
  ∃ req : Request, input = req.encode ++ unread

def Sound (input : QByteArray) : Outcome → Prop
  | .refused sent => sent = [] ∨ sent = [noAuthentication]
  | .accepted _ _ unread _ => Parsed input unread

theorem sound_negotiate5 (input : QByteArray) :
    Sound (0x05 :: input) (negotiate5 avail inetNtop input) := by
  rw [negotiate5]
  split
  · exact .inl rfl
  · rename_i nm input1 hnm
    obtain ⟨rfl, hlen⟩ := of_readN hnm
    obtain ⟨n, rfl⟩ := List.length_eq_one_iff.mp hlen
    split
    · exact .inl rfl
    · rename_i methods input2 hmethods
      obtain ⟨rfl, hmlen⟩ := of_readN hmethods
      split
      · exact .inr rfl
      · rename_i hdr input3 hhdr
        obtain ⟨rfl, hhlen⟩ := of_readN hhdr
        obtain ⟨version, cmd, reserved, atyp, rfl⟩ := List.length_eq_four.mp hhlen
        split
        · exact .inr rfl
        · rename_i hcmd
          obtain rfl : cmd = 0x01 := not_not.mp hcmd
          split
          · exact .inr rfl
          · rename_i host input4 haddress
            obtain ⟨address, hatyp, rfl⟩ := of_readAddress avail inetNtop haddress
            split
            · exact .inr rfl
            · rename_i pb input5 hpb
              obtain ⟨rfl, hplen⟩ := of_readN hpb
              obtain ⟨p0, p1, rfl⟩ := List.length_eq_two.mp hplen
              have hn : methods.length = n.toNat := hmlen
              refine ⟨.socks5 ⟨methods, by rw [hn]; exact n.toNat_lt⟩ version reserved address
                (BigEndian.word16 p0 p1), ?_⟩
              have hatyp' : address.atyp = atyp := hatyp
              rw [Request.encode, BigEndian.bytes16_word16, hatyp']
              simp [hn]

theorem sound_negotiate4 (input : QByteArray) :
    Sound (0x04 :: input) (negotiate4 avail input) := by
  rw [negotiate4]
  split
  · exact .inl rfl
  · rename_i req input1 hreq
    obtain ⟨rfl, hlen⟩ := of_readN hreq
    obtain ⟨cmd, p0, p1, a, b, c, d, rfl⟩ := exists_seven hlen
    split
    · exact .inl rfl
    · rename_i hcmd
      obtain rfl : cmd = 0x01 := not_not.mp hcmd
      dsimp only
      split
      · exact .inl rfl
      · rename_i userid input2 huserid
        obtain ⟨rfl, hnul⟩ := of_readString huserid
        split
        · rename_i h4a
          obtain ⟨ha, hb, hc, hd⟩ : Names4a a b c d := h4a
          subst ha hb hc
          split
          · exact .inl rfl
          · rename_i host input3 hhost
            obtain ⟨rfl, hhnul⟩ := of_readString hhost
            refine ⟨.socks4a (BigEndian.word16 p0 p1) ⟨d, hd⟩ ⟨userid, hnul⟩ ⟨host, hhnul⟩, ?_⟩
            simp [Request.encode, BigEndian.bytes16_word16]
        · rename_i h4a
          refine ⟨.socks4 (BigEndian.word16 p0 p1) a b c d h4a ⟨userid, hnul⟩, ?_⟩
          simp [Request.encode, BigEndian.bytes16_word16]

theorem sound (input : QByteArray) : Sound input (socksNegotiate avail inetNtop input) := by
  rw [socksNegotiate]
  split
  · exact .inl rfl
  · rename_i ver input1 hver
    obtain ⟨rfl, hlen⟩ := of_readN hver
    obtain ⟨v, rfl⟩ := List.length_eq_one_iff.mp hlen
    split_ifs with h5 h4
    · obtain rfl : v = 0x05 := h5
      exact sound_negotiate5 avail inetNtop input1
    · obtain rfl : v = 0x04 := h4
      exact sound_negotiate4 avail input1
    · exact .inl rfl

def offered (input : QByteArray) : QByteArray := (input.drop 2).take (byteAt input 1).toNat

def requestVersion (input : QByteArray) : UInt8 :=
  byteAt (input.drop (2 + (byteAt input 1).toNat)) 0

theorem wellFormed_iff {input rest : QByteArray} {req : Request} (h : input = req.encode ++ rest) :
    req.WellFormed ↔
      (byteAt input 0 = 0x05 → 0x00 ∈ offered input ∧ requestVersion input = 0x05) := by
  subst h
  cases req with
  | socks5 methods version reserved address port =>
    have hver : byteAt ((Request.socks5 methods version reserved address port).encode ++ rest) 0 =
        0x05 := rfl
    have hnm : byteAt ((Request.socks5 methods version reserved address port).encode ++ rest) 1 =
        .ofNat methods.val.length := rfl
    have hlen := toNat_ofNat_length methods.property
    have hoffered : offered ((Request.socks5 methods version reserved address port).encode ++ rest)
        = methods.val := by
      rw [offered, hnm, hlen, Request.encode]
      simp
    have hversion : requestVersion
        ((Request.socks5 methods version reserved address port).encode ++ rest) = version := by
      rw [requestVersion, hnm, hlen, Request.encode, Nat.add_comm]
      simp [byteAt]
    rw [hver, hoffered, hversion, Request.WellFormed]
    exact ⟨fun h _ => h, fun h => h rfl⟩
  | socks4 port a b c d plain userid =>
    have hver : byteAt ((Request.socks4 port a b c d plain userid).encode ++ rest) 0 = 0x04 := rfl
    rw [hver, Request.WellFormed]
    exact ⟨fun _ h => absurd h (by decide), fun _ => trivial⟩
  | socks4a port mark userid host =>
    have hver : byteAt ((Request.socks4a port mark userid host).encode ++ rest) 0 = 0x04 := rfl
    rw [hver, Request.WellFormed]
    exact ⟨fun _ h => absurd h (by decide), fun _ => trivial⟩

structure Exact (input : QByteArray) : Prop where
  accepts : ∀ req rest, Request.WellFormed req → input = req.encode ++ rest →
    socksNegotiate avail inetNtop input =
      .accepted (req.host inetNtop) req.port rest req.replies
  refuses : (∀ req rest, Request.WellFormed req → input ≠ req.encode ++ rest) →
    ∃ sent, socksNegotiate avail inetNtop input = .refused sent ∧
      success5 ∉ sent ∧ granted4 ∉ sent

theorem refused_silent {sent : List QByteArray} (h : sent = [] ∨ sent = [noAuthentication]) :
    success5 ∉ sent ∧ granted4 ∉ sent := by
  rcases h with rfl | rfl <;> decide

theorem negotiates_exactly_iff (input : QByteArray) :
    Exact avail inetNtop input ↔
      ∀ req : Request, ∀ rest, input = req.encode ++ rest → req.WellFormed := by
  constructor
  · intro h req rest hinput
    by_contra hbad
    have hnone (req' : Request) (rest' : QByteArray) (hwf : req'.WellFormed) :
        input ≠ req'.encode ++ rest' :=
      fun hinput' => hbad ((wellFormed_iff hinput).mpr ((wellFormed_iff hinput').mp hwf))
    obtain ⟨sent, hrefused, -⟩ := h.refuses hnone
    rw [hinput, negotiate_encode] at hrefused
    exact absurd hrefused (by simp)
  · intro h
    refine ⟨fun req rest _ hinput => by rw [hinput, negotiate_encode], fun hnone => ?_⟩
    have hsound := sound avail inetNtop input
    cases hout : socksNegotiate avail inetNtop input with
    | refused sent =>
      rw [hout] at hsound
      exact ⟨sent, rfl, refused_silent hsound⟩
    | accepted host port unread sent =>
      rw [hout] at hsound
      obtain ⟨req, hinput⟩ := hsound
      exact absurd hinput (hnone req unread (h req unread hinput))

def unoffered : QByteArray := [5, 1, 2, 5, 1, 0, 1, 127, 0, 0, 1, 0, 80]

-- The client offers method 2 alone and is told that method 0 was chosen.
theorem accepts_unoffered :
    ¬Exact (fun _ => 1) (fun ip6 => ip6) unoffered ∧
      socksNegotiate (fun _ => 1) (fun ip6 => ip6) unoffered =
        .accepted (dotted 127 0 0 1) 80 [] [noAuthentication, success5] := by
  have haccepted : socksNegotiate (fun _ => 1) (fun ip6 => ip6) unoffered =
      .accepted (dotted 127 0 0 1) 80 [] [noAuthentication, success5] := rfl
  refine ⟨fun h => ?_, haccepted⟩
  have hnone (req : Request) (rest : QByteArray) (hwf : req.WellFormed) :
      unoffered ≠ req.encode ++ rest := by
    intro hinput
    have hoffered := ((wellFormed_iff hinput).mp hwf rfl).1
    revert hoffered
    decide
  obtain ⟨sent, hrefused, -⟩ := h.refuses hnone
  rw [haccepted] at hrefused
  exact absurd hrefused (by simp)

end Tunnel.Socks
