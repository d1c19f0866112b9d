import MacXterm.Qt.ByteArray

namespace Tunnel.Socks

open Qt

-- How much of what is still to come one recv gives is up to the system, but it gives something.
def recv (avail : Nat → Nat) (input : QByteArray) (n : Nat) : QByteArray :=
  input.take (min n (max 1 (avail input.length)))

def readLoop (avail : Nat → Nat) :
    Nat → Nat → QByteArray → QByteArray → Option (QByteArray × QByteArray)
  | _, 0, input, buf => some (buf, input)
  | 0, _ + 1, _, _ => none
  | fuel + 1, need + 1, input, buf =>
      let r := recv avail input (need + 1)
      if r = [] then none
      else readLoop avail fuel (need + 1 - r.length) (input.drop r.length) (buf ++ r)

def readN (avail : Nat → Nat) (input : QByteArray) (n : Nat) : Option (QByteArray × QByteArray) :=
  readLoop avail n n input []

theorem readLoop_eq (avail : Nat → Nat) {fuel need : Nat} (h : need ≤ fuel)
    (input buf : QByteArray) :
    readLoop avail fuel need input buf =
      if need ≤ input.length then some (buf ++ input.take need, input.drop need) else none := by
  induction fuel generalizing need input buf with
  | zero =>
    obtain rfl := Nat.le_zero.mp h
    simp [readLoop]
  | succ fuel ih =>
    cases need with
    | zero => simp [readLoop]
    | succ need =>
      by_cases hinput : input = []
      · subst hinput
        simp [readLoop, recv]
      · have hpos := List.length_pos_iff.mpr hinput
        obtain ⟨j, hj⟩ : ∃ j, min (need + 1) (max 1 (avail input.length)) = j := ⟨_, rfl⟩
        have hr : recv avail input (need + 1) = input.take (min j input.length) := by
          rw [recv, hj, List.take_eq_take_min]
        obtain ⟨k, hk⟩ : ∃ k, min j input.length = k := ⟨_, rfl⟩
        have hlen : (input.take k).length = k := by
          rw [List.length_take]
          omega
        have hne : input.take k ≠ [] := by
          rw [← List.length_pos_iff]
          omega
        have hneed : k + (need + 1 - k) = need + 1 := by omega
        rw [readLoop, hr, hk, if_neg hne, hlen, ih (by omega), List.append_assoc, List.drop_drop,
          ← List.take_add, hneed, List.length_drop]
        refine if_congr ?_ rfl rfl
        omega

theorem readN_eq (avail : Nat → Nat) (input : QByteArray) (n : Nat) :
    readN avail input n = if n ≤ input.length then some (input.take n, input.drop n) else none := by
  rw [readN, readLoop_eq avail (Nat.le_refl n), List.nil_append]

theorem readN_append (avail : Nat → Nat) {bytes : QByteArray} {n : Nat} (h : bytes.length = n)
    (rest : QByteArray) : readN avail (bytes ++ rest) n = some (bytes, rest) := by
  subst h
  rw [readN_eq, if_pos (by simp), List.take_left, List.drop_left]

theorem readN_one (avail : Nat → Nat) (b : UInt8) (rest : QByteArray) :
    readN avail (b :: rest) 1 = some ([b], rest) :=
  readN_append avail (List.length_singleton) rest

theorem of_readN {avail : Nat → Nat} {input bytes rest : QByteArray} {n : Nat}
    (h : readN avail input n = some (bytes, rest)) : input = bytes ++ rest ∧ bytes.length = n := by
  rw [readN_eq] at h
  split_ifs at h with hn
  obtain ⟨rfl, rfl⟩ := Prod.mk.inj (Option.some.inj h)
  exact ⟨(List.take_append_drop n input).symm, by rw [List.length_take]; omega⟩

def readStringLoop (avail : Nat → Nat) :
    Nat → QByteArray → QByteArray → Option (QByteArray × QByteArray)
  | 0, _, _ => none
  | fuel + 1, input, text =>
      match readN avail input 1 with
      | none => none
      | some (c, input) =>
          if byteAt c 0 = 0 then some (text, input)
          else readStringLoop avail fuel input (text ++ c)

-- Every turn reads one byte, so the bytes there are bound the turns.
def readString (avail : Nat → Nat) (input : QByteArray) : Option (QByteArray × QByteArray) :=
  readStringLoop avail (input.length + 1) input []

theorem readStringLoop_append (avail : Nat → Nat) {text : QByteArray} (h : 0 ∉ text)
    {fuel : Nat} (hfuel : text.length < fuel) (acc rest : QByteArray) :
    readStringLoop avail fuel (text ++ 0 :: rest) acc = some (acc ++ text, rest) := by
  induction text generalizing fuel acc with
  | nil =>
    obtain ⟨fuel, rfl⟩ := Nat.exists_eq_succ_of_ne_zero (Nat.ne_of_gt hfuel)
    rw [readStringLoop, List.nil_append, readN_one]
    simp [byteAt]
  | cons c text ih =>
    obtain ⟨fuel, rfl⟩ := Nat.exists_eq_succ_of_ne_zero (Nat.ne_of_gt (Nat.zero_lt_of_lt hfuel))
    rw [List.mem_cons, not_or] at h
    have hc : byteAt [c] 0 ≠ 0 := Ne.symm h.1
    rw [readStringLoop, List.cons_append, readN_one]
    simp only [if_neg hc]
    rw [ih h.2 (Nat.lt_of_succ_lt_succ hfuel), List.append_assoc, List.singleton_append]

theorem readString_append (avail : Nat → Nat) {text : QByteArray} (h : 0 ∉ text)
    (rest : QByteArray) : readString avail (text ++ 0 :: rest) = some (text, rest) :=
  readStringLoop_append avail h (by rw [List.length_append, List.length_cons]; omega) [] rest

theorem of_readStringLoop {avail : Nat → Nat} {fuel : Nat} {input acc text rest : QByteArray}
    (h : readStringLoop avail fuel input acc = some (text, rest)) :
    ∃ read, text = acc ++ read ∧ input = read ++ 0 :: rest ∧ 0 ∉ read := by
  induction fuel generalizing input acc with
  | zero => exact absurd h (by simp [readStringLoop])
  | succ fuel ih =>
    rw [readStringLoop] at h
    split at h
    · exact absurd h (by simp)
    · rename_i c input' hread
      obtain ⟨rfl, hlen⟩ := of_readN hread
      obtain ⟨b, rfl⟩ := List.length_eq_one_iff.mp hlen
      split_ifs at h with hb
      · obtain ⟨rfl, rfl⟩ := Prod.mk.inj (Option.some.inj h)
        obtain rfl : b = 0 := hb
        exact ⟨[], by simp, by simp, by simp⟩
      · obtain ⟨read, rfl, rfl, hnul⟩ := ih h
        refine ⟨b :: read, by simp, by simp, ?_⟩
        rw [List.mem_cons, not_or]
        exact ⟨Ne.symm hb, hnul⟩

theorem of_readString {avail : Nat → Nat} {input text rest : QByteArray}
    (h : readString avail input = some (text, rest)) : input = text ++ 0 :: rest ∧ 0 ∉ text := by
  obtain ⟨read, rfl, rfl, hread⟩ := of_readStringLoop h
  exact ⟨rfl, hread⟩

inductive Outcome where
  | refused (sent : List QByteArray)
  | accepted (host : QByteArray) (port : UInt16) (unread : QByteArray) (sent : List QByteArray)
deriving DecidableEq

def noAuthentication : QByteArray := [0x05, 0x00]

def success5 : QByteArray := [0x05, 0x00, 0x00, 0x01, 0, 0, 0, 0, 0, 0]

def granted4 : QByteArray := [0x00, 0x5A, 0, 0, 0, 0, 0, 0]

def dotted (a b c d : UInt8) : QByteArray :=
  let number (n : UInt8) := toUtf8 (Qt.number n.toNat)
  number a ++ toUtf8 ['.'] ++ number b ++ toUtf8 ['.'] ++ number c ++ toUtf8 ['.'] ++ number d

section Negotiate

variable (avail : Nat → Nat) (inetNtop : QByteArray → QByteArray)

def readAddress (atyp : UInt8) (input : QByteArray) : Option (QByteArray × QByteArray) :=
  if atyp = 0x01 then
    match readN avail input 4 with
    | none => none
    | some (ip, input) =>
        some (dotted (byteAt ip 0) (byteAt ip 1) (byteAt ip 2) (byteAt ip 3), input)
  else if atyp = 0x03 then
    match readN avail input 1 with
    | none => none
    | some (len, input) => readN avail input (byteAt len 0).toNat
  else if atyp = 0x04 then
    match readN avail input 16 with
    | none => none
    | some (ip6, input) => some (inetNtop ip6, input)
  else none

def negotiate5 (input : QByteArray) : Outcome :=
  match readN avail input 1 with
  | none => .refused []
  | some (nm, input) =>
  match readN avail input (byteAt nm 0).toNat with
  | none => .refused []
  | some (_, input) =>
  let sent := [noAuthentication]
  match readN avail input 4 with
  | none => .refused sent
  | some (hdr, input) =>
  if byteAt hdr 1 ≠ 0x01 then .refused sent
  else
    match readAddress avail inetNtop (byteAt hdr 3) input with
    | none => .refused sent
    | some (host, input) =>
    match readN avail input 2 with
    | none => .refused sent
    | some (pb, input) =>
        .accepted host (BigEndian.word16 (byteAt pb 0) (byteAt pb 1)) input (sent ++ [success5])

def negotiate4 (input : QByteArray) : Outcome :=
  match readN avail input 7 with
  | none => .refused []
  | some (req, input) =>
  if byteAt req 0 ≠ 0x01 then .refused []
  else
    let port := BigEndian.word16 (byteAt req 1) (byteAt req 2)
    match readString avail input with
    | none => .refused []
    | some (_, input) =>
    if byteAt req 3 = 0 ∧ byteAt req 4 = 0 ∧ byteAt req 5 = 0 ∧ byteAt req 6 ≠ 0 then
      match readString avail input with
      | none => .refused []
      | some (host, input) => .accepted host port input [granted4]
    else
      .accepted (dotted (byteAt req 3) (byteAt req 4) (byteAt req 5) (byteAt req 6)) port input
        [granted4]

def socksNegotiate (input : QByteArray) : Outcome :=
  match readN avail input 1 with
  | none => .refused []
  | some (ver, input) =>
      if byteAt ver 0 = 0x05 then negotiate5 avail inetNtop input
      else if byteAt ver 0 = 0x04 then negotiate4 avail input
      else .refused []

end Negotiate

end Tunnel.Socks
