import MacXterm.Connect.XdmcpGrammar
import MacXterm.Lib.GuardedRead

namespace Connect.Xdmcp

open Qt

def readsFrom (buf : QByteArray) (off n : Nat) : List Access :=
  (List.range n).map fun i => .read (off + i : Nat) buf.length

def headerReads (buf : QByteArray) : List Access :=
  if buf.length < 6 then [] else readsFrom buf 0 6

def arrayReads (buf : QByteArray) (off : Nat) : List Access :=
  if buf.length < off + 1 then []
  else
    let len := (byteAt buf off).toNat
    readsFrom buf off 1 ++
      if buf.length < off + 1 + len then [] else readsFrom buf (off + 1) len

-- The next array is read only where the one before it could be.
def arraysReads (buf : QByteArray) : Nat → Nat → List Access
  | 0, _ => []
  | n + 1, off =>
      arrayReads buf off ++
        match readArray8 buf off with
        | none => []
        | some (_, off) => arraysReads buf n off

def hasOpcode (buf : QByteArray) (opcode : UInt16) : Bool :=
  (parseHeader buf).valid && (parseHeader buf).opcode == opcode

def parseWillingReads (buf : QByteArray) : List Access :=
  headerReads buf ++ if hasOpcode buf Willing then arraysReads buf 3 6 else []

def parseAcceptReads (buf : QByteArray) : List Access :=
  headerReads buf ++
    if hasOpcode buf Accept then
      if buf.length < 6 + 4 then [] else readsFrom buf 6 4 ++ arraysReads buf 4 10
    else []

theorem safe_readsFrom {buf : QByteArray} {off n : Nat} (h : off + n ≤ buf.length) :
    Safe (readsFrom buf off n) := by
  intro a ha
  obtain ⟨i, hi, rfl⟩ := List.mem_map.mp ha
  have hlt := List.mem_range.mp hi
  exact ⟨by omega, by omega⟩

theorem safe_headerReads (buf : QByteArray) : Safe (headerReads buf) := by
  rw [headerReads]
  split_ifs with h
  · exact safe_nil
  · exact safe_readsFrom (by omega)

theorem safe_arrayReads (buf : QByteArray) (off : Nat) : Safe (arrayReads buf off) := by
  rw [arrayReads]
  split_ifs with hoff
  · exact safe_nil
  · refine safe_append.mpr ⟨safe_readsFrom (by omega), ?_⟩
    split_ifs with hlen
    · exact safe_nil
    · exact safe_readsFrom (by omega)

theorem safe_arraysReads (buf : QByteArray) (n off : Nat) : Safe (arraysReads buf n off) := by
  induction n generalizing off with
  | zero => exact safe_nil
  | succ n ih =>
    refine safe_append.mpr ⟨safe_arrayReads buf off, ?_⟩
    split
    · exact safe_nil
    · exact ih _

theorem safe_parseWillingReads (buf : QByteArray) : Safe (parseWillingReads buf) := by
  refine safe_append.mpr ⟨safe_headerReads buf, ?_⟩
  split_ifs
  · exact safe_arraysReads buf 3 6
  · exact safe_nil

theorem safe_parseAcceptReads (buf : QByteArray) : Safe (parseAcceptReads buf) := by
  refine safe_append.mpr ⟨safe_headerReads buf, ?_⟩
  split_ifs with hopcode hlen
  · exact safe_nil
  · exact safe_append.mpr ⟨safe_readsFrom (by omega), safe_arraysReads buf 4 10⟩
  · exact safe_nil

theorem byteAt_pre (pre : QByteArray) (b : UInt8) (tail : QByteArray) :
    byteAt (pre ++ b :: tail) pre.length = b := byteAt_append_right pre (b :: tail) 0

theorem mid_behind (pre : QByteArray) (b : UInt8) (a rest : QByteArray) :
    mid (pre ++ b :: (a ++ rest)) (pre.length + 1 : Nat) a.length = a := by
  have h := mid_between (pre ++ [b]) a rest
  rw [List.length_append, List.length_singleton, List.append_assoc, List.append_assoc,
    List.singleton_append] at h
  exact h

theorem readArray8_eq (pre : QByteArray) (b : UInt8) (a rest : QByteArray)
    (hlen : a.length = b.toNat) :
    readArray8 (pre ++ b :: (a ++ rest)) pre.length = some (a, pre.length + 1 + a.length) := by
  have hsize : (pre ++ b :: (a ++ rest)).length = pre.length + (a.length + rest.length + 1) := by
    rw [List.length_append, List.length_cons, List.length_append]
  rw [readArray8, byteAt_pre, ← hlen]
  dsimp only
  rw [mid_behind, if_neg (by omega), if_neg (by omega)]

theorem readArray8_encode {buf pre rest : QByteArray} {a : Array8}
    (hbuf : buf = pre ++ (array8.encode a ++ rest)) :
    readArray8 buf pre.length = some (a.val, (pre ++ array8.encode a).length) ∧
      buf = pre ++ array8.encode a ++ rest := by
  have hlen : a.val.length = (UInt8.ofNat a.val.length).toNat := by
    rw [UInt8.toNat_ofNat', Nat.mod_eq_of_lt a.property]
  refine ⟨?_, by rw [hbuf, List.append_assoc]⟩
  rw [hbuf, array8_encode, putArray8, List.cons_append, readArray8_eq _ _ _ _ hlen,
    List.length_append, List.length_cons]
  congr 2
  omega

theorem of_readArray8 {buf pre tail x : QByteArray} {off : Nat} (hbuf : buf = pre ++ tail)
    (h : readArray8 buf pre.length = some (x, off)) :
    ∃ (a : Array8) (rest : QByteArray), a.val = x ∧ off = (pre ++ array8.encode a).length ∧
      buf = pre ++ array8.encode a ++ rest := by
  subst hbuf
  cases tail with
  | nil =>
    rw [readArray8, if_pos (by rw [List.append_nil]; omega)] at h
    exact absurd h (by simp)
  | cons b tail =>
    by_cases hlen : b.toNat ≤ tail.length
    · have htake : (tail.take b.toNat).length = b.toNat := List.length_take_of_le hlen
      have hread := readArray8_eq pre b (tail.take b.toNat) (tail.drop b.toNat) htake
      rw [List.take_append_drop, h] at hread
      obtain ⟨rfl, rfl⟩ := Prod.mk.inj (Option.some.inj hread)
      have hbytes : putArray8 (tail.take b.toNat) = b :: tail.take b.toNat := by
        rw [putArray8, htake, UInt8.ofNat_toNat]
      refine ⟨⟨tail.take b.toNat, by rw [htake]; exact b.toNat_lt⟩, tail.drop b.toNat, rfl, ?_, ?_⟩
      · rw [array8_encode, hbytes, List.length_append, List.length_cons]
        omega
      · rw [array8_encode, hbytes, List.append_assoc, List.cons_append, List.take_append_drop]
    · rw [readArray8, byteAt_pre, List.length_append, List.length_cons, if_neg (by omega),
        if_pos (by omega)] at h
      exact absurd h (by simp)

def headed (version opcode length : UInt16) (body : QByteArray) : QByteArray :=
  header.encode (version, opcode, length) ++ body

theorem length_header (version opcode length : UInt16) :
    (header.encode (version, opcode, length)).length = 6 := rfl

theorem parseHeader_headed (version opcode length : UInt16) (body : QByteArray) :
    parseHeader (headed version opcode length body) = ⟨version, opcode, length, true⟩ := by
  have hbytes : headed version opcode length body =
      BigEndian.bytes16 version ++ (BigEndian.bytes16 opcode ++
        (BigEndian.bytes16 length ++ body)) := rfl
  have hsize : ¬(headed version opcode length body).length < 6 := by
    rw [headed, List.length_append, length_header]
    omega
  have hversion : rd16be (headed version opcode length body) 0 = version := rd16be_bytes16 _ _
  have hopcode : rd16be (headed version opcode length body) 2 = opcode :=
    (rd16be_append_right (BigEndian.bytes16 version) _ 0).trans (rd16be_bytes16 opcode _)
  have hlength : rd16be (headed version opcode length body) 4 = length :=
    (rd16be_append_right (BigEndian.bytes16 version ++ BigEndian.bytes16 opcode) _ 0).trans
      (rd16be_bytes16 length _)
  rw [parseHeader, if_neg hsize, hversion, hopcode, hlength]

theorem headed_of_valid {buf : QByteArray} (h : (parseHeader buf).valid = true) :
    buf = headed (parseHeader buf).version (parseHeader buf).opcode (parseHeader buf).length
      (buf.drop 6) := by
  have hsize : ¬buf.length < 6 := fun hshort => by
    rw [parseHeader, if_pos hshort] at h
    exact absurd h (by decide)
  have h0 : BigEndian.bytes16 (rd16be buf 0) = (buf.drop 0).take 2 :=
    bytes16_rd16be (show 0 + 2 ≤ buf.length by omega)
  have h2 : BigEndian.bytes16 (rd16be buf 2) = (buf.drop 2).take 2 :=
    bytes16_rd16be (show 2 + 2 ≤ buf.length by omega)
  have h4 : BigEndian.bytes16 (rd16be buf 4) = (buf.drop 4).take 2 :=
    bytes16_rd16be (show 4 + 2 ≤ buf.length by omega)
  have hencode : header.encode (rd16be buf 0, rd16be buf 2, rd16be buf 4) = buf.take 6 := by
    have hparts : header.encode (rd16be buf 0, rd16be buf 2, rd16be buf 4) =
        BigEndian.bytes16 (rd16be buf 0) ++ (BigEndian.bytes16 (rd16be buf 2) ++
          BigEndian.bytes16 (rd16be buf 4)) := rfl
    have hbody : buf.take 6 = buf.take 2 ++ ((buf.drop 2).take 2 ++ (buf.drop 4).take 2) := by
      rw [show 6 = 2 + (2 + 2) from rfl, List.take_add, List.take_add (i := 2), List.drop_drop]
    rw [hparts, h0, h2, h4, hbody, List.drop_zero]
  rw [parseHeader, if_neg hsize, headed, hencode, List.take_append_drop]

def WillingInfo.ofBody : Array8 × Array8 × Array8 → WillingInfo
  | (name, hostname, status) => ⟨name.val, hostname.val, status.val, true⟩

def AcceptInfo.ofBody : UInt32 × Array8 × Array8 × Array8 × Array8 → AcceptInfo
  | (sessionId, name, data, authorization, authorizationData) =>
      ⟨sessionId, name.val, data.val, authorization.val, authorizationData.val, true⟩

theorem parseWilling_headed (version length : UInt16) (v : Array8 × Array8 × Array8)
    (rest : QByteArray) :
    parseWilling (headed version Willing length (willingBody.encode v ++ rest)) =
      WillingInfo.ofBody v := by
  obtain ⟨a, b, c⟩ := v
  obtain ⟨buf, hbuf⟩ : ∃ buf, headed version Willing length (willingBody.encode (a, b, c) ++ rest) =
      buf := ⟨_, rfl⟩
  have hheader := parseHeader_headed version Willing length (willingBody.encode (a, b, c) ++ rest)
  have hparts : buf = header.encode (version, Willing, length) ++
      (array8.encode a ++ (array8.encode b ++ (array8.encode c ++ rest))) := by
    simp only [← hbuf, headed, willingBody, Codec.encode_pair, List.append_assoc]
  obtain ⟨ha, hparts⟩ := readArray8_encode hparts
  obtain ⟨hb, hparts⟩ := readArray8_encode hparts
  obtain ⟨hc, -⟩ := readArray8_encode hparts
  rw [length_header] at ha
  rw [hbuf] at hheader ⊢
  simp only [parseWilling, hheader, ha, hb, hc]
  rfl

theorem of_parseWilling {buf : QByteArray} (h : (parseWilling buf).valid = true) :
    ∃ version length v rest,
      buf = headed version Willing length (willingBody.encode v ++ rest) := by
  obtain ⟨hvalid, hopcode⟩ := header_of_willing h
  have hheaded := headed_of_valid hvalid
  rw [hopcode] at hheaded
  obtain ⟨version, length, hparts⟩ : ∃ version length,
      buf = header.encode (version, Willing, length) ++ buf.drop 6 := ⟨_, _, hheaded⟩
  have hgo : (!(parseHeader buf).valid || (parseHeader buf).opcode != Willing) = false := by
    rw [hvalid, hopcode]
    rfl
  simp only [parseWilling, hgo, Bool.false_eq_true, if_false] at h
  split at h
  · exact absurd h (by simp)
  · rename_i hread
    obtain ⟨a, rest, -, rfl, hparts⟩ := of_readArray8 hparts hread
    split at h
    · exact absurd h (by simp)
    · rename_i hread
      obtain ⟨b, rest, -, rfl, hparts⟩ := of_readArray8 hparts hread
      split at h
      · exact absurd h (by simp)
      · rename_i hread
        obtain ⟨c, rest, -, rfl, hparts⟩ := of_readArray8 hparts hread
        refine ⟨version, length, (a, b, c), rest, ?_⟩
        rw [hparts]
        simp only [headed, willingBody, Codec.encode_pair, List.append_assoc]

theorem parseAccept_headed (version length : UInt16)
    (v : UInt32 × Array8 × Array8 × Array8 × Array8) (rest : QByteArray) :
    parseAccept (headed version Accept length (acceptBody.encode v ++ rest)) =
      AcceptInfo.ofBody v := by
  obtain ⟨sessionId, a, b, c, d⟩ := v
  obtain ⟨buf, hbuf⟩ : ∃ buf,
      headed version Accept length (acceptBody.encode (sessionId, a, b, c, d) ++ rest) = buf :=
    ⟨_, rfl⟩
  have hheader := parseHeader_headed version Accept length
    (acceptBody.encode (sessionId, a, b, c, d) ++ rest)
  have hparts : buf = header.encode (version, Accept, length) ++ BigEndian.bytes32 sessionId ++
      (array8.encode a ++ (array8.encode b ++ (array8.encode c ++ (array8.encode d ++ rest)))) := by
    simp only [← hbuf, headed, acceptBody, Codec.encode_pair, List.append_assoc]
    rfl
  have hsize : ¬buf.length < 6 + 4 := by
    rw [hparts, List.length_append, List.length_append, length_header, BigEndian.length_bytes32]
    omega
  have hid : rd32be buf 6 = sessionId := by
    rw [hparts, List.append_assoc]
    exact (rd32be_append_right (header.encode (version, Accept, length)) _ 0).trans
      (rd32be_bytes32 sessionId _)
  obtain ⟨ha, hparts⟩ := readArray8_encode hparts
  obtain ⟨hb, hparts⟩ := readArray8_encode hparts
  obtain ⟨hc, hparts⟩ := readArray8_encode hparts
  obtain ⟨hd, -⟩ := readArray8_encode hparts
  have hten :
      (header.encode (version, Accept, length) ++ BigEndian.bytes32 sessionId).length = 10 := rfl
  rw [hten] at ha
  rw [hbuf] at hheader ⊢
  simp only [parseAccept, hheader, if_neg hsize, hid, ha, hb, hc, hd]
  rfl

theorem of_parseAccept {buf : QByteArray} (h : (parseAccept buf).valid = true) :
    ∃ version length v rest,
      buf = headed version Accept length (acceptBody.encode v ++ rest) := by
  obtain ⟨hvalid, hopcode⟩ := header_of_accept h
  have hheaded := headed_of_valid hvalid
  rw [hopcode] at hheaded
  obtain ⟨version, length, hheader⟩ : ∃ version length,
      buf = header.encode (version, Accept, length) ++ buf.drop 6 := ⟨_, _, hheaded⟩
  have hgo : (!(parseHeader buf).valid || (parseHeader buf).opcode != Accept) = false := by
    rw [hvalid, hopcode]
    rfl
  simp only [parseAccept, hgo, Bool.false_eq_true, if_false] at h
  by_cases hsize : buf.length < 6 + 4
  · rw [if_pos hsize] at h
    exact absurd h (by simp)
  · rw [if_neg hsize] at h
    have hid : BigEndian.bytes32 (rd32be buf 6) = (buf.drop 6).take 4 :=
      bytes32_rd32be (show 6 + 4 ≤ buf.length by omega)
    have hparts : buf = header.encode (version, Accept, length) ++
        BigEndian.bytes32 (rd32be buf 6) ++ (buf.drop 6).drop 4 := by
      rw [hid, List.append_assoc, List.take_append_drop, ← hheader]
    have hten : (header.encode (version, Accept, length) ++
        BigEndian.bytes32 (rd32be buf 6)).length = 10 := rfl
    split at h
    · exact absurd h (by simp)
    · rename_i hread
      obtain ⟨a, rest, -, rfl, hparts⟩ := of_readArray8 hparts (by rw [hten]; exact hread)
      split at h
      · exact absurd h (by simp)
      · rename_i hread
        obtain ⟨b, rest, -, rfl, hparts⟩ := of_readArray8 hparts hread
        split at h
        · exact absurd h (by simp)
        · rename_i hread
          obtain ⟨c, rest, -, rfl, hparts⟩ := of_readArray8 hparts hread
          split at h
          · exact absurd h (by simp)
          · rename_i hread
            obtain ⟨d, rest, -, rfl, hparts⟩ := of_readArray8 hparts hread
            refine ⟨version, length, (rd32be buf 6, a, b, c, d), rest, hparts.trans ?_⟩
            simp only [headed, acceptBody, Codec.encode_pair, List.append_assoc]
            rfl

-- Well formed up to what the parsers look at: any version, any length, anything behind the body.
def Begins (opcode : UInt16) (body buf : QByteArray) : Prop :=
  ∃ version length rest, buf = headed version opcode length (body ++ rest)

structure ParsesExactly (buf : QByteArray) : Prop where
  willing : (parseWilling buf).valid = true ↔ ∃ v, Begins Willing (willingBody.encode v) buf
  willingFields : ∀ v, Begins Willing (willingBody.encode v) buf →
    parseWilling buf = WillingInfo.ofBody v
  accept : (parseAccept buf).valid = true ↔ ∃ v, Begins Accept (acceptBody.encode v) buf
  acceptFields : ∀ v, Begins Accept (acceptBody.encode v) buf →
    parseAccept buf = AcceptInfo.ofBody v
  safe : Safe (parseWillingReads buf) ∧ Safe (parseAcceptReads buf)

theorem parsers_exact (buf : QByteArray) : ParsesExactly buf := by
  have hwilling (v : Array8 × Array8 × Array8) (h : Begins Willing (willingBody.encode v) buf) :
      parseWilling buf = WillingInfo.ofBody v := by
    obtain ⟨version, length, rest, rfl⟩ := h
    exact parseWilling_headed version length v rest
  have haccept (v : UInt32 × Array8 × Array8 × Array8 × Array8)
      (h : Begins Accept (acceptBody.encode v) buf) : parseAccept buf = AcceptInfo.ofBody v := by
    obtain ⟨version, length, rest, rfl⟩ := h
    exact parseAccept_headed version length v rest
  refine ⟨⟨fun h => ?_, ?_⟩, hwilling, ⟨fun h => ?_, ?_⟩, haccept,
    safe_parseWillingReads buf, safe_parseAcceptReads buf⟩
  · obtain ⟨version, length, v, rest, hbuf⟩ := of_parseWilling h
    exact ⟨v, version, length, rest, hbuf⟩
  · rintro ⟨v, h⟩
    rw [hwilling v h]
    rfl
  · obtain ⟨version, length, v, rest, hbuf⟩ := of_parseAccept h
    exact ⟨v, version, length, rest, hbuf⟩
  · rintro ⟨v, h⟩
    rw [haccept v h]
    rfl

def WellFormedWilling (buf : QByteArray) : Prop :=
  ∃ v, bodyOf Willing buf = some (willingBody.encode v)

-- Version 9, a length of 0 and a byte behind the last array.
def looseWilling : QByteArray := headed 9 Willing 0 [0, 0, 0, 0xFF]

theorem accepts_loose_willing :
    ¬∀ buf, (parseWilling buf).valid = true ↔ WellFormedWilling buf := by
  intro h
  have hvalid : (parseWilling looseWilling).valid = true := by decide
  obtain ⟨v, hv⟩ := (h looseWilling).mp hvalid
  have hnone : bodyOf Willing looseWilling = none := by decide
  rw [hnone] at hv
  exact absurd hv (by simp)

end Connect.Xdmcp
