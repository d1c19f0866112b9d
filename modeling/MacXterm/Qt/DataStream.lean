import MacXterm.Lib.Codec
import MacXterm.Qt.Text

namespace Qt

-- A QDataStream of version Qt_6_0 that reads an array; ok is status() == Ok.
structure DataStream where
  rest : QByteArray
  ok : Bool
  deriving DecidableEq

namespace DataStream

-- none is the null QByteArray.
abbrev Chunk := Option QByteArray

def writeUInt32 (v : UInt32) : QByteArray := BigEndian.bytes32 v

-- The size is narrowed to 32 bits on the way to writeBytes.
def writeByteArray : Chunk → QByteArray
  | none => writeUInt32 0xffffffff
  | some b =>
      let len := UInt32.ofNat b.length
      writeUInt32 len ++ b.take len.toNat

def readUInt32 (ds : DataStream) : UInt32 × DataStream :=
  match ds.rest with
  | b0 :: b1 :: b2 :: b3 :: rest => (BigEndian.word32 b0 b1 b2 b3, { ds with rest := rest })
  | _ => (0, ⟨[], false⟩)

def readByteArray (ds : DataStream) : Chunk × DataStream :=
  let (len, ds) := ds.readUInt32
  if len = 0xffffffff then (none, ds)
  else if ds.rest.length < len.toNat then (none, ⟨[], false⟩)
  else (some (ds.rest.take len.toNat), { ds with rest := ds.rest.drop len.toNat })

theorem readUInt32_write (v : UInt32) (rest : QByteArray) (ok : Bool) :
    readUInt32 ⟨writeUInt32 v ++ rest, ok⟩ = (v, ⟨rest, ok⟩) := by
  simp only [writeUInt32, BigEndian.bytes32, List.cons_append, List.nil_append, readUInt32,
    BigEndian.word32_bytes32]

theorem write_readUInt32 {bytes : QByteArray} (h : (readUInt32 ⟨bytes, true⟩).2.ok = true) :
    writeUInt32 (readUInt32 ⟨bytes, true⟩).1 ++ (readUInt32 ⟨bytes, true⟩).2.rest = bytes := by
  match bytes with
  | [] | [_] | [_, _] | [_, _, _] => cases h
  | b0 :: b1 :: b2 :: b3 :: rest =>
    simp only [readUInt32, writeUInt32, BigEndian.bytes32_word32]
    rfl

theorem readUInt32_short {bytes : QByteArray} (h : (readUInt32 ⟨bytes, true⟩).2.ok = false) :
    readUInt32 ⟨bytes, true⟩ = (0, ⟨[], false⟩) := by
  match bytes with
  | [] | [_] | [_, _] | [_, _, _] => rfl
  | _ :: _ :: _ :: _ :: _ => cases h

def Storable (c : Chunk) : Prop := ∀ b, c = some b → b.length < 4294967295

instance : DecidablePred Storable
  | none => .isTrue nofun
  | some b => decidable_of_iff (b.length < 4294967295)
      ⟨fun h _ hb => Option.some.inj hb ▸ h, fun h => h b rfl⟩

theorem toNat_length {b : QByteArray} (h : b.length < 4294967295) :
    (UInt32.ofNat b.length).toNat = b.length := by
  rw [UInt32.toNat_ofNat', Nat.mod_eq_of_lt (by omega)]

theorem readByteArray_len {v : UInt32} (hv : v ≠ 0xffffffff) (rest : QByteArray) (ok : Bool) :
    readByteArray ⟨writeUInt32 v ++ rest, ok⟩ =
      if rest.length < v.toNat then (none, ⟨[], false⟩)
      else (some (rest.take v.toNat), ⟨rest.drop v.toNat, ok⟩) := by
  rw [readByteArray, readUInt32_write]
  exact if_neg hv

theorem readByteArray_null (rest : QByteArray) (ok : Bool) :
    readByteArray ⟨writeUInt32 0xffffffff ++ rest, ok⟩ = (none, ⟨rest, ok⟩) := by
  rw [readByteArray, readUInt32_write]
  exact if_pos rfl

theorem readByteArray_write {c : Chunk} (h : Storable c) (rest : QByteArray) (ok : Bool) :
    readByteArray ⟨writeByteArray c ++ rest, ok⟩ = (c, ⟨rest, ok⟩) := by
  cases c with
  | none => exact readByteArray_null rest ok
  | some b =>
    have hb := h b rfl
    have hlen := toNat_length hb
    have hne : UInt32.ofNat b.length ≠ 0xffffffff := by
      intro heq
      rw [heq] at hlen
      have hones : (0xffffffff : UInt32).toNat = 4294967295 := rfl
      omega
    rw [writeByteArray, List.append_assoc, readByteArray_len hne, hlen, List.take_length,
      if_neg (by simp), List.take_left, List.drop_left]

theorem toNat_lt_ones {v : UInt32} (hv : v ≠ 0xffffffff) : v.toNat < 4294967295 := by
  have hmax := v.toNat_lt
  have hones : (0xffffffff : UInt32).toNat = 4294967295 := rfl
  have hne : v.toNat ≠ (0xffffffff : UInt32).toNat := fun heq => hv (UInt32.toNat_inj.mp heq)
  omega

theorem readByteArray_cut {c : Chunk} (h : ¬Storable c) (rest : QByteArray) (ok : Bool) :
    (readByteArray ⟨writeByteArray c ++ rest, ok⟩).1 ≠ c := by
  cases c with
  | none => exact absurd nofun h
  | some b =>
    have hb : 4294967295 ≤ b.length := by
      by_contra hlt
      exact h fun b' hb' => by
        obtain rfl := Option.some.inj hb'
        omega
    rw [writeByteArray, List.append_assoc]
    by_cases hne : UInt32.ofNat b.length = 0xffffffff
    · rw [hne, readByteArray_null]
      exact nofun
    · have hlt := toNat_lt_ones hne
      have hlen : (b.take (UInt32.ofNat b.length).toNat).length =
          (UInt32.ofNat b.length).toNat := List.length_take_of_le (by omega)
      rw [readByteArray_len hne, if_neg (by rw [List.length_append, hlen]; omega)]
      intro heq
      have hshort := congrArg List.length (Option.some.inj heq)
      rw [List.take_append_of_le_length (by omega), List.take_take, Nat.min_self, hlen] at hshort
      omega

theorem write_take {rest : QByteArray} {v : UInt32} (hv : v ≠ 0xffffffff)
    (h : v.toNat ≤ rest.length) :
    Storable (some (rest.take v.toNat)) ∧
      writeByteArray (some (rest.take v.toNat)) ++ rest.drop v.toNat = writeUInt32 v ++ rest := by
  have hlt := toNat_lt_ones hv
  have hlen : (rest.take v.toNat).length = v.toNat := List.length_take_of_le h
  refine ⟨fun b hb => by rw [← Option.some.inj hb, hlen]; exact hlt, ?_⟩
  rw [writeByteArray, hlen, UInt32.ofNat_toNat, List.take_take, Nat.min_self, List.append_assoc,
    List.take_append_drop]

theorem readByteArray_sound {bytes : QByteArray}
    (h : (readByteArray ⟨bytes, true⟩).2.ok = true) :
    Storable (readByteArray ⟨bytes, true⟩).1 ∧
      writeByteArray (readByteArray ⟨bytes, true⟩).1 ++ (readByteArray ⟨bytes, true⟩).2.rest =
        bytes := by
  cases hread : (readUInt32 ⟨bytes, true⟩).2.ok with
  | false =>
    rw [readByteArray, readUInt32_short hread] at h
    cases h
  | true =>
    have hbytes := write_readUInt32 hread
    generalize (readUInt32 ⟨bytes, true⟩).1 = v at hbytes
    generalize (readUInt32 ⟨bytes, true⟩).2.rest = rest at hbytes
    subst hbytes
    by_cases hv : v = 0xffffffff
    · subst hv
      rw [readByteArray_null]
      exact ⟨nofun, rfl⟩
    · rw [readByteArray_len hv] at h ⊢
      split at h
      · cases h
      · rename_i hlen
        rw [if_neg hlen]
        exact write_take hv (Nat.le_of_not_lt hlen)

theorem eq_of_ok {ds : DataStream} (h : ds.ok = true) : ds = ⟨ds.rest, true⟩ := by
  rw [← h]

def chunk : Codec {c : Chunk // Storable c} where
  encode c := writeByteArray c.val
  decode bytes :=
    if h : (readByteArray ⟨bytes, true⟩).2.ok = true then
      some (⟨(readByteArray ⟨bytes, true⟩).1, (readByteArray_sound h).1⟩,
        (readByteArray ⟨bytes, true⟩).2.rest)
    else none
  decode_encode c rest := by
    simp only [readByteArray_write c.property, dif_pos]
  encode_decode bytes c rest h := by
    split at h
    · rename_i hok
      obtain ⟨rfl, rfl⟩ := Prod.mk.inj (Option.some.inj h)
      exact (readByteArray_sound hok).2
    · cases h

end DataStream

end Qt
