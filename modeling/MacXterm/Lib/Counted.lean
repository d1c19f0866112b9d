import MacXterm.Lib.Codec

-- Lists behind a count of one byte.
namespace Codec

variable {α : Type}

def byte : Codec UInt8 where
  encode b := [b]
  decode
    | b :: rest => some (b, rest)
    | [] => none
  decode_encode b rest := rfl
  encode_decode bytes b rest h := by
    cases bytes with
    | nil => exact absurd h (by simp)
    | cons c bytes =>
      obtain ⟨rfl, rfl⟩ := Prod.mk.inj (Option.some.inj h)
      rfl

def half : Codec UInt16 where
  encode := BigEndian.bytes16
  decode
    | b0 :: b1 :: rest => some (BigEndian.word16 b0 b1, rest)
    | _ => none
  decode_encode v rest := by
    simp only [BigEndian.bytes16, List.cons_append, List.nil_append, BigEndian.word16_bytes16]
  encode_decode bytes v rest h := by
    split at h
    · obtain ⟨rfl, rfl⟩ := Prod.mk.inj (Option.some.inj h)
      rw [BigEndian.bytes16_word16]
      rfl
    · exact absurd h (by simp)

def decodeMany (c : Codec α) : Nat → List UInt8 → Option (List α × List UInt8)
  | 0, bytes => some ([], bytes)
  | n + 1, bytes =>
      (c.decode bytes).bind fun r => (decodeMany c n r.2).map fun s => (r.1 :: s.1, s.2)

theorem decodeMany_encode (c : Codec α) (xs : List α) (rest : List UInt8) :
    c.decodeMany xs.length (xs.flatMap c.encode ++ rest) = some (xs, rest) := by
  induction xs with
  | nil => rfl
  | cons x xs ih =>
    rw [List.length_cons, List.flatMap_cons, List.append_assoc, decodeMany, c.decode_encode,
      Option.bind_some, ih]
    rfl

theorem encode_decodeMany (c : Codec α) {n : Nat} {bytes rest : List UInt8} {xs : List α}
    (h : c.decodeMany n bytes = some (xs, rest)) :
    xs.length = n ∧ xs.flatMap c.encode ++ rest = bytes := by
  induction n generalizing bytes xs with
  | zero =>
    obtain ⟨rfl, rfl⟩ := Prod.mk.inj (Option.some.inj h)
    exact ⟨rfl, rfl⟩
  | succ n ih =>
    obtain ⟨⟨x, bytes'⟩, hx, h⟩ := Option.bind_eq_some_iff.mp h
    obtain ⟨⟨ys, rest'⟩, hys, h⟩ := Option.map_eq_some_iff.mp h
    obtain ⟨rfl, rfl⟩ := Prod.mk.inj h
    obtain ⟨hlength, hflat⟩ := ih hys
    refine ⟨by rw [List.length_cons, hlength], ?_⟩
    rw [List.flatMap_cons, List.append_assoc, hflat, c.encode_decode bytes x bytes' hx]

def counted (c : Codec α) : Codec {xs : List α // xs.length < 256} where
  encode xs := .ofNat xs.val.length :: xs.val.flatMap c.encode
  decode bytes :=
    (byte.decode bytes).bind fun r => (c.decodeMany r.1.toNat r.2).bind fun s =>
      if h : s.1.length < 256 then some (⟨s.1, h⟩, s.2) else none
  decode_encode xs rest := by
    have hcount : (UInt8.ofNat xs.val.length).toNat = xs.val.length := by
      rw [UInt8.toNat_ofNat', Nat.mod_eq_of_lt xs.property]
    have hmany := c.decodeMany_encode xs.val rest
    rw [← hcount] at hmany
    rw [List.cons_append, byte, Option.bind_some, hmany, Option.bind_some, dif_pos xs.property]
  encode_decode bytes xs rest h := by
    obtain ⟨⟨n, bytes'⟩, hn, h⟩ := Option.bind_eq_some_iff.mp h
    obtain ⟨⟨ys, rest'⟩, hys, h⟩ := Option.bind_eq_some_iff.mp h
    split at h
    · obtain ⟨rfl, rfl⟩ := Prod.mk.inj (Option.some.inj h)
      obtain ⟨hlength, hflat⟩ := c.encode_decodeMany hys
      have hcount : UInt8.ofNat ys.length = n := by
        rw [hlength]
        exact UInt8.ofNat_toNat
      have hbyte := byte.encode_decode bytes n bytes' hn
      rw [List.cons_append, hcount, hflat]
      exact hbyte
    · exact absurd h (by simp)

theorem encode_counted (c : Codec α) (xs : {xs : List α // xs.length < 256}) :
    c.counted.encode xs = .ofNat xs.val.length :: xs.val.flatMap c.encode := rfl

end Codec
