import Mathlib.Algebra.Group.Int.Defs
import Mathlib.Algebra.Group.Nat.Defs
import Mathlib.Data.List.Basic
import Mathlib.Logic.Equiv.Basic

namespace BigEndian

def bytes32 (v : UInt32) : List UInt8 :=
  [.ofNat (v.toNat / 2 ^ 24), .ofNat (v.toNat / 2 ^ 16), .ofNat (v.toNat / 2 ^ 8), .ofNat v.toNat]

def word32 (b0 b1 b2 b3 : UInt8) : UInt32 :=
  .ofNat (b0.toNat * 2 ^ 24 + b1.toNat * 2 ^ 16 + b2.toNat * 2 ^ 8 + b3.toNat)

def bytes16 (v : UInt16) : List UInt8 := [.ofNat (v.toNat / 2 ^ 8), .ofNat v.toNat]

def word16 (b0 b1 : UInt8) : UInt16 := .ofNat (b0.toNat * 2 ^ 8 + b1.toNat)

@[simp]
theorem length_bytes16 (v : UInt16) : (bytes16 v).length = 2 := rfl

@[simp]
theorem length_bytes32 (v : UInt32) : (bytes32 v).length = 4 := rfl

theorem word16_bytes16 (v : UInt16) :
    word16 (.ofNat (v.toNat / 2 ^ 8)) (.ofNat v.toNat) = v := by
  have h := v.toNat_lt
  apply UInt16.toNat_inj.mp
  simp only [word16, UInt16.toNat_ofNat', UInt8.toNat_ofNat']
  omega

theorem bytes16_word16 (b0 b1 : UInt8) : bytes16 (word16 b0 b1) = [b0, b1] := by
  have h0 := b0.toNat_lt
  have h1 := b1.toNat_lt
  have h : (word16 b0 b1).toNat = b0.toNat * 2 ^ 8 + b1.toNat := by
    rw [word16, UInt16.toNat_ofNat']
    omega
  simp only [bytes16, h, List.cons.injEq, and_true]
  constructor
  · apply UInt8.toNat_inj.mp
    rw [UInt8.toNat_ofNat']
    omega
  · apply UInt8.toNat_inj.mp
    rw [UInt8.toNat_ofNat']
    omega

theorem word32_toNat (b0 b1 b2 b3 : UInt8) :
    (word32 b0 b1 b2 b3).toNat =
      b0.toNat * 2 ^ 24 + b1.toNat * 2 ^ 16 + b2.toNat * 2 ^ 8 + b3.toNat := by
  have h0 := b0.toNat_lt
  have h1 := b1.toNat_lt
  have h2 := b2.toNat_lt
  have h3 := b3.toNat_lt
  rw [word32, UInt32.toNat_ofNat']
  omega

theorem word32_bytes32 (v : UInt32) :
    word32 (.ofNat (v.toNat / 2 ^ 24)) (.ofNat (v.toNat / 2 ^ 16)) (.ofNat (v.toNat / 2 ^ 8))
      (.ofNat v.toNat) = v := by
  have h := v.toNat_lt
  apply UInt32.toNat_inj.mp
  simp only [word32_toNat, UInt8.toNat_ofNat']
  omega

theorem bytes32_word32 (b0 b1 b2 b3 : UInt8) : bytes32 (word32 b0 b1 b2 b3) = [b0, b1, b2, b3] := by
  have h0 := b0.toNat_lt
  have h1 := b1.toNat_lt
  have h2 := b2.toNat_lt
  have h3 := b3.toNat_lt
  have h (n : Nat) (b : UInt8) (hn : n % 2 ^ 8 = b.toNat) : UInt8.ofNat n = b :=
    UInt8.toNat_inj.mp (by rw [UInt8.toNat_ofNat', hn])
  simp only [bytes32, word32_toNat, List.cons.injEq, and_true]
  exact ⟨h _ _ (by omega), h _ _ (by omega), h _ _ (by omega), h _ _ (by omega)⟩

end BigEndian

structure Codec (α : Type) where
  encode : α → List UInt8
  decode : List UInt8 → Option (α × List UInt8)
  decode_encode : ∀ a rest, decode (encode a ++ rest) = some (a, rest)
  encode_decode : ∀ bytes a rest, decode bytes = some (a, rest) → encode a ++ rest = bytes

namespace Codec

variable {α β : Type}

def Encodes (c : Codec α) (bytes : List UInt8) : Prop := ∃ a, c.encode a = bytes

theorem encodes_iff (c : Codec α) (bytes : List UInt8) :
    c.Encodes bytes ↔ ((c.decode bytes).any fun r => r.2.isEmpty) = true := by
  constructor
  · rintro ⟨a, rfl⟩
    have h := c.decode_encode a []
    rw [List.append_nil] at h
    simp [h]
  · intro h
    obtain ⟨⟨a, rest⟩, hd, hr⟩ := (Option.any_eq_true _ _).mp h
    obtain rfl := List.isEmpty_iff.mp hr
    exact ⟨a, by simpa using c.encode_decode bytes a [] hd⟩

instance (c : Codec α) (bytes : List UInt8) : Decidable (c.Encodes bytes) :=
  decidable_of_iff _ (c.encodes_iff bytes).symm

theorem append_cancel (c : Codec α) {a b : α} {r s : List UInt8}
    (h : c.encode a ++ r = c.encode b ++ s) : a = b ∧ r = s := by
  have ha := c.decode_encode a r
  rw [h, c.decode_encode b s] at ha
  simp only [Option.some.injEq, Prod.mk.injEq] at ha
  exact ⟨ha.1.symm, ha.2.symm⟩

theorem not_encodes_prefix (c : Codec α) {a : α} {p q : List UInt8} (hq : q ≠ [])
    (h : c.encode a = p ++ q) : ¬ c.Encodes p := by
  rintro ⟨b, rfl⟩
  exact hq (c.append_cancel (by simpa using h)).2.symm

def word : Codec UInt32 where
  encode := BigEndian.bytes32
  decode
    | b0 :: b1 :: b2 :: b3 :: rest => some (BigEndian.word32 b0 b1 b2 b3, rest)
    | _ => none
  decode_encode v rest := by
    simp only [BigEndian.bytes32, List.cons_append, List.nil_append, BigEndian.word32_bytes32]
  encode_decode bytes v rest h := by
    split at h
    · simp only [Option.some.injEq, Prod.mk.injEq] at h
      rw [← h.1, ← h.2, BigEndian.bytes32_word32]
      rfl
    · exact absurd h (by simp)

def const (bytes : List UInt8) : Codec Unit where
  encode _ := bytes
  decode b := if bytes.isPrefixOf b then some ((), b.drop bytes.length) else none
  decode_encode _ rest := by simp
  encode_decode b _ rest h := by
    split at h
    · rename_i hp
      obtain ⟨t, rfl⟩ := List.isPrefixOf_iff_prefix.mp hp
      simp only [List.drop_left, Option.some.injEq, Prod.mk.injEq, true_and] at h
      rw [h]
    · exact absurd h (by simp)

def bytes (n : Nat) : Codec { b : List UInt8 // b.length = n } where
  encode b := b.val
  decode b := if h : n ≤ b.length then some (⟨b.take n, List.length_take_of_le h⟩, b.drop n) else none
  decode_encode b rest := by
    obtain ⟨b, rfl⟩ := b
    simp
  encode_decode b a rest h := by
    split at h
    · simp only [Option.some.injEq, Prod.mk.injEq] at h
      rw [← h.1, ← h.2]
      exact List.take_append_drop n b
    · exact absurd h (by simp)

def sigma {γ : α → Type} (c : Codec α) (d : ∀ a, Codec (γ a)) : Codec (Σ a, γ a) where
  encode x := c.encode x.1 ++ (d x.1).encode x.2
  decode b := (c.decode b).bind fun r => ((d r.1).decode r.2).map fun s => (⟨r.1, s.1⟩, s.2)
  decode_encode x rest := by
    rw [List.append_assoc, c.decode_encode, Option.bind_some, (d x.1).decode_encode]
    rfl
  encode_decode b x rest h := by
    obtain ⟨r, hr, h⟩ := Option.bind_eq_some_iff.mp h
    obtain ⟨s, hs, h⟩ := Option.map_eq_some_iff.mp h
    simp only [Prod.mk.injEq] at h
    obtain ⟨rfl, rfl⟩ := h
    rw [List.append_assoc, (d r.1).encode_decode _ _ _ hs, c.encode_decode _ _ _ hr]

def equiv (c : Codec α) (e : α ≃ β) : Codec β where
  encode b := c.encode (e.symm b)
  decode b := (c.decode b).map fun r => (e r.1, r.2)
  decode_encode b rest := by simp [c.decode_encode]
  encode_decode b a rest h := by
    obtain ⟨r, hr, h⟩ := Option.map_eq_some_iff.mp h
    simp only [Prod.mk.injEq] at h
    obtain ⟨rfl, rfl⟩ := h
    simpa using c.encode_decode _ _ _ hr

def pair (c : Codec α) (d : Codec β) : Codec (α × β) :=
  (c.sigma fun _ => d).equiv (Equiv.sigmaEquivProd α β)

abbrev Value (_ : Codec α) : Type := α

theorem encode_pair (c : Codec α) (d : Codec β) (x : α × β) :
    (c.pair d).encode x = c.encode x.1 ++ d.encode x.2 := rfl

def restrict (c : Codec α) (P : α → Prop) [DecidablePred P] : Codec { a // P a } where
  encode a := c.encode a.val
  decode b := (c.decode b).bind fun r => if h : P r.1 then some (⟨r.1, h⟩, r.2) else none
  decode_encode a rest := by simp [c.decode_encode, a.property]
  encode_decode b a rest h := by
    obtain ⟨r, hr, h⟩ := Option.bind_eq_some_iff.mp h
    split at h
    · simp only [Option.some.injEq, Prod.mk.injEq] at h
      obtain ⟨rfl, rfl⟩ := h
      exact c.encode_decode _ _ _ hr
    · exact absurd h (by simp)

def when (c : Codec α) (b : Bool) : Codec { x : Option α // x.isSome = b } where
  encode x := x.val.elim [] c.encode
  decode bytes :=
    match b with
    | true => (c.decode bytes).map fun r => (⟨some r.1, rfl⟩, r.2)
    | false => some (⟨none, rfl⟩, bytes)
  decode_encode x rest := by
    obtain ⟨x, rfl⟩ := x
    cases x with
    | none => rfl
    | some a => simp [c.decode_encode]
  encode_decode bytes x rest h := by
    cases b with
    | true =>
      obtain ⟨r, hr, h⟩ := Option.map_eq_some_iff.mp h
      simp only [Prod.mk.injEq] at h
      obtain ⟨rfl, rfl⟩ := h
      exact c.encode_decode _ _ _ hr
    | false =>
      simp only [Option.some.injEq, Prod.mk.injEq] at h
      obtain ⟨rfl, rfl⟩ := h
      rfl

end Codec
