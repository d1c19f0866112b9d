import MacXterm.Qt.Number

namespace Qt

theorem toULongLong_of_decimal {s : QString} {n : Int} (h : decimal s = some n) (h0 : 0 ≤ n)
    (hn : n < 2 ^ 64) : (toULongLong s).toNat = n.toNat := by
  have hdigits {cs : QString} {f : Int → Int}
      (h : ((digits cs).bind fun m => some (m : Int)).map f = some n) :
      ∃ m : Nat, digits cs = some m ∧ f m = n := by
    obtain ⟨i, hi, hf⟩ := Option.map_eq_some_iff.mp h
    obtain ⟨m, hm, hmi⟩ := Option.bind_eq_some_iff.mp hi
    exact ⟨m, hm, by rw [Option.some.inj hmi, hf]⟩
  have hread {m : Nat} (hm : (m : Int) = n) :
      (((some m).filter (· < 2 ^ 64)).getD 0).toUInt64.toNat = n.toNat := by
    have hlt : m < 2 ^ 64 := by omega
    rw [Option.filter_some, if_pos (by simpa using hlt), Option.getD_some, ← hm, Int.toNat_natCast]
    exact UInt64.toNat_ofNat_of_lt' hlt
  unfold decimal at h
  unfold toULongLong
  split at h
  · rename_i cs hcs
    obtain ⟨m, hm, hneg⟩ := hdigits h
    have hnone : digits ('-' :: cs) = none := by
      refine Option.eq_none_iff_forall_ne_some.mpr fun k hk => ?_
      exact absurd (digit_of_digits hk '-' List.mem_cons_self) (by decide)
    have hzero : n.toNat = 0 := by omega
    rw [hcs, hzero]
    change (((digits ('-' :: cs)).filter (· < 2 ^ 64)).getD 0).toUInt64.toNat = 0
    rw [hnone]
    rfl
  · rename_i cs hcs
    obtain ⟨m, hm, hpos⟩ := hdigits h
    rw [hcs]
    change (((digits cs).filter (· < 2 ^ 64)).getD 0).toUInt64.toNat = n.toNat
    rw [hm]
    exact hread hpos
  · rename_i hminus hplus
    obtain ⟨m, hm, hpos⟩ := hdigits h
    split
    · rename_i cs hcs
      exact absurd hcs (hplus cs)
    · rw [hm]
      exact hread hpos

inductive QVariant where
  | invalid
  | text (s : QString)
  | number (n : Int)
  deriving DecidableEq

namespace QVariant

def toString : QVariant → QString
  | invalid => []
  | text s => s
  | number n => Qt.number n

-- A text is read as an unsigned long long, and the overflow is not reflected in ok.
def toUInt : QVariant → UInt32
  | invalid => 0
  | text s => (toULongLong s).toUInt32
  | number n => UInt32.ofInt n

def toNumber : QVariant → Option Int
  | invalid => none
  | text s => decimal s
  | number n => some n

theorem toUInt_of_toNumber {v : QVariant} {n : Int} (h : v.toNumber = some n) (h0 : 0 ≤ n)
    (hn : n < 2 ^ 32) : (v.toUInt.toNat : Int) = n := by
  cases v with
  | invalid => cases h
  | text s =>
    have hread := toULongLong_of_decimal (show decimal s = some n from h) h0 (by omega)
    have hlow : (toULongLong s).toNat < 2 ^ 32 := by omega
    change ((toULongLong s).toUInt32.toNat : Int) = n
    rw [UInt64.toNat_toUInt32, Nat.mod_eq_of_lt hlow, hread]
    omega
  | number k =>
    obtain rfl : k = n := Option.some.inj h
    change ((UInt32.ofNat (k % 2 ^ 32).toNat).toNat : Int) = k
    rw [Int.emod_eq_of_lt h0 hn, UInt32.toNat_ofNat_of_lt' (show k.toNat < 2 ^ 32 by omega)]
    omega

end QVariant

end Qt
