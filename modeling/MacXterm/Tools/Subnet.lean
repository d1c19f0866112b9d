import MacXterm.Lib.MachineInt
import MacXterm.Qt.Number
import MacXterm.Qt.Words

namespace Tools.Subnet

open Qt

-- QString::toUInt.
def toUInt (s : QString) : Option Nat :=
  let value := match trimmed s with
    | '+' :: cs => digits cs
    | cs => digits cs
  value.filter (· < 2 ^ 32)

def parseOctet (v : UInt32) (p : QString) : Option UInt32 :=
  match toUInt p with
  | none => none
  | some b => if 255 < b ∨ p = [] then none else some (v <<< 8 ||| .ofNat b)

def parseIpv4 (s : QString) : Option UInt32 :=
  let parts := s.splitOn '.'
  if parts.length ≠ 4 then none else parts.foldlM parseOctet 0

def octet (v : UInt32) : QString := number v.toNat

def formatIpv4 (v : UInt32) : QString :=
  octet (v >>> 24 &&& 0xff) ++ '.' :: (octet (v >>> 16 &&& 0xff) ++ '.' ::
    (octet (v >>> 8 &&& 0xff) ++ '.' :: octet (v &&& 0xff)))

theorem measure_through {v last : UInt32} (h : v ≠ last) :
    (last - (v + 1)).toNat < (last - v).toNat := by
  have hne : v.toNat ≠ last.toNat := fun heq => h (UInt32.toNat_inj.mp heq)
  have hv := v.toNat_lt
  have hlast := last.toNat_lt
  rw [UInt32.toNat_sub, UInt32.toNat_sub, UInt32.toNat_add]
  change _ < _
  have hone : (1 : UInt32).toNat = 1 := rfl
  rw [hone]
  omega

theorem measure_below {v stop : UInt32} (h : v < stop) :
    stop.toNat - (v + 1).toNat < stop.toNat - v.toNat := by
  have hlt := UInt32.lt_iff_toNat_lt.mp h
  have hstop := stop.toNat_lt
  have hone : (1 : UInt32).toNat = 1 := rfl
  rw [UInt32.toNat_add, hone]
  omega

-- for (v = first; ; ++v) up to the break at last.
def through (v last : UInt32) : List UInt32 :=
  v :: if h : v = last then [] else through (v + 1) last
termination_by (last - v).toNat
decreasing_by exact measure_through h

-- for (v = first; v < stop; ++v).
def below (v stop : UInt32) : List UInt32 :=
  if h : v < stop then v :: below (v + 1) stop else []
termination_by stop.toNat - v.toNat
decreasing_by exact measure_below h

def expand (base : UInt32) (len : Nat) : List UInt32 :=
  let mask : UInt32 := if len = 0 then 0 else (0xffffffff : UInt32) <<< UInt32.ofNat (32 - len)
  let network := base &&& mask
  let broadcast := network ||| ~~~mask
  if 31 ≤ len then through network broadcast else below (network + 1) broadcast

def hosts (cidr : QString) : List QString :=
  match cutAt '/' cidr with
  | none => []
  | some (left, right) =>
      match parseIpv4 left with
      | none => []
      | some base =>
          match toInt right with
          | none => []
          | some len => if len < 16 ∨ 32 < len then [] else (expand base len.toNat).map formatIpv4

-- Where the block of 2 ^ k addresses with v in it begins.
def start (v : UInt32) (k : Nat) : Nat := v.toNat / 2 ^ k * 2 ^ k

def word (n : Nat) : UInt32 := .ofNat n

theorem word_toNat (v : UInt32) : word v.toNat = v := UInt32.ofNat_toNat

theorem toNat_word {n : Nat} (h : n < 2 ^ 32) : (word n).toNat = n := UInt32.toNat_ofNat_of_lt' h

theorem word_succ (v : UInt32) : word (v.toNat + 1) = v + 1 := by
  rw [word, UInt32.ofNat_add, UInt32.ofNat_toNat]
  rfl

theorem toNat_succ {v last : UInt32} (h : v.toNat < last.toNat) : (v + 1).toNat = v.toNat + 1 := by
  have hlast := last.toNat_lt
  rw [← word_succ, toNat_word (by omega)]

theorem through_eq {v last : UInt32} (h : v.toNat ≤ last.toNat) :
    through v last = (List.range' v.toNat (last.toNat + 1 - v.toNat)).map word := by
  obtain ⟨n, hn⟩ : ∃ n, last.toNat + 1 - v.toNat = n + 1 := ⟨last.toNat - v.toNat, by omega⟩
  rw [hn]
  induction n generalizing v with
  | zero =>
    have heq : v = last := UInt32.toNat_inj.mp (by omega)
    rw [through, dif_pos heq, List.range'_one, List.map_singleton, word_toNat]
  | succ n ih =>
    have hlt : v.toNat < last.toNat := by omega
    have hnext := toNat_succ hlt
    have hne : v ≠ last := fun heq => absurd (congrArg UInt32.toNat heq) (by omega)
    rw [through, dif_neg hne, List.range'_succ, List.map_cons, word_toNat,
      ih (by omega) (by omega), hnext]

theorem below_eq (v stop : UInt32) :
    below v stop = (List.range' v.toNat (stop.toNat - v.toNat)).map word := by
  obtain ⟨n, hn⟩ : ∃ n, stop.toNat - v.toNat = n := ⟨_, rfl⟩
  rw [hn]
  induction n generalizing v with
  | zero =>
    have hge : ¬v < stop := fun h => by
      have := UInt32.lt_iff_toNat_lt.mp h
      omega
    rw [below, dif_neg hge]
    rfl
  | succ n ih =>
    have hlt : v.toNat < stop.toNat := by omega
    have hnext := toNat_succ hlt
    rw [below, dif_pos (UInt32.lt_iff_toNat_lt.mpr hlt), ih (v + 1) (by omega), List.range'_succ,
      List.map_cons, word_toNat, hnext]

theorem toNat_mask {k : Nat} (hk : k < 17) :
    ((0xffffffff : UInt32) <<< UInt32.ofNat k).toNat = (2 ^ (32 - k) - 1) * 2 ^ k := by
  have hall : ∀ k < 17,
      ((0xffffffff : UInt32) <<< UInt32.ofNat k).toNat = (2 ^ (32 - k) - 1) * 2 ^ k := by decide
  exact hall k hk

theorem toNat_not_mask {k : Nat} (hk : k < 17) :
    (~~~((0xffffffff : UInt32) <<< UInt32.ofNat k)).toNat = 2 ^ k - 1 := by
  have hall : ∀ k < 17, (~~~((0xffffffff : UInt32) <<< UInt32.ofNat k)).toNat = 2 ^ k - 1 := by
    decide
  exact hall k hk

theorem start_add_lt (v : UInt32) {k : Nat} (hk : k ≤ 32) : start v k + (2 ^ k - 1) < 2 ^ 32 := by
  have hsplit : 2 ^ 32 = 2 ^ (32 - k) * 2 ^ k := by rw [← Nat.pow_add, Nat.sub_add_cancel hk]
  have hpos := Nat.two_pow_pos k
  have hquot : v.toNat / 2 ^ k < 2 ^ (32 - k) := by
    rw [Nat.div_lt_iff_lt_mul hpos, ← hsplit]
    exact v.toNat_lt
  have hmul : (v.toNat / 2 ^ k + 1) * 2 ^ k ≤ 2 ^ (32 - k) * 2 ^ k := Nat.mul_le_mul_right _ hquot
  rw [Nat.succ_mul, ← hsplit] at hmul
  have hlt : 2 ^ k - 1 < 2 ^ k := Nat.sub_lt hpos Nat.one_pos
  exact (Nat.add_lt_add_left hlt _).trans_le hmul

theorem expand_eq (base : UInt32) {p : Nat} (h16 : 16 ≤ p) (h32 : p ≤ 32) :
    expand base p =
      (if 31 ≤ p then List.range' (start base (32 - p)) (2 ^ (32 - p))
        else List.range' (start base (32 - p) + 1) (2 ^ (32 - p) - 2)).map word := by
  obtain ⟨k, hk⟩ : ∃ k, 32 - p = k := ⟨_, rfl⟩
  have hp : ¬p = 0 := by omega
  rw [hk, expand, hk, if_neg hp]
  have hpos := Nat.two_pow_pos k
  have hlast := start_add_lt base (k := k) (by omega)
  have hnetwork : (base &&& (0xffffffff : UInt32) <<< UInt32.ofNat k).toNat = start base k := by
    rw [UInt32.toNat_and, toNat_mask (by omega), BitField.and_ones (by omega) base.toNat_lt, start]
  have hbroadcast : (base &&& (0xffffffff : UInt32) <<< UInt32.ofNat k |||
      ~~~((0xffffffff : UInt32) <<< UInt32.ofNat k)).toNat = start base k + (2 ^ k - 1) := by
    rw [UInt32.toNat_or, hnetwork, toNat_not_mask (by omega), start, BitField.or_ones]
  by_cases h31 : 31 ≤ p
  · rw [if_pos h31, if_pos h31, through_eq (by omega), hnetwork, hbroadcast]
    congr 2
    omega
  · have hfour : 4 ≤ 2 ^ k := Nat.pow_le_pow_right Nat.two_pos (show 2 ≤ k by omega)
    have hbelow : (base &&& (0xffffffff : UInt32) <<< UInt32.ofNat k).toNat <
        (word (start base k + (2 ^ k - 1))).toNat := by
      rw [hnetwork, toNat_word hlast]
      omega
    have hnext := toNat_succ hbelow
    rw [if_neg h31, if_neg h31, below_eq, hnext, hnetwork, hbroadcast]
    congr 2
    omega

-- The addresses of the block of v, less its first and last where it has more than two.
def Usable (v : UInt32) (p : Nat) (u : UInt32) : Prop :=
  u.toNat / 2 ^ (32 - p) = v.toNat / 2 ^ (32 - p) ∧
    (p < 31 → u.toNat % 2 ^ (32 - p) ≠ 0 ∧ u.toNat % 2 ^ (32 - p) ≠ 2 ^ (32 - p) - 1)

structure Expands (v : UInt32) (p : Nat) (addresses : List UInt32) : Prop where
  ascending : addresses.Pairwise (· < ·)
  exact : ∀ u, u ∈ addresses ↔ Usable v p u

theorem sorted_words {a n : Nat} (h : a + n ≤ 2 ^ 32) :
    ((List.range' a n).map word).Pairwise (· < ·) := by
  rw [List.pairwise_map]
  refine List.Pairwise.imp_of_mem ?_ List.pairwise_lt_range'
  intro i j hi hj hij
  have hi' := List.mem_range'_1.mp hi
  have hj' := List.mem_range'_1.mp hj
  rw [UInt32.lt_iff_toNat_lt, toNat_word (by omega), toNat_word (by omega)]
  exact hij

theorem mem_words {a n : Nat} (h : a + n ≤ 2 ^ 32) (u : UInt32) :
    u ∈ (List.range' a n).map word ↔ a ≤ u.toNat ∧ u.toNat < a + n := by
  rw [List.mem_map]
  constructor
  · rintro ⟨i, hi, rfl⟩
    have hi' := List.mem_range'_1.mp hi
    rwa [toNat_word (by omega)]
  · intro hu
    exact ⟨u.toNat, List.mem_range'_1.mpr hu, word_toNat u⟩

theorem same_block_iff {u v : UInt32} {k : Nat} :
    u.toNat / 2 ^ k = v.toNat / 2 ^ k ↔ start v k ≤ u.toNat ∧ u.toNat < start v k + 2 ^ k := by
  rw [Nat.div_eq_iff (Nat.two_pow_pos k), start]
  have := Nat.two_pow_pos k
  omega

theorem expand_exact (v : UInt32) {p : Nat} (h16 : 16 ≤ p) (h32 : p ≤ 32) :
    Expands v p (expand v p) := by
  have hpos := Nat.two_pow_pos (32 - p)
  have hlast := start_add_lt v (k := 32 - p) (by omega)
  rw [expand_eq v h16 h32]
  by_cases h31 : 31 ≤ p
  · rw [if_pos h31]
    refine ⟨sorted_words (by omega), fun u => ?_⟩
    rw [mem_words (by omega), Usable, same_block_iff]
    exact ⟨fun h => ⟨h, fun hlt => absurd h31 (by omega)⟩, And.left⟩
  · rw [if_neg h31]
    have hfour : 4 ≤ 2 ^ (32 - p) := Nat.pow_le_pow_right Nat.two_pos (show 2 ≤ 32 - p by omega)
    refine ⟨sorted_words (by omega), fun u => ?_⟩
    rw [mem_words (by omega), Usable, same_block_iff]
    have hsplit := Nat.div_add_mod u.toNat (2 ^ (32 - p))
    have hlt := Nat.mod_lt u.toNat hpos
    rw [Nat.mul_comm] at hsplit
    constructor
    · intro hu
      have hblock : u.toNat / 2 ^ (32 - p) = v.toNat / 2 ^ (32 - p) :=
        same_block_iff.mpr ⟨by omega, by omega⟩
      rw [hblock, ← start] at hsplit
      exact ⟨⟨by omega, by omega⟩, fun _ => ⟨by omega, by omega⟩⟩
    · rintro ⟨hu, hinner⟩
      obtain ⟨hfirst, hend⟩ := hinner (by omega)
      rw [same_block_iff.mpr hu, ← start] at hsplit
      exact ⟨by omega, by omega⟩

theorem digits_plus (cs : QString) : digits ('+' :: cs) = none := by
  refine Option.eq_none_iff_forall_ne_some.mpr fun k hk => ?_
  exact absurd (digit_of_digits hk '+' List.mem_cons_self) (by decide)

theorem toUInt_number {n : Nat} (h : n < 2 ^ 32) : toUInt (number n) = some n := by
  have htrim : trimmed (number n) = number n := trimmed_number n
  rw [toUInt, htrim]
  split
  · rename_i cs hcs
    have hplus := digits_plus cs
    rw [← hcs, digits_number] at hplus
    cases hplus
  · rw [digits_number, Option.filter_some, if_pos (by simpa using h)]

theorem parseOctet_octet {v b : UInt32} (hb : b.toNat < 256) :
    parseOctet v (octet b) = some (v <<< 8 ||| b) := by
  rw [parseOctet, octet, toUInt_number b.toNat_lt]
  dsimp only
  rw [if_neg (not_or.mpr ⟨by omega, number_ne_nil _⟩), UInt32.ofNat_toNat]

theorem toNat_octet (v : UInt32) {s : UInt32} {k : Nat} (hs : s.toNat = k) (hk : k < 32) :
    (v >>> s &&& 0xff).toNat = v.toNat / 2 ^ k % 256 := by
  have hones : (0xff : UInt32).toNat = 2 ^ 8 - 1 := rfl
  rw [UInt32.toNat_and, hones, Nat.and_two_pow_sub_one_eq_mod, UInt32.toNat_shiftRight, hs,
    Nat.mod_eq_of_lt hk, Nat.shiftRight_eq_div_pow]

theorem toNat_push {v b : UInt32} (hv : v.toNat < 2 ^ 24) (hb : b.toNat < 256) :
    (v <<< 8 ||| b).toNat = v.toNat * 256 + b.toNat := by
  have height : (8 : UInt32).toNat % 32 = 8 := rfl
  have hlt : v.toNat * 2 ^ 8 < 2 ^ 32 := by omega
  rw [UInt32.toNat_or, UInt32.toNat_shiftLeft, height, Nat.shiftLeft_eq, Nat.mod_eq_of_lt hlt,
    Nat.mul_comm, ← Nat.two_pow_add_eq_or_of_lt hb, Nat.mul_comm]

theorem splitOn_format (v : UInt32) :
    (formatIpv4 v).splitOn '.' = [octet (v >>> 24 &&& 0xff), octet (v >>> 16 &&& 0xff),
      octet (v >>> 8 &&& 0xff), octet (v &&& 0xff)] := by
  have hnone (b : UInt32) : '.' ∉ octet b := fun h =>
    absurd (isDigit_of_mem_number h) (by decide)
  rw [formatIpv4, List.splitOn_append_cons_self_of_not_mem (hnone _),
    List.splitOn_append_cons_self_of_not_mem (hnone _),
    List.splitOn_append_cons_self_of_not_mem (hnone _), List.splitOn_eq_singleton (hnone _)]

theorem foldlM_octets {a b c d : UInt32} (ha : a.toNat < 256) (hb : b.toNat < 256)
    (hc : c.toNat < 256) (hd : d.toNat < 256) :
    ∃ w, [octet a, octet b, octet c, octet d].foldlM parseOctet 0 = some w ∧
      w.toNat = ((a.toNat * 256 + b.toNat) * 256 + c.toNat) * 256 + d.toNat := by
  have hzero : (0 : UInt32).toNat = 0 := rfl
  have h1 := toNat_push (v := 0) (by rw [hzero]; decide) ha
  rw [hzero, Nat.zero_mul, Nat.zero_add] at h1
  have h2 := toNat_push (v := (0 : UInt32) <<< 8 ||| a) (by omega) hb
  have h3 := toNat_push (v := ((0 : UInt32) <<< 8 ||| a) <<< 8 ||| b) (by omega) hc
  have h4 := toNat_push (v := (((0 : UInt32) <<< 8 ||| a) <<< 8 ||| b) <<< 8 ||| c) (by omega) hd
  rw [h3, h2, h1] at h4
  refine ⟨_, ?_, h4⟩
  rw [List.foldlM_cons, parseOctet_octet ha, Option.bind_eq_bind, Option.bind_some,
    List.foldlM_cons, parseOctet_octet hb, Option.bind_eq_bind, Option.bind_some,
    List.foldlM_cons, parseOctet_octet hc, Option.bind_eq_bind, Option.bind_some,
    List.foldlM_cons, parseOctet_octet hd, Option.bind_eq_bind, Option.bind_some]
  rfl

theorem parseIpv4_formatIpv4 (v : UInt32) : parseIpv4 (formatIpv4 v) = some v := by
  have hv := v.toNat_lt
  have h3 := toNat_octet v (s := 24) (k := 24) rfl (by decide)
  have h2 := toNat_octet v (s := 16) (k := 16) rfl (by decide)
  have h1 := toNat_octet v (s := 8) (k := 8) rfl (by decide)
  have h0 : (v &&& 0xff).toNat = v.toNat % 256 := by
    have hones : (0xff : UInt32).toNat = 2 ^ 8 - 1 := rfl
    rw [UInt32.toNat_and, hones, Nat.and_two_pow_sub_one_eq_mod]
  obtain ⟨w, hparse, hw⟩ := foldlM_octets (a := v >>> 24 &&& 0xff) (b := v >>> 16 &&& 0xff)
    (c := v >>> 8 &&& 0xff) (d := v &&& 0xff) (by omega) (by omega) (by omega) (by omega)
  rw [h3, h2, h1, h0] at hw
  have hsame : w = v := UInt32.toNat_inj.mp (by omega)
  rw [parseIpv4, splitOn_format, if_neg (by simp), hparse, hsame]

theorem mem_part {sep c : Char} {s : QString} (hc : c ∈ s) (hne : c ≠ sep) :
    ∃ part ∈ s.splitOn sep, c ∈ part := by
  induction s with
  | nil => exact absurd hc List.not_mem_nil
  | cons d s ih =>
    rw [List.splitOn_cons_eq_if_modifyHead]
    split
    · rename_i hd
      have hdc : c ≠ d := by
        rintro rfl
        exact hne (beq_iff_eq.mp hd)
      obtain ⟨part, hpart, hmem⟩ := ih ((List.mem_cons.mp hc).resolve_left hdc)
      exact ⟨part, List.mem_cons_of_mem _ hpart, hmem⟩
    · obtain ⟨t, ts, ht⟩ := List.exists_cons_of_ne_nil (List.splitOn_ne_nil sep s)
      rw [ht] at ih ⊢
      rcases List.mem_cons.mp hc with rfl | hc
      · exact ⟨c :: t, List.mem_cons_self, List.mem_cons_self⟩
      · obtain ⟨part, hpart, hmem⟩ := ih hc
        rcases List.mem_cons.mp hpart with rfl | hpart
        · exact ⟨d :: part, List.mem_cons_self, List.mem_cons_of_mem _ hmem⟩
        · exact ⟨part, List.mem_cons_of_mem _ hpart, hmem⟩

theorem char_of_toUInt {p : QString} {n : Nat} (h : toUInt p = some n) :
    ∀ c ∈ trimmed p, ('0' ≤ c ∧ c ≤ '9') ∨ c = '+' := by
  rw [toUInt] at h
  split at h
  · rename_i cs hcs
    rw [hcs]
    obtain ⟨hdigits, -⟩ := Option.filter_eq_some_iff.mp h
    exact List.forall_mem_cons.mpr ⟨.inr rfl, fun c hc => .inl (digit_of_digits hdigits c hc)⟩
  · obtain ⟨hdigits, -⟩ := Option.filter_eq_some_iff.mp h
    exact fun c hc => .inl (digit_of_digits hdigits c hc)

theorem toUInt_of_foldlM {parts : List QString} {v w : UInt32}
    (h : parts.foldlM parseOctet v = some w) : ∀ p ∈ parts, ∃ n, toUInt p = some n := by
  induction parts generalizing v with
  | nil => exact nofun
  | cons p parts ih =>
    rw [List.foldlM_cons] at h
    obtain ⟨x, hx, h⟩ := Option.bind_eq_some_iff.mp h
    rw [parseOctet] at hx
    split at hx
    · cases hx
    · rename_i n hn
      exact List.forall_mem_cons.mpr ⟨⟨n, hn⟩, ih h⟩

theorem slash_not_mem {s : QString} {v : UInt32} (h : parseIpv4 s = some v) : '/' ∉ s := by
  intro hmem
  obtain ⟨part, hpart, hslash⟩ := mem_part hmem (show '/' ≠ '.' by decide)
  rw [parseIpv4] at h
  split at h
  · cases h
  · obtain ⟨n, hn⟩ := toUInt_of_foldlM h part hpart
    have hchar := char_of_toUInt hn '/' (mem_trimmed (by decide) hslash)
    exact absurd hchar (by decide)

structure Exact (s : QString) (v : UInt32) (p : Nat) : Prop where
  hosts : ∃ addresses, hosts (s ++ '/' :: number p) = addresses.map formatIpv4 ∧
    Expands v p addresses
  format : ∀ w, parseIpv4 (formatIpv4 w) = some w

theorem hosts_exact {s : QString} {v : UInt32} {p : Nat} (hs : parseIpv4 s = some v)
    (h16 : 16 ≤ p) (h32 : p ≤ 32) : Exact s v p := by
  refine ⟨⟨expand v p, ?_, expand_exact v h16 h32⟩, parseIpv4_formatIpv4⟩
  have hcut : cutAt '/' (s ++ '/' :: number p) = some (s, number p) :=
    cutAt_eq_some.mpr ⟨slash_not_mem hs, rfl⟩
  have hlen : toInt (number p) = some (p : Int) := toInt_number (by omega)
  rw [Subnet.hosts, hcut]
  dsimp only
  rw [hs]
  dsimp only
  rw [hlen]
  dsimp only
  rw [if_neg (by omega), Int.toNat_natCast]

theorem hosts_exact_top : Exact "255.255.255.250".toList 4294967290 29 := by
  have hs : parseIpv4 "255.255.255.250".toList = some 4294967290 := by decide
  exact hosts_exact hs (by decide) (by decide)

end Tools.Subnet
