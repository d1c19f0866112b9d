import Mathlib.Data.List.Induction
import MacXterm.Qt.Trim

namespace Qt

def decimal (s : QString) : Option Int :=
  match trimmed s with
  | '-' :: cs => (digits cs).map fun n => -(n : Int)
  | '+' :: cs => (digits cs).map fun n => (n : Int)
  | cs => (digits cs).map fun n => (n : Int)

theorem toInt_eq (s : QString) :
    toInt s = (decimal s).filter fun i => -2 ^ 31 ≤ i && i < 2 ^ 31 := rfl

def toLongLong (s : QString) : Option Int :=
  (decimal s).filter fun i => -2 ^ 63 ≤ i && i < 2 ^ 63

-- QVariant::toInt reads a text as a long long, and the overflow is not reflected in ok.
def variantToInt (s : QString) : Option Int := (toLongLong s).map fun i => i.bmod (2 ^ 32)

theorem toInt_bounds {s : QString} {i : Int} (h : toInt s = some i) : -2 ^ 31 ≤ i ∧ i < 2 ^ 31 := by
  rw [toInt_eq, Option.filter_eq_some_iff] at h
  simpa using h.2

theorem variantToInt_of_toInt {s : QString} {i : Int} (h : toInt s = some i) :
    variantToInt s = some i := by
  have hbounds := toInt_bounds h
  rw [toInt_eq, Option.filter_eq_some_iff] at h
  have hlong : toLongLong s = some i := by
    rw [toLongLong, Option.filter_eq_some_iff]
    refine ⟨h.1, ?_⟩
    simp only [Bool.and_eq_true, decide_eq_true_eq]
    omega
  rw [variantToInt, hlong, Option.map_some, Int.bmod_eq_of_le_mul_two (by omega) (by omega)]

theorem digits_fold (cs : QString) (n : Nat) (h : ∀ c ∈ cs, c.isDigit = true) :
    cs.foldl (fun acc c =>
      if '0' ≤ c ∧ c ≤ '9' then acc.map (fun n => n * 10 + (c.toNat - '0'.toNat)) else none)
      (some n) = some (Nat.ofDigitChars 10 cs n) := by
  induction cs generalizing n with
  | nil => rfl
  | cons c cs ih =>
    have hc := h c List.mem_cons_self
    have hdigit : '0' ≤ c ∧ c ≤ '9' := by
      simpa [Char.isDigit, Char.le_def] using hc
    rw [List.foldl_cons, if_pos hdigit, Option.map_some,
      ih _ fun d hd => h d (List.mem_cons_of_mem _ hd), Nat.ofDigitChars_cons, Nat.mul_comm n 10]

theorem digits_fold_none (cs : QString) :
    cs.foldl (fun acc c =>
      if '0' ≤ c ∧ c ≤ '9' then acc.map (fun n => n * 10 + (c.toNat - '0'.toNat)) else none)
      (none : Option Nat) = none := by
  induction cs with
  | nil => rfl
  | cons c cs ih =>
    rw [List.foldl_cons]
    split
    · exact ih
    · exact ih

theorem digit_of_fold {cs : QString} {acc : Option Nat} {n : Nat}
    (h : cs.foldl (fun acc c =>
      if '0' ≤ c ∧ c ≤ '9' then acc.map (fun n => n * 10 + (c.toNat - '0'.toNat)) else none)
      acc = some n) : ∀ c ∈ cs, '0' ≤ c ∧ c ≤ '9' := by
  induction cs generalizing acc with
  | nil => exact nofun
  | cons c cs ih =>
    rw [List.foldl_cons] at h
    by_cases hc : '0' ≤ c ∧ c ≤ '9'
    · rw [if_pos hc] at h
      exact List.forall_mem_cons.mpr ⟨hc, ih h⟩
    · rw [if_neg hc, digits_fold_none] at h
      cases h

theorem digit_of_digits {cs : QString} {n : Nat} (h : digits cs = some n) :
    ∀ c ∈ cs, '0' ≤ c ∧ c ≤ '9' := by
  cases cs with
  | nil => exact nofun
  | cons c cs => exact digit_of_fold h

theorem mem_trimmed {s : QString} {c : Char} (hc : isSpace c = false) (h : c ∈ s) :
    c ∈ trimmed s := by
  have hkeep {t : QString} (ht : c ∈ t) : c ∈ t.dropWhile isSpace := by
    rw [← List.takeWhile_append_dropWhile (p := isSpace) (l := t)] at ht
    rcases List.mem_append.mp ht with ht | ht
    · rw [List.mem_takeWhile_imp ht] at hc
      cases hc
    · exact ht
  exact List.mem_reverse.mpr (hkeep (List.mem_reverse.mpr (hkeep h)))

theorem char_of_toInt {s : QString} {n : Int} (h : toInt s = some n) :
    ∀ c ∈ trimmed s, ('0' ≤ c ∧ c ≤ '9') ∨ c = '-' ∨ c = '+' := by
  have hdecimal : decimal s = some n := by
    rw [toInt_eq, Option.filter_eq_some_iff] at h
    exact h.1
  have hdigit {cs : QString} {f : Int → Int}
      (h : ((digits cs).bind fun m => some (m : Int)).map f = some n) :
      ∀ c ∈ cs, '0' ≤ c ∧ c ≤ '9' := by
    obtain ⟨i, hi, -⟩ := Option.map_eq_some_iff.mp h
    obtain ⟨m, hm, -⟩ := Option.bind_eq_some_iff.mp hi
    exact digit_of_digits hm
  unfold decimal at hdecimal
  split at hdecimal
  · rename_i cs hcs
    rw [hcs]
    exact List.forall_mem_cons.mpr ⟨.inr (.inl rfl), fun c hc => .inl (hdigit hdecimal c hc)⟩
  · rename_i cs hcs
    rw [hcs]
    exact List.forall_mem_cons.mpr ⟨.inr (.inr rfl), fun c hc => .inl (hdigit hdecimal c hc)⟩
  · intro c hc
    exact .inl (hdigit hdecimal c hc)

theorem isDigit_iff {c : Char} : c.isDigit = true ↔ 48 ≤ c.toNat ∧ c.toNat ≤ 57 := by
  simp only [Char.isDigit, ge_iff_le, Bool.and_eq_true, decide_eq_true_eq,
    UInt32.le_iff_toNat_le]
  rfl

theorem not_space_of_isDigit {c : Char} (h : c.isDigit = true) : isSpace c = false := by
  have hrange := isDigit_iff.mp h
  simp only [isSpace, Bool.or_eq_false_iff, Bool.and_eq_false_iff, beq_eq_false_iff_ne,
    decide_eq_false_iff_not]
  omega

theorem trimmed_of_no_space {s : QString} (h : ∀ c ∈ s, isSpace c = false) : trimmed s = s :=
  trimmed_flush ⟨fun c hc => h c (List.mem_of_head? hc), fun c hc => h c (List.mem_of_getLast? hc)⟩

theorem number_natCast (n : Nat) : number n = Nat.toDigits 10 n := Nat.toList_repr

theorem digits_eq {cs : QString} (h : ∀ c ∈ cs, c.isDigit = true) (hne : cs ≠ []) :
    digits cs = some (Nat.ofDigitChars 10 cs 0) := by
  rw [← digits_fold cs 0 h]
  cases cs with
  | nil => exact absurd rfl hne
  | cons c cs => rfl

theorem decimal_eq {cs : QString} (h : ∀ c ∈ cs, c.isDigit = true) (hne : cs ≠ []) :
    decimal cs = some (Nat.ofDigitChars 10 cs 0 : Int) := by
  rw [decimal, trimmed_of_no_space fun c hc => not_space_of_isDigit (h c hc)]
  split
  · rename_i cs
    exact absurd (h '-' List.mem_cons_self) (by decide)
  · rename_i cs
    exact absurd (h '+' List.mem_cons_self) (by decide)
  · rw [digits_eq h hne]
    rfl

theorem decimal_number (n : Nat) : decimal (number n) = some (n : Int) := by
  have hdigit (c : Char) (hc : c ∈ Nat.toDigits 10 n) : c.isDigit = true :=
    Nat.isDigit_of_mem_toDigits (by decide) (by decide) hc
  rw [number_natCast, decimal_eq hdigit Nat.toDigits_ne_nil, Nat.ofDigitChars_ten_toDigits]

theorem isDigit_of_mem_number {n : Nat} {c : Char} (h : c ∈ number n) : c.isDigit = true := by
  rw [number_natCast] at h
  exact Nat.isDigit_of_mem_toDigits (by decide) (by decide) h

theorem number_ne_nil (n : Nat) : number n ≠ [] := by
  rw [number_natCast]
  exact Nat.toDigits_ne_nil

theorem digits_number (n : Nat) : digits (number n) = some n := by
  rw [digits_eq (fun _ => isDigit_of_mem_number) (number_ne_nil n), number_natCast,
    Nat.ofDigitChars_ten_toDigits]

theorem toULongLong_number {n : Nat} (h : n < 2 ^ 64) : toULongLong (number n) = n.toUInt64 := by
  have hdigit (c : Char) (hc : c ∈ number n) : c.isDigit = true := isDigit_of_mem_number hc
  rw [toULongLong, trimmed_of_no_space fun c hc => not_space_of_isDigit (hdigit c hc)]
  split
  · rename_i cs hcs
    exact absurd (hdigit '+' (hcs ▸ List.mem_cons_self)) (by decide)
  · rw [digits_number, Option.filter_some, if_pos (by simpa using h), Option.getD_some]

theorem toInt_number {n : Nat} (h : n < 2 ^ 31) : toInt (number n) = some (n : Int) := by
  rw [toInt_eq, decimal_number]
  simp only [Option.filter_some, Bool.and_eq_true, decide_eq_true_eq]
  rw [if_pos (by omega)]

theorem digitChar_of_isDigit {c : Char} (h : c.isDigit = true) :
    Nat.digitChar (c.toNat - '0'.toNat) = c := by
  have hrange := isDigit_iff.mp h
  have hzero : '0'.toNat = 48 := rfl
  apply Char.toNat_inj.mp
  rw [Nat.toNat_digitChar_of_lt_ten (by omega)]
  omega

theorem digit_lt_ten {c : Char} (h : c.isDigit = true) : c.toNat - '0'.toNat < 10 := by
  have hdigit : (Nat.digitChar (c.toNat - '0'.toNat)).isDigit = true := by
    rw [digitChar_of_isDigit h, h]
  simpa [Nat.isDigit_digitChar] using hdigit

theorem toDigits_ofDigitChars {cs : QString} (h : ∀ c ∈ cs, c.isDigit = true) (hne : cs ≠ []) :
    List.replicate (cs.length - (Nat.toDigits 10 (Nat.ofDigitChars 10 cs 0)).length) '0' ++
      Nat.toDigits 10 (Nat.ofDigitChars 10 cs 0) = cs := by
  induction cs using List.reverseRecOn with
  | nil => exact absurd rfl hne
  | append_singleton cs c ih =>
    have hc := h c (by simp)
    have hchar := digitChar_of_isDigit hc
    have hd := digit_lt_ten hc
    have hprefix := ih fun d hd => h d (by simp [hd])
    rw [Nat.ofDigitChars_append, Nat.ofDigitChars_cons, Nat.ofDigitChars_nil, List.length_append,
      List.length_singleton]
    have hnil : cs = [] → Nat.ofDigitChars 10 cs 0 = 0 := by
      rintro rfl
      rfl
    generalize Nat.ofDigitChars 10 cs 0 = m at hprefix hnil
    by_cases hm : m = 0
    · rw [hm, Nat.mul_zero, Nat.zero_add, Nat.toDigits_of_lt_base hd, hchar,
        List.length_singleton, Nat.add_sub_cancel]
      have hzeros : List.replicate cs.length '0' = cs := by
        by_cases hcs : cs = []
        · rw [hcs]
          rfl
        · have hprefix := hprefix hcs
          rw [hm, Nat.toDigits_zero, List.length_singleton, ← List.replicate_succ'] at hprefix
          have hpos := List.length_pos_of_ne_nil hcs
          rwa [Nat.sub_add_cancel hpos] at hprefix
      rw [hzeros]
    · rw [← Nat.toDigits_append_toDigits (by decide) (Nat.pos_of_ne_zero hm) hd,
        Nat.toDigits_of_lt_base hd, hchar, List.length_append, List.length_singleton,
        Nat.add_sub_add_right, ← List.append_assoc,
        hprefix fun hcs => hm (hnil hcs)]

theorem ofDigitChars_lt {cs : QString} (h : ∀ c ∈ cs, c.isDigit = true) :
    Nat.ofDigitChars 10 cs 0 < 10 ^ cs.length := by
  induction cs using List.reverseRecOn with
  | nil => decide
  | append_singleton cs c ih =>
    have hbound := ih fun d hd => h d (by simp [hd])
    have hd := digit_lt_ten (h c (by simp))
    rw [Nat.ofDigitChars_append, Nat.ofDigitChars_cons, Nat.ofDigitChars_nil, List.length_append,
      List.length_singleton, Nat.pow_succ]
    omega

theorem toInt_nil : toInt [] = none := by decide

theorem variantToInt_nil : variantToInt [] = none := by decide

theorem toInt_number_int {n : Int} (h0 : 0 ≤ n) (hn : n < 2 ^ 31) : toInt (number n) = some n := by
  obtain ⟨m, rfl⟩ := Int.eq_ofNat_of_zero_le h0
  exact toInt_number (by omega)

section Negative

variable {n : Nat} {i : Int} {c : Char}

theorem number_neg (h : 0 < n) : number (-(n : Int)) = '-' :: number n := by
  have hneg : ¬0 ≤ -(n : Int) := by omega
  rw [number, Int.toString_eq_repr, Int.repr_eq_if, if_neg hneg, Int.neg_neg, Int.toNat_natCast,
    String.toList_append, Nat.toList_repr, number_natCast]
  rfl

theorem mem_number (h : c ∈ number i) : c = '-' ∨ c.isDigit = true := by
  by_cases hneg : i < 0
  · obtain ⟨n, rfl⟩ := Int.exists_eq_neg_ofNat (Int.le_of_lt hneg)
    rw [number_neg (by omega), List.mem_cons] at h
    exact h.imp id isDigit_of_mem_number
  · obtain ⟨n, rfl⟩ := Int.eq_ofNat_of_zero_le (Int.not_lt.mp hneg)
    exact .inr (isDigit_of_mem_number h)

theorem number_ne_nil_int (i : Int) : number i ≠ [] := by
  by_cases h : i < 0
  · obtain ⟨m, rfl⟩ := Int.exists_eq_neg_ofNat (Int.le_of_lt h)
    rw [number_neg (by omega)]
    exact List.cons_ne_nil _ _
  · obtain ⟨m, rfl⟩ := Int.eq_ofNat_of_zero_le (Int.not_lt.mp h)
    exact number_ne_nil m

theorem number_inj {i j : Int} : number i = number j ↔ i = j := ⟨number_injective, congrArg number⟩

theorem trimmed_number (i : Int) : trimmed (number i) = number i := by
  refine trimmed_of_no_space fun c hc => ?_
  rcases mem_number hc with rfl | hdigit
  · rfl
  · exact not_space_of_isDigit hdigit

theorem toInt_number_neg (h : 0 < n) (hn : n ≤ 2 ^ 31) :
    toInt (number (-(n : Int))) = some (-(n : Int)) := by
  have hdecimal : decimal (number (-(n : Int))) = some (-(n : Int)) := by
    rw [decimal, trimmed_number, number_neg h]
    simp only [digits_number]
    rfl
  rw [toInt_eq, hdecimal]
  simp only [Option.filter_some, Bool.and_eq_true, decide_eq_true_eq]
  rw [if_pos (by omega)]

end Negative

theorem getD_toInt_lt (t : QString) : (toInt t).getD 0 < 2 ^ 31 := by
  cases h : toInt t with
  | none => decide
  | some n => exact (toInt_bounds h).2

theorem digitChar_le {a b : Nat} (h : a ≤ b) (hb : b < 10) : a.digitChar ≤ b.digitChar := by
  have hlow := Nat.toNat_digitChar_of_lt_ten (Nat.lt_of_le_of_lt h hb)
  have hhigh := Nat.toNat_digitChar_of_lt_ten hb
  simp only [Char.toNat] at hlow hhigh
  simp only [Char.le_def, UInt32.le_iff_toNat_le]
  omega

theorem number_three {n : Nat} (hlow : 100 ≤ n) (hhigh : n < 1000) :
    number n = [(n / 100).digitChar, (n / 10 % 10).digitChar, (n % 10).digitChar] := by
  have hdiv : n / 10 / 10 = n / 100 := Nat.div_div_eq_div_mul n 10 10
  rw [number_natCast, Nat.toDigits_of_base_le (by decide) (by omega),
    Nat.toDigits_of_base_le (by decide) (by omega), hdiv, Nat.toDigits_of_lt_base (by omega)]
  rfl

def numbered (sep : Char) (ns : List Nat) : QString :=
  [sep].intercalate (ns.map fun n : Nat => number n)

theorem mem_numbered {sep : Char} {ns : List Nat} {c : Char} (h : c ∈ numbered sep ns) :
    c = sep ∨ c.isDigit = true := by
  rw [numbered] at h
  induction ns with
  | nil => cases h
  | cons n ns ih =>
    cases ns with
    | nil =>
      rw [List.map_cons, List.map_nil, List.intercalate_singleton] at h
      exact .inr (isDigit_of_mem_number h)
    | cons m ns =>
      rw [List.map_cons, List.map_cons, List.intercalate_cons_cons] at h
      rcases List.mem_append.mp h with h | h
      · rcases List.mem_append.mp h with h | h
        · exact .inr (isDigit_of_mem_number h)
        · exact .inl (List.mem_singleton.mp h)
      · exact ih h

theorem splitOn_numbered {sep : Char} (h : sep.isDigit = false) {ns : List Nat} (hne : ns ≠ []) :
    (numbered sep ns).splitOn sep = ns.map fun n : Nat => number n := by
  refine List.splitOn_intercalate sep (fun l hl => ?_) (mt List.map_eq_nil_iff.mp hne)
  obtain ⟨n, -, rfl⟩ := List.mem_map.mp hl
  intro hmem
  rw [isDigit_of_mem_number hmem] at h
  cases h

theorem numbered_concat {sep : Char} {ns : List Nat} (hne : ns ≠ []) (n : Nat) :
    numbered sep (ns ++ [n]) = numbered sep ns ++ sep :: number n := by
  induction ns with
  | nil => exact absurd rfl hne
  | cons m ns ih =>
    cases ns with
    | nil =>
      simp only [numbered, List.cons_append, List.nil_append, List.map_cons, List.map_nil,
        List.intercalate_cons_cons, List.intercalate_singleton]
      rw [List.append_assoc]
      rfl
    | cons k ns =>
      have hrest := ih (List.cons_ne_nil k ns)
      simp only [numbered, List.cons_append, List.map_cons, List.intercalate_cons_cons] at hrest ⊢
      rw [hrest, List.append_assoc, List.append_assoc, List.append_assoc]

end Qt
