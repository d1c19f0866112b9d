import Mathlib.Algebra.Group.Int.Defs
import Mathlib.Algebra.Group.Nat.Defs
import Mathlib.Data.List.Basic
import Mathlib.Data.List.Lex
import Std.Data.String.ToInt

namespace Qt

abbrev QByteArray := List UInt8

abbrev QString := List Char

instance : Coe String QString := ⟨String.toList⟩

instance lawfulBEq_qString : LawfulBEq QString := inferInstance

def toUtf8 (s : QString) : QByteArray := s.flatMap String.utf8EncodeChar

def decodeChar (b : QByteArray) : Option (Char × QByteArray) :=
  (b.toByteArray.utf8DecodeChar? 0).map fun c => (c, b.drop c.utf8Size)

def decodeLoop : Nat → QByteArray → QString
  | 0, _ => []
  | _, [] => []
  | n + 1, b :: bs =>
      match decodeChar (b :: bs) with
      | some (c, rest) => c :: decodeLoop n rest
      | none => '\uFFFD' :: decodeLoop n bs

-- QUtf8::convertToUnicode steps over one leading byte order mark.
def stripBom : QByteArray → QByteArray
  | 0xEF :: 0xBB :: 0xBF :: rest => rest
  | b => b

def fromUtf8 (b : QByteArray) : QString := decodeLoop b.length (stripBom b)

def dropBom : QString → QString
  | '\uFEFF' :: s => s
  | s => s

theorem dropBom_eq_iff (s : QString) : dropBom s = s ↔ s.head? ≠ some '\uFEFF' := by
  unfold dropBom
  split
  · rename_i rest
    simp only [List.head?_cons, ne_eq, not_true_eq_false, iff_false]
    exact fun h => absurd (congrArg List.length h) (by simp)
  · rename_i hstart
    refine iff_of_true rfl fun hhead => ?_
    obtain ⟨rest, rfl⟩ := List.head?_eq_some_iff.mp hhead
    exact hstart rest rfl

theorem dropBom_cons {c : Char} {s : QString} (h : c ≠ '\uFEFF') : dropBom (c :: s) = c :: s :=
  (dropBom_eq_iff _).mpr fun hc => h (Option.some.inj hc)

theorem toUtf8_cons (c : Char) (s : QString) :
    toUtf8 (c :: s) = String.utf8EncodeChar c ++ toUtf8 s := List.flatMap_cons

theorem toUtf8_eq_nil {s : QString} : toUtf8 s = [] ↔ s = [] := by
  cases s with
  | nil => exact iff_of_true rfl rfl
  | cons c s =>
    have hne : String.utf8EncodeChar c ≠ [] := by
      intro h
      have hlen := congrArg List.length h
      rw [String.length_utf8EncodeChar, List.length_nil] at hlen
      exact absurd hlen (Nat.ne_of_gt (Char.utf8Size_pos c))
    rw [toUtf8_cons, List.append_eq_nil_iff]
    exact iff_of_false (fun h => hne h.1) nofun

theorem toUtf8_append (s t : QString) : toUtf8 (s ++ t) = toUtf8 s ++ toUtf8 t :=
  List.flatMap_append

theorem encode_ascii {c : Char} (h : c.toNat ≤ 0x7F) :
    String.utf8EncodeChar c = [UInt8.ofNat c.toNat] := if_pos h

theorem high_of_mem_encode {c : Char} (h : 0x7F < c.toNat) {b : UInt8}
    (hb : b ∈ String.utf8EncodeChar c) : 0x80 ≤ b.toNat := by
  have hbyte (x m k : Nat) (hm : 0 < m) (hk : 0x80 ≤ k) (hsum : m + k ≤ 256) :
      0x80 ≤ (UInt8.ofNat (x % m + k)).toNat := by
    have hlt := Nat.mod_lt x hm
    rw [UInt8.toNat_ofNat_of_lt' (show x % m + k < UInt8.size by
      change x % m + k < 256
      omega)]
    omega
  have hno : ¬ c.val.toNat ≤ 0x7F := Nat.not_le.mpr h
  unfold String.utf8EncodeChar at hb
  dsimp only at hb
  rw [if_neg hno] at hb
  split at hb
  · simp only [List.mem_cons, List.not_mem_nil, or_false] at hb
    rcases hb with rfl | rfl
    · exact hbyte _ 0x20 0xc0 (by decide) (by decide) (by decide)
    · exact hbyte _ 0x40 0x80 (by decide) (by decide) (by decide)
  · split at hb
    · simp only [List.mem_cons, List.not_mem_nil, or_false] at hb
      rcases hb with rfl | rfl | rfl
      · exact hbyte _ 0x10 0xe0 (by decide) (by decide) (by decide)
      · exact hbyte _ 0x40 0x80 (by decide) (by decide) (by decide)
      · exact hbyte _ 0x40 0x80 (by decide) (by decide) (by decide)
    · simp only [List.mem_cons, List.not_mem_nil, or_false] at hb
      rcases hb with rfl | rfl | rfl | rfl
      · exact hbyte _ 0x08 0xf0 (by decide) (by decide) (by decide)
      · exact hbyte _ 0x40 0x80 (by decide) (by decide) (by decide)
      · exact hbyte _ 0x40 0x80 (by decide) (by decide) (by decide)
      · exact hbyte _ 0x40 0x80 (by decide) (by decide) (by decide)

theorem mem_toUtf8_ascii {c : Char} (h : c.toNat ≤ 0x7F) {s : QString} :
    UInt8.ofNat c.toNat ∈ toUtf8 s ↔ c ∈ s := by
  have hvalue : (UInt8.ofNat c.toNat).toNat = c.toNat :=
    UInt8.toNat_ofNat_of_lt' (show c.toNat < 256 by omega)
  induction s with
  | nil => exact iff_of_false List.not_mem_nil List.not_mem_nil
  | cons d s ih =>
    rw [toUtf8_cons, List.mem_append, List.mem_cons]
    refine or_congr ?_ ih
    by_cases hd : d.toNat ≤ 0x7F
    · rw [encode_ascii hd, List.mem_singleton]
      constructor
      · intro he
        have hsame := congrArg UInt8.toNat he
        rw [hvalue, UInt8.toNat_ofNat_of_lt' (show d.toNat < 256 by omega)] at hsame
        exact Char.toNat_inj.mp hsame
      · rintro rfl
        rfl
    · refine iff_of_false (fun hmem => ?_) ?_
      · have hhigh := high_of_mem_encode (Nat.not_le.mp hd) hmem
        omega
      · rintro rfl
        exact hd h

theorem decodeChar_encode (c : Char) (rest : QByteArray) :
    decodeChar (String.utf8EncodeChar c ++ rest) = some (c, rest) := by
  have h : (String.utf8EncodeChar c ++ rest).toByteArray.utf8DecodeChar? 0 = some c := by
    rw [List.toByteArray_append]
    exact ByteArray.utf8DecodeChar?_utf8EncodeChar_append
  have hd : (String.utf8EncodeChar c ++ rest).drop c.utf8Size = rest := by
    rw [← String.length_utf8EncodeChar c]
    exact List.drop_left
  simp only [decodeChar, h, Option.map_some, hd]

theorem decodeLoop_toUtf8 (s : QString) (n : Nat) (hn : (toUtf8 s).length ≤ n) :
    decodeLoop n (toUtf8 s) = s := by
  induction s generalizing n with
  | nil => cases n <;> rfl
  | cons c s ih =>
    rw [toUtf8_cons] at hn ⊢
    obtain ⟨b, bs, hb⟩ := List.exists_cons_of_ne_nil (String.utf8EncodeChar_ne_nil (c := c))
    have hd := decodeChar_encode c (toUtf8 s)
    rw [hb] at hn hd ⊢
    simp only [List.cons_append, List.length_cons, List.length_append] at hn hd ⊢
    cases n with
    | zero => omega
    | succ n =>
      simp only [decodeLoop, hd]
      rw [ih n (by omega)]

theorem stripBom_toUtf8 (s : QString) : stripBom (toUtf8 s) = toUtf8 (dropBom s) := by
  have hbom : String.utf8EncodeChar '\uFEFF' = [0xEF, 0xBB, 0xBF] := by decide
  cases s with
  | nil => rfl
  | cons c s =>
    by_cases hc : c = '\uFEFF'
    · subst hc
      rw [toUtf8_cons, hbom]
      rfl
    · rw [dropBom_cons hc]
      unfold stripBom
      split
      · rename_i rest he
        have h1 := decodeChar_encode c (toUtf8 s)
        have h2 := decodeChar_encode '\uFEFF' rest
        rw [← toUtf8_cons, he] at h1
        rw [hbom] at h2
        simp only [List.cons_append, List.nil_append] at h2
        rw [h1] at h2
        simp only [Option.some.injEq, Prod.mk.injEq] at h2
        exact absurd h2.1 hc
      · rfl

theorem fromUtf8_toUtf8 (s : QString) : fromUtf8 (toUtf8 s) = dropBom s := by
  unfold fromUtf8
  rw [stripBom_toUtf8]
  apply decodeLoop_toUtf8
  unfold dropBom
  split
  · rw [toUtf8_cons, List.length_append]
    omega
  · exact Nat.le_refl _

theorem encode_of_decodeChar {b rest : QByteArray} {c : Char} (h : decodeChar b = some (c, rest)) :
    b = String.utf8EncodeChar c ++ rest := by
  obtain ⟨d, hd, heq⟩ := Option.map_eq_some_iff.mp h
  obtain ⟨rfl, rfl⟩ := Prod.mk.inj heq
  obtain ⟨l, hl⟩ := ByteArray.exists_of_utf8DecodeChar?_eq_some hd
  have hlist : b = String.utf8EncodeChar d ++ l.data.toList := by
    have hdata := congrArg (fun a => a.data.toList) hl
    simpa using hdata
  have hdrop : b.drop d.utf8Size = l.data.toList := by
    rw [hlist, ← String.length_utf8EncodeChar d]
    exact List.drop_left
  rw [hdrop, ← hlist]

-- A text without the replacement character stands at the front where its bytes do.
theorem decodeLoop_starts {t : QString} (ht : '\uFFFD' ∉ t) {n : Nat} {b : QByteArray}
    (hn : b.length ≤ n) : t <+: decodeLoop n b ↔ toUtf8 t <+: b := by
  induction t generalizing n b with
  | nil => exact iff_of_true List.nil_prefix List.nil_prefix
  | cons c t ih =>
    rw [List.mem_cons, not_or] at ht
    rw [toUtf8_cons]
    cases hdecode : decodeChar b with
    | none =>
      refine iff_of_false (fun h => ?_) ?_
      · cases b with
        | nil =>
          cases n with
          | zero => exact absurd h.length_le (by simp [decodeLoop])
          | succ n => exact absurd h.length_le (by simp [decodeLoop])
        | cons x xs =>
          cases n with
          | zero => simp at hn
          | succ n =>
            rw [decodeLoop, hdecode] at h
            exact ht.1 (List.cons_prefix_cons.mp h).1.symm
      · rintro ⟨more, hmore⟩
        rw [List.append_assoc] at hmore
        rw [← hmore, decodeChar_encode] at hdecode
        cases hdecode
    | some r =>
      obtain ⟨d, rest⟩ := r
      obtain rfl := encode_of_decodeChar hdecode
      obtain ⟨x, xs, hx⟩ := List.exists_cons_of_ne_nil (String.utf8EncodeChar_ne_nil (c := d))
      rw [hx] at hn hdecode ⊢
      simp only [List.cons_append, List.length_cons, List.length_append] at hn hdecode ⊢
      cases n with
      | zero => omega
      | succ n =>
        rw [decodeLoop, hdecode, ← List.cons_append, ← hx, List.cons_prefix_cons]
        constructor
        · rintro ⟨rfl, h⟩
          exact (List.prefix_append_right_inj _).mpr ((ih ht.2 (by omega)).mp h)
        · intro h
          obtain ⟨more, hmore⟩ := h
          rw [List.append_assoc] at hmore
          have hsame := decodeChar_encode c (toUtf8 t ++ more)
          rw [hmore, decodeChar_encode] at hsame
          obtain ⟨rfl, hrest⟩ := Prod.mk.inj (Option.some.inj hsame)
          exact ⟨rfl, (ih ht.2 (by omega)).mpr ⟨more, hrest.symm⟩⟩

theorem length_stripBom_le (b : QByteArray) : (stripBom b).length ≤ b.length := by
  unfold stripBom
  split
  · simp only [List.length_cons]
    omega
  · exact Nat.le_refl _

theorem fromUtf8_starts {t : QString} (ht : '\uFFFD' ∉ t) (b : QByteArray) :
    t <+: fromUtf8 b ↔ toUtf8 t <+: stripBom b :=
  decodeLoop_starts ht (length_stripBom_le b)

def utf16 (c : Char) : List Nat :=
  if c.toNat < 0x10000 then [c.toNat]
  else [0xD800 + (c.toNat - 0x10000) / 0x400, 0xDC00 + (c.toNat - 0x10000) % 0x400]

def units (s : QString) : List Nat := s.flatMap utf16

theorem toNat_lt (c : Char) : c.toNat < 0x110000 := by
  have h := c.valid
  simp only [UInt32.isValidChar, Nat.isValidChar] at h
  change c.val.toNat < 0x110000
  omega

theorem not_surrogate (c : Char) : c.toNat < 0xD800 ∨ 0xE000 ≤ c.toNat := by
  have h := c.valid
  simp only [UInt32.isValidChar, Nat.isValidChar] at h
  change c.val.toNat < 0xD800 ∨ 0xE000 ≤ c.val.toNat
  omega

theorem utf16_append_inj (c d : Char) (s t : List Nat) (h : utf16 c ++ s = utf16 d ++ t) :
    c = d ∧ s = t := by
  have hc := toNat_lt c
  have hd := toNat_lt d
  have hc' := not_surrogate c
  have hd' := not_surrogate d
  have inj (e : c.toNat = d.toNat) : c = d := Char.toNat_inj.mp e
  simp only [utf16] at h
  split at h <;> split at h <;>
    simp only [List.cons_append, List.nil_append, List.cons.injEq] at h
  · exact ⟨inj h.1, h.2⟩
  · omega
  · omega
  · exact ⟨inj (by omega), h.2.2⟩

theorem units_injective {s t : QString} (h : units s = units t) : s = t := by
  induction s generalizing t with
  | nil =>
    cases t with
    | nil => rfl
    | cons d t => simp only [units, List.flatMap_cons, utf16] at h; split at h <;> simp at h
  | cons c s ih =>
    cases t with
    | nil => simp only [units, List.flatMap_cons, utf16] at h; split at h <;> simp at h
    | cons d t =>
      simp only [units, List.flatMap_cons] at h
      obtain ⟨hc, hs⟩ := utf16_append_inj c d _ _ h
      rw [hc, ih hs]

theorem units_trichotomy (s t : QString) : units s < units t ∨ s = t ∨ units t < units s := by
  rcases lt_trichotomy (units s) (units t) with h | h | h
  · exact .inl h
  · exact .inr (.inl (units_injective h))
  · exact .inr (.inr h)

theorem mem_splitOn {α : Type} [DecidableEq α] {sep : α} {p s : List α} (h : s ∈ p.splitOn sep) :
    sep ∉ s ∧ s ⊆ p := by
  induction p generalizing s with
  | nil =>
    obtain rfl := List.mem_singleton.mp h
    exact ⟨List.not_mem_nil, List.Subset.refl _⟩
  | cons c p ih =>
    rw [List.splitOn_cons_eq_if_modifyHead] at h
    split at h
    · rcases List.mem_cons.mp h with rfl | h
      · exact ⟨List.not_mem_nil, List.nil_subset _⟩
      · exact ⟨(ih h).1, List.subset_cons_of_subset c (ih h).2⟩
    · rename_i hc
      obtain ⟨t, ts, ht⟩ := List.exists_cons_of_ne_nil (List.splitOn_ne_nil sep p)
      rw [ht] at ih h
      rcases List.mem_cons.mp h with rfl | h
      · obtain ⟨hsep, hsub⟩ := ih List.mem_cons_self
        rw [beq_iff_eq] at hc
        exact ⟨List.not_mem_cons_of_ne_of_not_mem (Ne.symm hc) hsep, List.cons_subset_cons c hsub⟩
      · obtain ⟨hsep, hsub⟩ := ih (List.mem_cons_of_mem _ h)
        exact ⟨hsep, List.subset_cons_of_subset c hsub⟩

theorem not_mem_splitOn (sep : Char) (p : QString) : ∀ s ∈ p.splitOn sep, sep ∉ s :=
  fun _ h => (mem_splitOn h).1

theorem findIdx?_of_not_mem {s : QString} {c : Char} (h : c ∉ s) :
    s.findIdx? (· == c) = none :=
  List.findIdx?_eq_none_iff.mpr fun d hd => by
    rw [beq_eq_false_iff_ne]
    rintro rfl
    exact h hd

theorem findIdx?_append_cons {s : QString} {c : Char} (h : c ∉ s) (t : QString) :
    (s ++ c :: t).findIdx? (· == c) = some s.length := by
  rw [List.findIdx?_append, findIdx?_of_not_mem h, List.findIdx?_cons]
  simp

def isSpace (c : Char) : Bool :=
  let v := c.toNat
  v == 0x20 || (0x09 ≤ v && v ≤ 0x0D) || v == 0x85 || v == 0xA0 || v == 0x1680 ||
    (0x2000 ≤ v && v ≤ 0x200A) || v == 0x2028 || v == 0x2029 || v == 0x202F || v == 0x205F ||
    v == 0x3000

def trimmed (s : QString) : QString :=
  ((s.dropWhile isSpace).reverse.dropWhile isSpace).reverse

theorem trimmed_sublist (s : QString) : (trimmed s).Sublist s := by
  have hback := (List.dropWhile_sublist isSpace (l := (s.dropWhile isSpace).reverse)).reverse
  rw [List.reverse_reverse] at hback
  exact hback.trans (List.dropWhile_sublist isSpace)

theorem trimmed_subset (s : QString) : trimmed s ⊆ s := (trimmed_sublist s).subset

-- The characters whose full upper case is ASCII; all other characters keep a non-ASCII upper case.
def upperChar (c : Char) : QString :=
  match c with
  | 'ß' => ['S', 'S']
  | 'ı' => ['I']
  | 'ſ' => ['S']
  | 'ﬀ' => ['F', 'F']
  | 'ﬁ' => ['F', 'I']
  | 'ﬂ' => ['F', 'L']
  | 'ﬃ' => ['F', 'F', 'I']
  | 'ﬄ' => ['F', 'F', 'L']
  | 'ﬅ' => ['S', 'T']
  | 'ﬆ' => ['S', 'T']
  | c => [c.toUpper]

def toUpper (s : QString) : QString := s.flatMap upperChar

def number (i : Int) : QString := (toString i).toList

theorem number_injective {i j : Int} (h : number i = number j) : i = j :=
  Int.repr_injective (String.toList_injective h)

def digits : QString → Option Nat
  | [] => none
  | cs => cs.foldl (fun acc c =>
      if '0' ≤ c ∧ c ≤ '9' then acc.map (fun n => n * 10 + (c.toNat - '0'.toNat)) else none) (some 0)

def toInt (s : QString) : Option Int :=
  let value := match trimmed s with
    | '-' :: cs => (digits cs).map fun n => -(n : Int)
    | '+' :: cs => (digits cs).map fun n => (n : Int)
    | cs => (digits cs).map fun n => (n : Int)
  value.filter fun i => -2 ^ 31 ≤ i && i < 2 ^ 31

-- 0 where the text is no number, or one that is too large.
def toULongLong (s : QString) : UInt64 :=
  let value := match trimmed s with
    | '+' :: cs => digits cs
    | cs => digits cs
  ((value.filter (· < 2 ^ 64)).getD 0).toUInt64

end Qt
