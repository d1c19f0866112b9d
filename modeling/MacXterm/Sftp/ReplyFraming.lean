import MacXterm.Sftp.FtpClient

namespace Sftp

open Qt Lines

structure ReplyCode where
  first : Char
  second : Char
  third : Char
  first_range : '1' ≤ first ∧ first ≤ '5'
  second_range : '0' ≤ second ∧ second ≤ '5'
  third_range : '0' ≤ third ∧ third ≤ '9'

namespace ReplyCode

variable (c : ReplyCode)

def chars : QString := [c.first, c.second, c.third]

def value : Int := (c.first.toNat - 48) * 100 + (c.second.toNat - 48) * 10 + (c.third.toNat - 48)

-- The code and a blank, with which the last line of a reply starts.
def start : QByteArray := toUtf8 (c.chars ++ [' '])

end ReplyCode

abbrev LineText := { b : QByteArray // FtpClient.lineFeed ∉ b }

def crlf : QByteArray := [13, 10]

inductive FtpReply where
  | single (code : ReplyCode) (text : LineText)
  | multi (code : ReplyCode) (first : LineText)
      (between : List { t : LineText // ¬ code.start <+: t.val }) (last : LineText)

namespace FtpReply

def code : FtpReply → ReplyCode
  | single code _ => code
  | multi code _ _ _ => code

def lines : FtpReply → List QByteArray
  | single code text => [code.start ++ text.val ++ crlf]
  | multi code first between last =>
      (toUtf8 (code.chars ++ ['-']) ++ first.val ++ crlf) ::
        (between.map fun t => t.val.val ++ crlf) ++ [code.start ++ last.val ++ crlf]

def bytes (r : FtpReply) : QByteArray := r.lines.flatten

def text (r : FtpReply) : QString := trimmed (r.lines.flatMap fromUtf8)

-- No line between looks like the last one behind a byte order mark.
def Plain : FtpReply → Prop
  | single _ _ => True
  | multi code _ between _ => ∀ t ∈ between, ¬ code.start <+: stripBom (t.val.val ++ crlf)

instance (r : FtpReply) : Decidable r.Plain :=
  match r with
  | single _ _ => inferInstanceAs (Decidable True)
  | multi code _ between _ =>
      inferInstanceAs (Decidable (∀ t ∈ between, ¬ code.start <+: stripBom (t.val.val ++ crlf)))

end FtpReply

def Framed (wide : Char → Bool) : List FtpReply → Source UInt8 → Prop
  | [], _ => True
  | r :: rs, ctrl =>
      (FtpClient.readReply wide ctrl).1 = (r.code.value, r.text) ∧
        (FtpClient.readReply wide ctrl).2.unread = rs.flatMap FtpReply.bytes ∧
        Framed wide rs (FtpClient.readReply wide ctrl).2

section Code

variable (c : ReplyCode)

theorem ReplyCode.isDigit_chars : ∀ d ∈ c.chars, d.isDigit = true := by
  have hdigit {d : Char} (h : '0' ≤ d ∧ d ≤ '9') : d.isDigit = true := by
    simpa [Char.isDigit, Char.le_def] using h
  obtain ⟨first, second, third, hfirst, hsecond, hthird⟩ := c
  intro d hd
  rcases List.mem_cons.mp hd with rfl | hd
  · exact hdigit ⟨Char.le_trans (by decide) hfirst.1, Char.le_trans hfirst.2 (by decide)⟩
  · rcases List.mem_cons.mp hd with rfl | hd
    · exact hdigit ⟨hsecond.1, Char.le_trans hsecond.2 (by decide)⟩
    · obtain rfl := List.mem_singleton.mp hd
      exact hdigit hthird

theorem toInt_three {a b d : Char} (h : ∀ e ∈ [a, b, d], e.isDigit = true) :
    toInt [a, b, d] =
      some ((a.toNat - 48 : Nat) * 100 + (b.toNat - 48 : Nat) * 10 +
        (d.toNat - 48 : Nat) : Int) := by
  have hbound := ofDigitChars_lt h
  rw [toInt_eq, decimal_eq h (List.cons_ne_nil _ _), Option.filter_some, if_pos]
  · have hzero : '0'.toNat = 48 := rfl
    simp only [Nat.ofDigitChars_cons, Nat.ofDigitChars_nil, hzero, Option.some.injEq]
    omega
  · simp only [List.length_cons, List.length_nil] at hbound
    simp only [Bool.and_eq_true, decide_eq_true_eq]
    omega

theorem ReplyCode.value_bounds : 100 ≤ c.value ∧ c.value ≤ 559 := by
  obtain ⟨first, second, third, hfirst, hsecond, hthird⟩ := c
  simp only [Char.le_def, UInt32.le_iff_toNat_le] at hfirst hsecond hthird
  simp only [value, Char.toNat]
  have h0 : '0'.val.toNat = 48 := rfl
  have h1 : '1'.val.toNat = 49 := rfl
  have h5 : '5'.val.toNat = 53 := rfl
  have h9 : '9'.val.toNat = 57 := rfl
  omega

theorem ReplyCode.toInt_chars : toInt c.chars = some c.value := by
  have hdigit := c.isDigit_chars
  have hfirst := isDigit_iff.mp (hdigit c.first (by simp [chars]))
  have hsecond := isDigit_iff.mp (hdigit c.second (by simp [chars]))
  have hthird := isDigit_iff.mp (hdigit c.third (by simp [chars]))
  rw [chars, toInt_three hdigit, value, Option.some.injEq]
  omega

theorem isDigit_sign {wide : Char → Bool} {d : Char} (h : FtpClient.isDigit wide d = true) :
    d ≠ '-' ∧ d ≠ '+' := by
  refine ⟨?_, ?_⟩
  · rintro rfl
    exact absurd h (by simp [FtpClient.isDigit, Char.isDigit])
  · rintro rfl
    exact absurd h (by simp [FtpClient.isDigit, Char.isDigit])

-- A number of three figures leaves no room for white space in three characters.
theorem isDigit_of_toInt {wide : Char → Bool} {a b d : Char} {n : Int} (hn : 100 ≤ n)
    (hwide : ∀ e ∈ [a, b, d], FtpClient.isDigit wide e = true) (h : toInt [a, b, d] = some n) :
    ∀ e ∈ [a, b, d], e.isDigit = true := by
  have hdigit : ∀ e ∈ trimmed [a, b, d], e.isDigit = true := by
    intro e he
    have hsign := isDigit_sign (hwide e (trimmed_subset _ he))
    rcases char_of_toInt h e he with hrange | hminus | hplus
    · simpa [Char.isDigit, Char.le_def] using hrange
    · exact absurd hminus hsign.1
    · exact absurd hplus hsign.2
  have hdecimal : decimal (trimmed [a, b, d]) = some n := by
    rw [toInt_eq, Option.filter_eq_some_iff] at h
    rw [← h.1, decimal, decimal,
      trimmed_of_no_space fun e he => not_space_of_isDigit (hdigit e he)]
  have hne : trimmed [a, b, d] ≠ [] := by
    intro hnil
    rw [hnil] at hdecimal
    cases hdecimal
  have hlength : 3 ≤ (trimmed [a, b, d]).length := by
    have hlt := ofDigitChars_lt hdigit
    rw [decimal_eq hdigit hne, Option.some.injEq] at hdecimal
    by_contra hshort
    have hpow : 10 ^ (trimmed [a, b, d]).length ≤ 10 ^ 2 :=
      Nat.pow_le_pow_right (by decide) (by omega)
    omega
  have hsame : trimmed [a, b, d] = [a, b, d] := (trimmed_sublist _).eq_of_length_le hlength
  rw [hsame] at hdigit
  exact hdigit

theorem ReplyCode.chars_of_toInt {wide : Char → Bool} {a b d : Char}
    (hwide : ∀ e ∈ [a, b, d], FtpClient.isDigit wide e = true)
    (h : (toInt [a, b, d]).getD 0 = c.value) : [a, b, d] = c.chars := by
  have hbounds := c.value_bounds
  have htoInt : toInt [a, b, d] = some c.value := by
    cases hn : toInt [a, b, d] with
    | none =>
      rw [hn, Option.getD_none] at h
      omega
    | some n => rw [← h, hn, Option.getD_some]
  have hdigit := isDigit_of_toInt hbounds.1 hwide htoInt
  have ha := isDigit_iff.mp (hdigit a (by simp))
  have hb := isDigit_iff.mp (hdigit b (by simp))
  have hd := isDigit_iff.mp (hdigit d (by simp))
  have hchars := c.isDigit_chars
  have hfirst := isDigit_iff.mp (hchars c.first (by simp [chars]))
  have hsecond := isDigit_iff.mp (hchars c.second (by simp [chars]))
  have hthird := isDigit_iff.mp (hchars c.third (by simp [chars]))
  rw [toInt_three hdigit, Option.some.injEq, value] at htoInt
  have h₁ : a = c.first := Char.toNat_inj.mp (by omega)
  have h₂ : b = c.second := Char.toNat_inj.mp (by omega)
  have h₃ : d = c.third := Char.toNat_inj.mp (by omega)
  rw [h₁, h₂, h₃, chars]

end Code

def CodeRange (n : Nat) : Prop := 100 ≤ n ∧ n < 560 ∧ n / 10 % 10 ≤ 5

instance (n : Nat) : Decidable (CodeRange n) :=
  inferInstanceAs (Decidable (100 ≤ n ∧ n < 560 ∧ n / 10 % 10 ≤ 5))

theorem exists_code {n : Nat} (h : CodeRange n) :
    ∃ code : ReplyCode, code.chars = number n ∧ code.value = n := by
  obtain ⟨hlow, hhigh, hmiddle⟩ := h
  have hfirst : '1' ≤ (n / 100).digitChar ∧ (n / 100).digitChar ≤ '5' :=
    ⟨@digitChar_le 1 _ (by omega) (by omega), @digitChar_le _ 5 (by omega) (by decide)⟩
  have hsecond : '0' ≤ (n / 10 % 10).digitChar ∧ (n / 10 % 10).digitChar ≤ '5' :=
    ⟨@digitChar_le 0 _ (Nat.zero_le _) (by omega), @digitChar_le _ 5 hmiddle (by decide)⟩
  have hthird : '0' ≤ (n % 10).digitChar ∧ (n % 10).digitChar ≤ '9' :=
    ⟨@digitChar_le 0 _ (Nat.zero_le _) (by omega), @digitChar_le _ 9 (by omega) (by decide)⟩
  refine ⟨⟨_, _, _, hfirst, hsecond, hthird⟩, ?_, ?_⟩
  · exact (number_three hlow (by omega)).symm
  · simp only [ReplyCode.value, Nat.toNat_digitChar_of_lt_ten (show n / 100 < 10 by omega),
      Nat.toNat_digitChar_of_lt_ten (show n / 10 % 10 < 10 by omega),
      Nat.toNat_digitChar_of_lt_ten (show n % 10 < 10 by omega)]
    omega

section Step

variable {wide : Char → Bool} (c : ReplyCode)

theorem ReplyCode.starts_iff {d : Char} {line : QString} :
    c.chars ++ [d] <+: line ↔ line.take 3 = c.chars ∧ (line)[3]? = some d := by
  rcases line with _ | ⟨x, _ | ⟨y, _ | ⟨z, _ | ⟨w, rest⟩⟩⟩⟩
  · simp [chars]
  · simp [chars]
  · simp [chars]
  · simp [chars]
  · simp [chars, eq_comm, and_assoc]

theorem ReplyCode.hasCode (wide : Char → Bool) {line : QString} (h : line.take 3 = c.chars) :
    3 ≤ line.length ∧ ∀ d ∈ line.take 3, FtpClient.isDigit wide d = true := by
  refine ⟨?_, fun d hd => ?_⟩
  · have hlength := congrArg List.length h
    rw [List.length_take, chars, List.length_cons, List.length_cons, List.length_cons] at hlength
    omega
  · rw [FtpClient.isDigit, c.isDigit_chars d (h ▸ hd), Bool.true_or]

theorem replyLine_first {raw : QByteArray} {d : Char} (h : c.chars ++ [d] <+: fromUtf8 raw) :
    FtpClient.replyLine wide ([], 0) raw =
      if d = ' ' then .inr (c.value, trimmed (fromUtf8 raw))
      else .inl (fromUtf8 raw, c.value) := by
  obtain ⟨htake, hfourth⟩ := c.starts_iff.mp h
  obtain ⟨hlength, hdigit⟩ := c.hasCode wide htake
  rw [htake] at hdigit
  simp only [FtpClient.replyLine, List.nil_append, hlength, hfourth, htake,
    eq_true (List.all_eq_true.mpr hdigit), c.toInt_chars, Option.getD_some, Option.some.injEq,
    true_and, and_true, if_true]

theorem replyLine_next (acc : QString) (raw : QByteArray) :
    FtpClient.replyLine wide (acc, c.value) raw =
      if c.start <+: stripBom raw then .inr (c.value, trimmed (acc ++ fromUtf8 raw))
      else .inl (acc ++ fromUtf8 raw, c.value) := by
  have hne : c.value ≠ 0 := by
    have hbounds := c.value_bounds
    omega
  have hclean : '\uFFFD' ∉ c.chars ++ [' '] := by
    intro hmem
    rcases List.mem_append.mp hmem with hmem | hmem
    · exact absurd (c.isDigit_chars _ hmem) (by decide)
    · exact absurd (List.mem_singleton.mp hmem) (by decide)
  have hends : ((3 ≤ (fromUtf8 raw).length ∧
        ((fromUtf8 raw).take 3).all (FtpClient.isDigit wide) = true) ∧
      (fromUtf8 raw)[3]? = some ' ' ∧ (toInt ((fromUtf8 raw).take 3)).getD 0 = c.value) ↔
      c.start <+: stripBom raw := by
    rw [ReplyCode.start, ← fromUtf8_starts hclean, c.starts_iff, List.all_eq_true]
    generalize fromUtf8 raw = line
    constructor
    · rintro ⟨⟨hlength, hdigit⟩, hfourth, hvalue⟩
      refine ⟨?_, hfourth⟩
      rcases line with _ | ⟨x, _ | ⟨y, _ | ⟨z, rest⟩⟩⟩
      · simp at hlength
      · simp at hlength
      · simp at hlength
      · exact c.chars_of_toInt hdigit hvalue
    · rintro ⟨htake, hfourth⟩
      refine ⟨c.hasCode wide htake, hfourth, ?_⟩
      rw [htake, c.toInt_chars, Option.getD_some]
  have hkept (p : Prop) [Decidable p] (n : Int) :
      (if p ∧ c.value = 0 then n else c.value) = c.value := if_neg fun h => hne h.2
  simp only [FtpClient.replyLine, hkept, hends]

end Step

section Reply

variable {wide : Char → Bool} {c : ReplyCode}

theorem lf_not_mem_start (d : Char) (h : d ≠ '\n') :
    FtpClient.lineFeed ∉ toUtf8 (c.chars ++ [d]) := by
  have hmem := mem_toUtf8_ascii (c := '\n') (by decide) (s := c.chars ++ [d])
  intro hlf
  rcases List.mem_append.mp (hmem.mp hlf) with hchars | hlast
  · exact absurd (c.isDigit_chars _ hchars) (by decide)
  · exact h (List.mem_singleton.mp hlast).symm

theorem scan_crlf {s : QString × Int} {t : QByteArray} (h : FtpClient.lineFeed ∉ t)
    (rest : QByteArray) :
    scan FtpClient.lineFeed (FtpClient.replyLine wide) s [] (t ++ crlf ++ rest) =
      match FtpClient.replyLine wide s (t ++ crlf) with
      | .inl s' => scan FtpClient.lineFeed (FtpClient.replyLine wide) s' [] rest
      | .inr r => .stop r rest := by
  have hline : t ++ crlf = (t ++ [13]) ++ [FtpClient.lineFeed] := by
    rw [List.append_assoc]
    rfl
  have hreturn : FtpClient.lineFeed ∉ ([13] : QByteArray) := by decide
  rw [hline, scan_line (List.not_mem_append h hreturn)]
  cases FtpClient.replyLine wide s (t ++ [13] ++ [FtpClient.lineFeed]) with
  | inl s' => rfl
  | inr r => rfl

theorem scan_between {between : List { t : LineText // ¬ c.start <+: t.val }} (acc : QString)
    (rest : QByteArray)
    (h : ∀ t ∈ between, ¬ c.start <+: stripBom (t.val.val ++ crlf)) :
    scan FtpClient.lineFeed (FtpClient.replyLine wide) (acc, c.value) []
        ((between.map fun t => t.val.val ++ crlf).flatten ++ rest) =
      scan FtpClient.lineFeed (FtpClient.replyLine wide)
        (acc ++ (between.map fun t => t.val.val ++ crlf).flatMap fromUtf8, c.value) [] rest := by
  induction between generalizing acc with
  | nil => simp
  | cons t ts ih =>
    rw [List.map_cons, List.flatten_cons, List.append_assoc, scan_crlf t.val.property,
      replyLine_next, if_neg (h t List.mem_cons_self)]
    dsimp only
    rw [ih _ fun u hu => h u (List.mem_cons_of_mem _ hu), List.flatMap_cons, List.append_assoc]

theorem scan_between_stops {between : List { t : LineText // ¬ c.start <+: t.val }}
    (acc : QString) (rest : QByteArray)
    (h : ∃ t ∈ between, c.start <+: stripBom (t.val.val ++ crlf)) :
    ∃ text more, scan FtpClient.lineFeed (FtpClient.replyLine wide) (acc, c.value) []
        ((between.map fun t => t.val.val ++ crlf).flatten ++ rest) =
      .stop (c.value, text) (more ++ rest) := by
  induction between generalizing acc with
  | nil =>
    obtain ⟨t, ht, -⟩ := h
    cases ht
  | cons t ts ih =>
    rw [List.map_cons, List.flatten_cons, List.append_assoc, scan_crlf t.val.property,
      replyLine_next]
    by_cases hstops : c.start <+: stripBom (t.val.val ++ crlf)
    · rw [if_pos hstops]
      exact ⟨_, _, rfl⟩
    · rw [if_neg hstops]
      refine ih _ ?_
      obtain ⟨u, hu, hstart⟩ := h
      rcases List.mem_cons.mp hu with rfl | hu
      · exact absurd hstart hstops
      · exact ⟨u, hu, hstart⟩

theorem stripBom_chars (d : Char) (t : QByteArray) :
    stripBom (toUtf8 (c.chars ++ [d]) ++ t) = toUtf8 (c.chars ++ [d]) ++ t := by
  have hfirst := isDigit_iff.mp (c.isDigit_chars c.first (by simp [ReplyCode.chars]))
  have hchars : c.chars ++ [d] = c.first :: [c.second, c.third, d] := rfl
  rw [hchars, toUtf8_cons, encode_ascii (by omega), List.cons_append, List.cons_append]
  unfold stripBom
  split
  · rename_i heq
    have hbyte := congrArg UInt8.toNat (List.cons.inj heq).1
    rw [UInt8.toNat_ofNat_of_lt' (show c.first.toNat < 256 by omega)] at hbyte
    have hmark : (0xEF : UInt8).toNat = 239 := rfl
    omega
  · rfl

theorem chars_start {d : Char} (h : d ≠ '\uFFFD') (t : QByteArray) :
    c.chars ++ [d] <+: fromUtf8 (toUtf8 (c.chars ++ [d]) ++ t) := by
  have hclean : '\uFFFD' ∉ c.chars ++ [d] := by
    intro hmem
    rcases List.mem_append.mp hmem with hmem | hmem
    · exact absurd (c.isDigit_chars _ hmem) (by decide)
    · exact h (List.mem_singleton.mp hmem).symm
  rw [fromUtf8_starts hclean, stripBom_chars]
  exact List.prefix_append _ _

theorem scan_single (text : LineText) (rest : QByteArray) :
    scan FtpClient.lineFeed (FtpClient.replyLine wide) ([], 0) []
        (c.start ++ text.val ++ crlf ++ rest) =
      .stop (c.value, trimmed (fromUtf8 (c.start ++ text.val ++ crlf))) rest := by
  have hline := List.not_mem_append (@lf_not_mem_start c ' ' (by decide)) text.property
  have hfirst := @chars_start c ' ' (by decide) (text.val ++ crlf)
  rw [← List.append_assoc] at hfirst
  rw [ReplyCode.start, scan_crlf hline, replyLine_first c hfirst, if_pos rfl]

theorem scan_opening (first : LineText) (rest : QByteArray) :
    scan FtpClient.lineFeed (FtpClient.replyLine wide) ([], 0) []
        (toUtf8 (c.chars ++ ['-']) ++ first.val ++ crlf ++ rest) =
      scan FtpClient.lineFeed (FtpClient.replyLine wide)
        (fromUtf8 (toUtf8 (c.chars ++ ['-']) ++ first.val ++ crlf), c.value) [] rest := by
  have hline := List.not_mem_append (@lf_not_mem_start c '-' (by decide)) first.property
  have hfirst := @chars_start c '-' (by decide) (first.val ++ crlf)
  rw [← List.append_assoc] at hfirst
  rw [scan_crlf hline, replyLine_first c hfirst, if_neg (by decide)]

theorem scan_last (acc : QString) (text : LineText) (rest : QByteArray) :
    scan FtpClient.lineFeed (FtpClient.replyLine wide) (acc, c.value) []
        (c.start ++ text.val ++ crlf ++ rest) =
      .stop (c.value, trimmed (acc ++ fromUtf8 (c.start ++ text.val ++ crlf))) rest := by
  have hline := List.not_mem_append (@lf_not_mem_start c ' ' (by decide)) text.property
  have hstart : c.start <+: stripBom (c.start ++ text.val ++ crlf) := by
    rw [ReplyCode.start, List.append_assoc, stripBom_chars]
    exact List.prefix_append _ _
  rw [← ReplyCode.start] at hline
  rw [scan_crlf hline, replyLine_next, if_pos hstart]

theorem bytes_multi (first : LineText) (between : List { t : LineText // ¬ c.start <+: t.val })
    (last : LineText) (rest : QByteArray) :
    (FtpReply.multi c first between last).bytes ++ rest =
      toUtf8 (c.chars ++ ['-']) ++ first.val ++ crlf ++
        ((between.map fun t => t.val.val ++ crlf).flatten ++
          (c.start ++ last.val ++ crlf ++ rest)) := by
  simp [FtpReply.bytes, FtpReply.lines]

theorem scan_plain {r : FtpReply} (h : r.Plain) (rest : QByteArray) :
    scan FtpClient.lineFeed (FtpClient.replyLine wide) ([], 0) [] (r.bytes ++ rest) =
      .stop (r.code.value, r.text) rest := by
  cases r with
  | single code text =>
    rw [FtpReply.bytes, FtpReply.lines, List.flatten_singleton, scan_single]
    simp [FtpReply.code, FtpReply.text, FtpReply.lines]
  | multi code first between last =>
    rw [bytes_multi, scan_opening, scan_between _ _ h, scan_last]
    simp [FtpReply.code, FtpReply.text, FtpReply.lines]

theorem scan_odd {r : FtpReply} (h : ¬ r.Plain) (rest : QByteArray) :
    ∃ text more, more ≠ [] ∧
      scan FtpClient.lineFeed (FtpClient.replyLine wide) ([], 0) [] (r.bytes ++ rest) =
        .stop (r.code.value, text) (more ++ rest) := by
  cases r with
  | single code text => exact absurd trivial h
  | multi code first between last =>
    have hodd : ∃ t ∈ between, code.start <+: stripBom (t.val.val ++ crlf) := by
      simpa [FtpReply.Plain] using h
    obtain ⟨text, more, hscan⟩ := @scan_between_stops wide code between
      (fromUtf8 (toUtf8 (code.chars ++ ['-']) ++ first.val ++ crlf))
      (code.start ++ last.val ++ crlf ++ rest) hodd
    refine ⟨text, more ++ (code.start ++ last.val ++ crlf), ?_, ?_⟩
    · simp [crlf]
    · rw [bytes_multi, scan_opening, hscan, List.append_assoc more]
      rfl

end Reply

theorem readReply_scan {wide : Char → Bool} {ctrl : Source UInt8} (hflow : ctrl.Flowing)
    {result : Int × QString} {rest : QByteArray}
    (h : scan FtpClient.lineFeed (FtpClient.replyLine wide) ([], 0) [] ctrl.unread =
      .stop result rest) :
    (FtpClient.readReply wide ctrl).1 = result ∧
      (FtpClient.readReply wide ctrl).2.unread = rest ∧
      (FtpClient.readReply wide ctrl).2.Flowing := by
  have hread := @read_flowing _ _ _ _ FtpClient.lineFeed (FtpClient.replyLine wide) ([], 0)
    ctrl.buffer ctrl.arrivals hflow
  rw [show (⟨ctrl.buffer, ctrl.arrivals⟩ : Source UInt8) = ctrl from rfl, h] at hread
  obtain ⟨src, hsrc, hunread, hflows⟩ := hread
  rw [FtpClient.readReply, hsrc]
  exact ⟨rfl, hunread, hflows⟩

theorem reply_framing_iff (wide : Char → Bool) (replies : List FtpReply) (ctrl : Source UInt8)
    (hflow : ctrl.Flowing) (h : ctrl.unread = replies.flatMap FtpReply.bytes) :
    Framed wide replies ctrl ↔ ∀ r ∈ replies, r.Plain := by
  induction replies generalizing ctrl with
  | nil => exact iff_of_true trivial nofun
  | cons r rs ih =>
    rw [List.flatMap_cons] at h
    rw [List.forall_mem_cons, Framed]
    by_cases hplain : r.Plain
    · have hscan := @scan_plain wide r hplain (rs.flatMap FtpReply.bytes)
      rw [← h] at hscan
      obtain ⟨hresult, hunread, hflows⟩ := readReply_scan hflow hscan
      rw [ih _ hflows hunread]
      exact ⟨fun hframed => ⟨hplain, hframed.2.2⟩, fun hall => ⟨hresult, hunread, hall.2⟩⟩
    · obtain ⟨text, more, hmore, hscan⟩ := @scan_odd wide r hplain (rs.flatMap FtpReply.bytes)
      rw [← h] at hscan
      obtain ⟨-, hunread, -⟩ := readReply_scan hflow hscan
      refine iff_of_false (fun hframed => ?_) fun hall => hplain hall.1
      rw [hframed.2.1] at hunread
      exact hmore (List.append_left_eq_self.mp hunread.symm)

-- The greeting of a server that is going down, and the reply to the command after it.
def code220 : ReplyCode := ⟨'2', '2', '0', by decide, by decide, by decide⟩

def greeting : FtpReply :=
  .multi code220 ⟨toUtf8 "Welcome", by decide⟩
    [⟨⟨toUtf8 "The service will be down soon", by decide⟩, by decide⟩] ⟨toUtf8 "Ready", by decide⟩

def oneByOne (b : QByteArray) : Source UInt8 := ⟨[], b.map fun x => some [x]⟩

theorem oneByOne_flowing (b : QByteArray) : (oneByOne b).Flowing := by
  intro a ha
  obtain ⟨x, -, rfl⟩ := List.mem_map.mp ha
  exact nofun

theorem oneByOne_unread (b : QByteArray) : (oneByOne b).unread = b := by
  simp [oneByOne, Source.unread, List.flatMap_map]

theorem reply_framing_greeting :
    Framed (fun _ => false) [greeting] (oneByOne ([greeting].flatMap FtpReply.bytes)) :=
  (reply_framing_iff (fun _ => false) [greeting] (oneByOne ([greeting].flatMap FtpReply.bytes))
    (oneByOne_flowing _) (oneByOne_unread _)).mpr fun r hr => by
      obtain rfl := List.mem_singleton.mp hr
      decide

def markedLine : LineText := ⟨[0xEF, 0xBB, 0xBF] ++ toUtf8 "220 not yet", by decide⟩

def markedGreeting : FtpReply :=
  .multi code220 ⟨toUtf8 "Welcome", by decide⟩ [⟨markedLine, by decide⟩]
    ⟨toUtf8 "Ready", by decide⟩

theorem marked_line_ends_reply :
    ¬ ∀ (wide : Char → Bool) (replies : List FtpReply) (ctrl : Source UInt8), ctrl.Flowing →
      ctrl.unread = replies.flatMap FtpReply.bytes → Framed wide replies ctrl := by
  intro h
  have hplain : ¬ markedGreeting.Plain := by decide
  obtain ⟨text, more, hmore, hscan⟩ := @scan_odd (fun _ => false) markedGreeting hplain []
  have hframed := h (fun _ => false) [markedGreeting] (oneByOne (markedGreeting.bytes ++ []))
    (oneByOne_flowing _) (oneByOne_unread _)
  rw [← oneByOne_unread (markedGreeting.bytes ++ [])] at hscan
  obtain ⟨-, hunread, -⟩ := readReply_scan (oneByOne_flowing _) hscan
  rw [hframed.2.1, List.append_nil] at hunread
  exact hmore hunread.symm

end Sftp
