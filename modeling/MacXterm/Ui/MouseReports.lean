import MacXterm.Term.PrivateModes
import Mathlib.Order.MinMax

namespace Ui

open Qt Term

-- What a report tells: the button with its modifiers, the cell and whether it is a release.
structure MouseReport where
  code : Nat
  col : Nat
  row : Nat
  release : Bool
deriving DecidableEq

namespace MouseReport

-- In the encodings with one final byte a release is the button 3, and names no button.
def ofFields (code col row : Nat) : MouseReport :=
  if code % 4 = 3 ∧ code < 32 then ⟨code / 4 * 4, col, row, true⟩ else ⟨code, col, row, false⟩

-- Characters offset by 32, which `char` reads one at a time.
def decodeOffset (char : QByteArray → Option (Nat × QByteArray)) :
    QByteArray → Option MouseReport
  | 0x1B :: 0x5B :: 0x4D :: bs => do
      let (b, bs) ← char bs
      let (c, bs) ← char bs
      let (r, bs) ← char bs
      if bs = [] ∧ 32 ≤ b ∧ 32 < c ∧ 32 < r then some (ofFields (b - 32) (c - 32) (r - 32)) else none
  | _ => none

def byteChar : QByteArray → Option (Nat × QByteArray)
  | b :: bs => some (b.toNat, bs)
  | [] => none

-- One or two bytes of UTF-8.
def utf8Char : QByteArray → Option (Nat × QByteArray)
  | [] => none
  | b :: bs =>
      if b < 0x80 then some (b.toNat, bs)
      else
        match bs with
        | c :: bs =>
            if 0xC2 ≤ b ∧ b ≤ 0xDF ∧ 0x80 ≤ c ∧ c ≤ 0xBF then
              some ((b.toNat - 0xC0) * 64 + (c.toNat - 0x80), bs)
            else none
        | [] => none

-- The decimal parameters of a sequence.
def params (bs : QByteArray) : List (Option Nat) :=
  (bs.splitOn 0x3B).map fun p => digits (Modes.latin1 p)

def decodeSgr : QByteArray → Option MouseReport
  | 0x1B :: 0x5B :: 0x3C :: bs =>
      match params bs.dropLast, bs.getLast? with
      | [some code, some col, some row], some 0x4D => some ⟨code, col, row, false⟩
      | [some code, some col, some row], some 0x6D => some ⟨code, col, row, true⟩
      | _, _ => none
  | _ => none

def decodeUrxvt : QByteArray → Option MouseReport
  | 0x1B :: 0x5B :: bs =>
      match params bs.dropLast, bs.getLast? with
      | [some code, some col, some row], some 0x4D =>
          if 32 ≤ code then some (ofFields (code - 32) col row) else none
      | _, _ => none
  | _ => none

def decode : MouseEncoding → QByteArray → Option MouseReport
  | .default => decodeOffset byteChar
  | .utf8 => decodeOffset utf8Char
  | .sgr => decodeSgr
  | .urxvt => decodeUrxvt

end MouseReport

-- Button, modifiers, motion and wheel, as the protocol has them; the button 3 is none, and so
-- comes with motion or stands for one of the further buttons.
def ButtonCode (cb : Nat) : Prop := cb < 192 ∧ (cb % 4 = 3 → 32 ≤ cb)

def Representable (enc : MouseEncoding) (n : Nat) : Prop :=
  match enc with
  | .default => n ≤ 223
  | .utf8 => n ≤ 2015
  | _ => True

-- The report of an event, as far as the encoding tells: but for SGR a release names no button.
def eventReport (enc : MouseEncoding) (cb col1 row1 : Nat) (release : Bool) : MouseReport :=
  ⟨if release && enc != .sgr then cb / 4 * 4 else cb, col1, row1, release⟩

structure Decodable (enc : MouseEncoding) (cb col1 row1 : Nat) (release : Bool) : Prop where
  inRange : Representable enc col1 → Representable enc row1 →
    MouseReport.decode enc (encodeMouseReport enc cb col1 row1 release) =
      some (eventReport enc cb col1 row1 release)
  noOther : ∀ r, MouseReport.decode enc (encodeMouseReport enc cb col1 row1 release) = some r →
    r = eventReport enc cb col1 row1 release

def DecodableWhen (enc : MouseEncoding) (cb col1 row1 : Nat) (release : Bool) : Prop :=
  match enc with
  | .sgr => True
  | .default => col1 ≤ 223 ∧ row1 ≤ 223 ∧ (release = true → cb < 32)
  | .utf8 =>
      (cb ≤ 95 ∧ col1 ≤ 95 ∧ row1 ≤ 95 ∧ (release = true → cb < 32)) ∨
        ¬(col1 ≤ 2015 ∧ row1 ≤ 2015)
  | .urxvt => False

section Sgr

theorem latin1_toUtf8 {s : QString} (h : ∀ c ∈ s, c.toNat ≤ 0x7F) :
    Modes.latin1 (toUtf8 s) = s := by
  induction s with
  | nil => rfl
  | cons c s ih =>
    obtain ⟨hc, hs⟩ := List.forall_mem_cons.mp h
    have hbyte : (UInt8.ofNat c.toNat).toNat = c.toNat :=
      UInt8.toNat_ofNat_of_lt' (show c.toNat < 256 by omega)
    rw [toUtf8_cons, encode_ascii hc, List.singleton_append, Modes.latin1, List.map_cons, hbyte,
      Char.ofNat_toNat]
    exact congrArg (c :: ·) (ih hs)

theorem digits_param (n : Nat) : digits (Modes.latin1 (toUtf8 (number n))) = some n := by
  have hascii (c : Char) (hc : c ∈ number n) : c.toNat ≤ 0x7F :=
    (isDigit_iff.mp (isDigit_of_mem_number hc)).2.trans (by decide)
  rw [latin1_toUtf8 hascii, digits_number]

theorem semicolon_not_mem (n : Nat) : (0x3B : UInt8) ∉ toUtf8 (number n) := by
  intro h
  have hmem : ';' ∈ number n := (mem_toUtf8_ascii (c := ';') (by decide)).mp h
  exact absurd (isDigit_of_mem_number hmem) (by decide)

theorem decode_sgr (cb col1 row1 : Nat) (release : Bool) :
    MouseReport.decode .sgr (encodeMouseReport .sgr cb col1 row1 release) =
      some ⟨cb, col1, row1, release⟩ := by
  have hparams : MouseReport.params (toUtf8 (number cb) ++ 0x3B :: (toUtf8 (number col1) ++
      0x3B :: toUtf8 (number row1))) = [some cb, some col1, some row1] := by
    rw [MouseReport.params, List.splitOn_append_cons_self_of_not_mem (semicolon_not_mem cb),
      List.splitOn_append_cons_self_of_not_mem (semicolon_not_mem col1),
      List.splitOn_eq_singleton (semicolon_not_mem row1)]
    simp only [List.map_cons, List.map_nil, digits_param]
  have hbytes : encodeMouseReport .sgr cb col1 row1 release =
      0x1B :: 0x5B :: 0x3C :: ((toUtf8 (number cb) ++ 0x3B :: (toUtf8 (number col1) ++
        0x3B :: toUtf8 (number row1))) ++ [if release then 0x6D else 0x4D]) := by
    simp [encodeMouseReport]
  rw [hbytes, MouseReport.decode, MouseReport.decodeSgr, List.dropLast_concat,
    List.getLast?_concat, hparams]
  cases release with
  | true => rfl
  | false => rfl

end Sgr

section Decodable

variable {enc : MouseEncoding} {cb col1 row1 : Nat} {release : Bool} {r : MouseReport}

theorem decodable_of_some
    (h : MouseReport.decode enc (encodeMouseReport enc cb col1 row1 release) = some r) :
    Decodable enc cb col1 row1 release ↔ r = eventReport enc cb col1 row1 release := by
  constructor
  · intro hdecodable
    exact hdecodable.noOther r h
  · rintro rfl
    exact ⟨fun _ _ => h, fun other hother => Option.some.inj (hother.symm.trans h)⟩

theorem decodable_of_none
    (h : MouseReport.decode enc (encodeMouseReport enc cb col1 row1 release) = none) :
    Decodable enc cb col1 row1 release ↔ ¬(Representable enc col1 ∧ Representable enc row1) := by
  constructor
  · rintro hdecodable ⟨hcol, hrow⟩
    cases h.symm.trans (hdecodable.inRange hcol hrow)
  · intro hout
    exact ⟨fun hcol hrow => absurd ⟨hcol, hrow⟩ hout, fun r hr => nomatch h.symm.trans hr⟩

end Decodable

section Legacy

variable {enc : MouseEncoding} {cb col1 row1 : Nat} {release : Bool}

theorem or_three (cb : Nat) : cb ||| 3 = cb / 4 * 4 + 3 := by
  have hlow : cb % 4 ||| 3 = 3 := by
    have hlt : cb % 4 < 4 := Nat.mod_lt _ (by decide)
    generalize cb % 4 = k at hlt
    revert k
    decide
  have hsplit : 2 ^ 2 * (cb / 4) + cb % 4 = cb := by omega
  calc cb ||| 3 = (2 ^ 2 * (cb / 4) + cb % 4) ||| 3 := by rw [hsplit]
    _ = 2 ^ 2 * (cb / 4) ||| (cb % 4 ||| 3) := by
      rw [Nat.two_pow_add_eq_or_of_lt (by omega), Nat.or_assoc]
    _ = 2 ^ 2 * (cb / 4) + 3 := by rw [hlow, ← Nat.two_pow_add_eq_or_of_lt (by decide)]
    _ = cb / 4 * 4 + 3 := by omega

theorem toNat_mouseByte (v : Nat) : (mouseByte v).toNat = min v 223 + 32 := by
  have hlt : min v 223 + 32 < 2 ^ 8 := by omega
  exact UInt8.toNat_ofNat_of_lt' hlt

-- The code in the bytes of the encodings other than SGR.
def sentCode (cb : Nat) (release : Bool) : Nat := if release then cb ||| 3 else cb

theorem sentCode_le (release : Bool) (hcb : ButtonCode cb) : sentCode cb release ≤ 191 := by
  have hlt := hcb.1
  cases release with
  | true =>
    rw [sentCode, if_pos rfl, or_three]
    omega
  | false => exact Nat.le_of_lt_succ hlt

theorem sentCode_le_iff {n : Nat} (hn : n % 4 = 3) : sentCode cb release ≤ n ↔ cb ≤ n := by
  cases release with
  | true =>
    rw [sentCode, if_pos rfl, or_three]
    omega
  | false => exact Iff.rfl

theorem ofFields_eq_iff (henc : enc ≠ .sgr) (hcb : ButtonCode cb) (c r : Nat) :
    MouseReport.ofFields (sentCode cb release) c r = eventReport enc cb col1 row1 release ↔
      c = col1 ∧ r = row1 ∧ (release = true → cb < 32) := by
  have hevent : eventReport enc cb col1 row1 release =
      ⟨if release then cb / 4 * 4 else cb, col1, row1, release⟩ := by
    rw [eventReport, bne_iff_ne.mpr henc, Bool.and_true]
  rw [hevent, MouseReport.ofFields, sentCode]
  cases release with
  | true =>
    rw [if_pos rfl, if_pos rfl, or_three]
    by_cases hlt : cb < 32
    · rw [if_pos (by omega), show (cb / 4 * 4 + 3) / 4 * 4 = cb / 4 * 4 by omega]
      simp [hlt]
    · rw [if_neg (by omega)]
      simp [hlt]
  | false =>
    obtain ⟨-, hthree⟩ := hcb
    rw [if_neg Bool.false_ne_true, if_neg (by omega), if_neg Bool.false_ne_true]
    simp

theorem encode_offset (henc : enc ≠ .sgr) : encodeMouseReport enc cb col1 row1 release =
    [0x1B, 0x5B, 0x4D, mouseByte (sentCode cb release), mouseByte col1, mouseByte row1] := by
  cases enc with
  | sgr => exact absurd rfl henc
  | _ => rfl

theorem decodeOffset_byte (hcb : ButtonCode cb) (hcol : 1 ≤ col1) (hrow : 1 ≤ row1) :
    MouseReport.decodeOffset MouseReport.byteChar
        [0x1B, 0x5B, 0x4D, mouseByte (sentCode cb release), mouseByte col1, mouseByte row1] =
      some (MouseReport.ofFields (sentCode cb release) (min col1 223) (min row1 223)) := by
  have hcode := sentCode_le release hcb
  simp only [MouseReport.decodeOffset, MouseReport.byteChar, Option.bind_eq_bind, Option.bind_some,
    toNat_mouseByte, true_and]
  rw [if_pos (by omega), Nat.min_eq_left (by omega), Nat.add_sub_cancel, Nat.add_sub_cancel,
    Nat.add_sub_cancel]

theorem utf8Char_low {b : UInt8} (bs : QByteArray) (h : b < 0x80) :
    MouseReport.utf8Char (b :: bs) = some (b.toNat, bs) := if_pos h

theorem utf8Char_single {b : UInt8} (h : ¬b < 0x80) : MouseReport.utf8Char [b] = none := if_neg h

theorem utf8Char_pair {b : UInt8} (c : UInt8) (bs : QByteArray) (h : ¬b < 0x80) :
    MouseReport.utf8Char (b :: c :: bs) = none ∨
      ∃ n, MouseReport.utf8Char (b :: c :: bs) = some (n, bs) := by
  rw [MouseReport.utf8Char, if_neg h]
  split
  · exact .inr ⟨_, rfl⟩
  · exact .inl rfl

-- Three bytes hold three characters of UTF-8 only if each is one byte long.
theorem decodeOffset_utf8 (b c r : UInt8) :
    MouseReport.decodeOffset MouseReport.utf8Char [0x1B, 0x5B, 0x4D, b, c, r] =
      if b < 0x80 ∧ c < 0x80 ∧ r < 0x80 then
        MouseReport.decodeOffset MouseReport.byteChar [0x1B, 0x5B, 0x4D, b, c, r]
      else none := by
  simp only [MouseReport.decodeOffset, MouseReport.byteChar, Option.bind_eq_bind, Option.bind_some]
  by_cases hb : b < 0x80
  · rw [utf8Char_low _ hb, Option.bind_some]
    dsimp only
    by_cases hc : c < 0x80
    · rw [utf8Char_low _ hc, Option.bind_some]
      dsimp only
      by_cases hr : r < 0x80
      · rw [utf8Char_low _ hr, Option.bind_some]
        simp [hb, hc, hr]
      · rw [utf8Char_single hr, Option.bind_none, if_neg fun h => hr h.2.2]
    · rw [if_neg fun h => hc h.2.1]
      rcases utf8Char_pair r [] hc with hnone | ⟨n, hsome⟩
      · rw [hnone, Option.bind_none]
      · rw [hsome, Option.bind_some]
        rfl
  · rw [if_neg fun h => hb h.1]
    rcases utf8Char_pair c [r] hb with hnone | ⟨n, hsome⟩
    · rw [hnone, Option.bind_none]
    · rw [hsome, Option.bind_some]
      dsimp only
      by_cases hr : r < 0x80
      · rw [utf8Char_low _ hr, Option.bind_some]
        rfl
      · rw [utf8Char_single hr, Option.bind_none]

theorem mouseByte_lt_iff {v : Nat} : mouseByte v < 0x80 ↔ v ≤ 95 := by
  rw [UInt8.lt_iff_toNat_lt, toNat_mouseByte]
  change min v 223 + 32 < 128 ↔ v ≤ 95
  omega

theorem params_final (bs : QByteArray) :
    ∃ ps, MouseReport.params (0x4D :: bs) = none :: ps := by
  have hnone (t : QByteArray) : digits (Modes.latin1 (0x4D :: t)) = none := by
    cases h : digits (Modes.latin1 (0x4D :: t)) with
    | none => rfl
    | some n => exact absurd (digit_of_digits h 'M' List.mem_cons_self) (by decide)
  obtain ⟨t, ts, ht⟩ := List.exists_cons_of_ne_nil (List.splitOn_ne_nil (0x3B : UInt8) bs)
  rw [MouseReport.params, List.splitOn_cons_eq_if_modifyHead, if_neg (by decide), ht]
  exact ⟨_, congrArg (· :: _) (hnone t)⟩

theorem decodeUrxvt_offset (b c r : UInt8) :
    MouseReport.decodeUrxvt [0x1B, 0x5B, 0x4D, b, c, r] = none := by
  obtain ⟨ps, hps⟩ := params_final [b, c]
  rw [MouseReport.decodeUrxvt]
  change (match MouseReport.params [0x4D, b, c], some r with
    | [some code, some col, some row], some 0x4D =>
        if 32 ≤ code then some (MouseReport.ofFields (code - 32) col row) else none
    | _, _ => none) = none
  rw [hps]

theorem decode_default (hcb : ButtonCode cb) (hcol : 1 ≤ col1) (hrow : 1 ≤ row1) :
    MouseReport.decode .default (encodeMouseReport .default cb col1 row1 release) =
      some (MouseReport.ofFields (sentCode cb release) (min col1 223) (min row1 223)) := by
  rw [encode_offset (by decide)]
  exact decodeOffset_byte hcb hcol hrow

theorem decode_utf8 (release : Bool) (hcb : ButtonCode cb) (hcol : 1 ≤ col1) (hrow : 1 ≤ row1) :
    MouseReport.decode .utf8 (encodeMouseReport .utf8 cb col1 row1 release) =
      if cb ≤ 95 ∧ col1 ≤ 95 ∧ row1 ≤ 95 then
        some (MouseReport.ofFields (sentCode cb release) (min col1 223) (min row1 223))
      else none := by
  rw [encode_offset (by decide)]
  refine (decodeOffset_utf8 _ _ _).trans ?_
  rw [decodeOffset_byte hcb hcol hrow]
  simp only [mouseByte_lt_iff, sentCode_le_iff (show 95 % 4 = 3 from rfl)]

theorem decode_urxvt :
    MouseReport.decode .urxvt (encodeMouseReport .urxvt cb col1 row1 release) = none := by
  rw [encode_offset (by decide)]
  exact decodeUrxvt_offset _ _ _

end Legacy

theorem report_decodable_iff (enc : MouseEncoding) (cb col1 row1 : Nat) (release : Bool)
    (hcb : ButtonCode cb) (hcol : 1 ≤ col1) (hrow : 1 ≤ row1) :
    Decodable enc cb col1 row1 release ↔ DecodableWhen enc cb col1 row1 release := by
  cases enc with
  | sgr =>
    rw [decodable_of_some (decode_sgr cb col1 row1 release), eventReport, bne_self_eq_false,
      Bool.and_false]
    exact iff_of_true rfl trivial
  | default =>
    rw [decodable_of_some (decode_default hcb hcol hrow), ofFields_eq_iff (by decide) hcb,
      DecodableWhen, min_eq_left_iff, min_eq_left_iff]
  | utf8 =>
    have hdecode := decode_utf8 release hcb hcol hrow
    rw [DecodableWhen]
    split at hdecode
    · next hlow =>
      rw [decodable_of_some hdecode, ofFields_eq_iff (by decide) hcb]
      constructor
      · rintro ⟨-, -, hrelease⟩
        exact .inl ⟨hlow.1, hlow.2.1, hlow.2.2, hrelease⟩
      · rintro (⟨-, -, -, hrelease⟩ | hout)
        · exact ⟨by omega, by omega, hrelease⟩
        · exact absurd ⟨by omega, by omega⟩ hout
    · next hhigh =>
      rw [decodable_of_none hdecode]
      simp only [Representable]
      omega
  | urxvt =>
    rw [decodable_of_none decode_urxvt]
    exact iff_of_false (fun h => h ⟨trivial, trivial⟩) id

theorem report_decodable_iff_corner :
    Decodable .utf8 0 80 24 false ↔ DecodableWhen .utf8 0 80 24 false :=
  report_decodable_iff .utf8 0 80 24 false ⟨by decide, by decide⟩ (by decide) (by decide)

theorem urxvt_report_undecodable :
    ¬ ∀ (enc : MouseEncoding) (cb col1 row1 : Nat) (release : Bool), ButtonCode cb → 1 ≤ col1 →
      1 ≤ row1 → Decodable enc cb col1 row1 release := by
  intro h
  have hreport := (h .urxvt 0 5 3 false ⟨by decide, by decide⟩ (by decide) (by decide)).inRange
    trivial trivial
  rw [decode_urxvt] at hreport
  cases hreport

end Ui
