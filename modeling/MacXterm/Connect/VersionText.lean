import MacXterm.Connect.VncConnection
import MacXterm.Qt.Number

namespace Connect

open Qt

namespace Rfb

structure Field (f : QByteArray) : Prop where
  length : f.length = 3
  digit : ∀ c ∈ f, 0x30 ≤ c ∧ c ≤ 0x39

def VersionText (b : QByteArray) : Prop :=
  ∃ major minor, Field major ∧ Field minor ∧
    b = toUtf8 "RFB " ++ major ++ toUtf8 "." ++ minor ++ toUtf8 "\n"

structure VersionExact (b : QByteArray) : Prop where
  grammar : (parseVersion b).isSome ↔ VersionText (b.take 12)
  echo : ∀ v, parseVersion b = some v → formatVersion v = b.take 12

structure Framed (b : QByteArray) : Prop where
  size : 12 ≤ b.length
  name : b.take 4 = toUtf8 "RFB "
  newline : byteAt b 11 = 0x0A

structure Numeric (b : QByteArray) : Prop where
  major : (bytesToInt (mid b 4 3)).isSome
  minor : (bytesToInt (mid b 8 3)).isSome

structure Dotted (b : QByteArray) : Prop where
  dot : byteAt b 7 = 0x2E
  major : ∀ c ∈ mid b 4 3, 0x30 ≤ c ∧ c ≤ 0x39
  minor : ∀ c ∈ mid b 8 3, 0x30 ≤ c ∧ c ≤ 0x39

def chars (f : QByteArray) : QString := f.map fun c => .ofNat c.toNat

section Digits

variable {f : QByteArray}

theorem toNat_char {c : UInt8} (h : c ≤ 0x39) : (Char.ofNat c.toNat).toNat = c.toNat := by
  have hle : c.toNat ≤ 57 := UInt8.le_iff_toNat_le.mp h
  have hvalid : c.toNat.isValidChar := Or.inl (by omega)
  rw [Char.ofNat, dif_pos hvalid]
  rfl

theorem isDigit_chars (hf : ∀ c ∈ f, 0x30 ≤ c ∧ c ≤ 0x39) :
    ∀ c ∈ chars f, c.isDigit = true := by
  intro c hc
  obtain ⟨d, hd, rfl⟩ := List.mem_map.mp hc
  have hlow : 48 ≤ d.toNat := UInt8.le_iff_toNat_le.mp (hf d hd).1
  have hhigh : d.toNat ≤ 57 := UInt8.le_iff_toNat_le.mp (hf d hd).2
  rw [isDigit_iff, toNat_char (hf d hd).2]
  exact ⟨hlow, hhigh⟩

theorem toUtf8_chars (hf : ∀ c ∈ f, 0x30 ≤ c ∧ c ≤ 0x39) : toUtf8 (chars f) = f := by
  induction f with
  | nil => rfl
  | cons c f ih =>
    have hrest := ih fun d hd => hf d (List.mem_cons_of_mem c hd)
    have hc := (hf c List.mem_cons_self).2
    have hhigh : c.toNat ≤ 57 := UInt8.le_iff_toNat_le.mp hc
    have hchar := toNat_char hc
    rw [chars, List.map_cons, toUtf8_cons, encode_ascii (by omega), hchar, UInt8.ofNat_toNat]
    exact congrArg (c :: ·) hrest

theorem bytesToInt_digits (hf : ∀ c ∈ f, 0x30 ≤ c ∧ c ≤ 0x39) :
    bytesToInt f = toInt (chars f) := by
  have hstop : f.takeWhile (· != 0) = f := by
    rw [List.takeWhile_eq_self_iff]
    intro c hc
    have hlow : 48 ≤ c.toNat := UInt8.le_iff_toNat_le.mp (hf c hc).1
    rw [bne_iff_ne]
    rintro rfl
    exact absurd hlow (by decide)
  have hmap : (f.map fun c => if c < 0x80 then Char.ofNat c.toNat else '\uFFFD') = chars f := by
    refine List.map_congr_left fun c hc => ?_
    have hhigh : c.toNat ≤ 57 := UInt8.le_iff_toNat_le.mp (hf c hc).2
    have hlow : c < 0x80 := UInt8.lt_iff_toNat_lt.mpr (show c.toNat < 128 by omega)
    rw [if_pos hlow]
  rw [bytesToInt, hstop, hmap]

theorem length_toUtf8_digits {s : QString} (hs : ∀ c ∈ s, c.isDigit = true) :
    (toUtf8 s).length = s.length := by
  induction s with
  | nil => rfl
  | cons c s ih =>
    have hc := isDigit_iff.mp (hs c List.mem_cons_self)
    rw [toUtf8_cons, encode_ascii (by omega), List.length_append, List.length_singleton,
      ih fun d hd => hs d (List.mem_cons_of_mem c hd), List.length_cons, Nat.add_comm]

end Digits

theorem Field.value {f : QByteArray} (hf : Field f) :
    ∃ n, bytesToInt f = some n ∧ rightJustified (toUtf8 (number n)) 3 0x30 = f := by
  have hdigit := isDigit_chars hf.digit
  have hlength : (chars f).length = 3 := (List.length_map _).trans hf.length
  have hne : chars f ≠ [] := List.ne_nil_of_length_pos (by omega)
  have hbound := ofDigitChars_lt hdigit
  have hpad := toDigits_ofDigitChars hdigit hne
  rw [hlength] at hbound hpad
  generalize hn : Nat.ofDigitChars 10 (chars f) 0 = n at hbound hpad
  refine ⟨n, ?_, ?_⟩
  · rw [bytesToInt_digits hf.digit, toInt_eq, decimal_eq hdigit hne, hn]
    simp only [Option.filter_some, Bool.and_eq_true, decide_eq_true_eq]
    rw [if_pos (by omega)]
  · have hnumber (c : Char) (hc : c ∈ Nat.toDigits 10 n) : c.isDigit = true :=
      Nat.isDigit_of_mem_toDigits (by decide) (by decide) hc
    have hzeros (k : Nat) : List.replicate k (0x30 : UInt8) = toUtf8 (List.replicate k '0') := by
      induction k with
      | zero => rfl
      | succ k ih =>
        rw [List.replicate_succ, List.replicate_succ, toUtf8_cons, ih]
        rfl
    rw [rightJustified, number_natCast, length_toUtf8_digits hnumber, hzeros, ← toUtf8_append,
      hpad, toUtf8_chars hf.digit]

section Version

variable {b : QByteArray}

theorem parseVersion_isSome_iff :
    (parseVersion b).isSome ↔ Framed b ∧ Numeric b := by
  unfold parseVersion
  split
  · rename_i h
    refine ⟨nofun, fun hb => ?_⟩
    rcases h with h | h | h
    · exact absurd hb.1.size (by omega)
    · exact absurd hb.1.name h
    · exact absurd hb.1.newline h
  · rename_i h
    push Not at h
    have hframed : Framed b := ⟨h.1, h.2.1, h.2.2⟩
    split
    · rename_i major minor hmajor hminor
      exact ⟨fun _ => ⟨hframed, hmajor ▸ rfl, hminor ▸ rfl⟩, fun _ => rfl⟩
    · rename_i h
      refine ⟨nofun, fun hb => ?_⟩
      obtain ⟨major, hmajor⟩ := Option.isSome_iff_exists.mp hb.2.major
      obtain ⟨minor, hminor⟩ := Option.isSome_iff_exists.mp hb.2.minor
      exact (h major minor hmajor hminor).elim

theorem take_version (h : 12 ≤ b.length) :
    b.take 12 =
      b.take 4 ++ mid b 4 3 ++ [byteAt b 7] ++ mid b 8 3 ++ [byteAt b 11] := by
  have hmajor : b.take 4 ++ mid b 4 3 = b.take 7 := take_append_mid b 4 3 (by omega)
  have hdot : b.take 7 ++ [byteAt b 7] = b.take 8 := take_append_byteAt b 7 (by omega)
  have hminor : b.take 8 ++ mid b 8 3 = b.take 11 := take_append_mid b 8 3 (by omega)
  have hnewline : b.take 11 ++ [byteAt b 11] = b.take 12 := take_append_byteAt b 11 (by omega)
  rw [hmajor, hdot, hminor, hnewline]

theorem length_field {pos : Int} (hpos : 0 ≤ pos) (h : pos + 3 ≤ b.length) :
    (mid b pos 3).length = 3 := by
  have hmid := length_mid hpos (show (0 : Int) ≤ 3 by decide) h
  omega

theorem versionText_iff : VersionText (b.take 12) ↔ Framed b ∧ Dotted b := by
  constructor
  · rintro ⟨major, minor, hmajor, hminor, htext⟩
    have hsize : 12 ≤ b.length := by
      have hlength := congrArg List.length htext
      have hname : (toUtf8 "RFB ").length = 4 := rfl
      have hdot : (toUtf8 ".").length = 1 := rfl
      have hnewline : (toUtf8 "\n").length = 1 := rfl
      simp only [List.length_append, List.length_take, hmajor.length, hminor.length, hname, hdot,
        hnewline] at hlength
      omega
    have hfield : (mid b 4 3).length = 3 := length_field (by decide) (by omega)
    have hfield' : (mid b 8 3).length = 3 := length_field (by decide) (by omega)
    rw [take_version hsize] at htext
    obtain ⟨hfront, hnewline⟩ := List.append_inj' htext rfl
    obtain ⟨hdotted, hminor'⟩ := List.append_inj' hfront (hfield'.trans hminor.length.symm)
    obtain ⟨hnamed, hdot⟩ := List.append_inj' hdotted rfl
    obtain ⟨hname, hmajor'⟩ := List.append_inj' hnamed (hfield.trans hmajor.length.symm)
    exact ⟨⟨hsize, hname, (List.cons.inj hnewline).1⟩,
      (List.cons.inj hdot).1, hmajor' ▸ hmajor.digit, hminor' ▸ hminor.digit⟩
  · rintro ⟨hframed, hdotted⟩
    have hsize := hframed.size
    refine ⟨mid b 4 3, mid b 8 3, ⟨length_field (by decide) (by omega), hdotted.major⟩,
      ⟨length_field (by decide) (by omega), hdotted.minor⟩, ?_⟩
    rw [take_version hframed.size, hframed.name, hframed.newline, hdotted.dot]
    rfl

theorem Dotted.field_major (hframed : Framed b) (h : Dotted b) : Field (mid b 4 3) := by
  have hsize := hframed.size
  exact ⟨length_field (by decide) (by omega), h.major⟩

theorem Dotted.field_minor (hframed : Framed b) (h : Dotted b) : Field (mid b 8 3) := by
  have hsize := hframed.size
  exact ⟨length_field (by decide) (by omega), h.minor⟩

theorem Dotted.numeric (hframed : Framed b) (h : Dotted b) : Numeric b := by
  obtain ⟨major, hmajor, -⟩ := (h.field_major hframed).value
  obtain ⟨minor, hminor, -⟩ := (h.field_minor hframed).value
  exact ⟨hmajor ▸ rfl, hminor ▸ rfl⟩

theorem format_parse (hframed : Framed b) (h : Dotted b) {v : Version}
    (hparse : parseVersion b = some v) : formatVersion v = b.take 12 := by
  obtain ⟨major, hmajor, hmajor'⟩ := (h.field_major hframed).value
  obtain ⟨minor, hminor, hminor'⟩ := (h.field_minor hframed).value
  have hsize := hframed.size
  have hbad : ¬ (b.length < 12 ∨ b.take 4 ≠ toUtf8 "RFB " ∨ byteAt b 11 ≠ 0x0A) := by
    rintro (hshort | hname | hnewline)
    · omega
    · exact hname hframed.name
    · exact hnewline hframed.newline
  rw [parseVersion, if_neg hbad, hmajor, hminor] at hparse
  obtain rfl := Option.some.inj hparse
  rw [formatVersion, hmajor', hminor', take_version hsize, hframed.name, h.dot, hframed.newline]
  rfl

end Version

end Rfb

namespace VncConnection

open Rfb

theorem version_echoed {z : Zlib} {c c' : VncConnection z} {out : List Event}
    (h : VersionExact (c.buf.take 12)) (hgo : c.readVersion = .go c' out) :
    out = [.write (c.buf.take 12)] := by
  unfold readVersion at hgo
  split at hgo
  · cases hgo
  · split at hgo
    · cases hgo
    · rename_i v hparse
      obtain ⟨-, rfl⟩ := Turn.go.inj hgo
      rw [h.echo v hparse, List.take_take]
      rfl

end VncConnection

end Connect
