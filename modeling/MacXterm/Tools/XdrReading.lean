import MacXterm.Tools.Xdr

namespace Xdr

open Qt

namespace XdrWriter

variable (w : XdrWriter)

theorem u64_data (v : UInt64) :
    (w.u64 v).data =
      w.data ++ (BigEndian.bytes32 (v >>> 32).toUInt32 ++ BigEndian.bytes32 v.toUInt32) :=
  List.append_assoc _ _ _

variable {w} (hw : w.data.length % 4 = 0)

include hw

theorem opaqueFixed_data (b : QByteArray) :
    (w.opaqueFixed b).data = w.data ++ (b ++ List.replicate (padding b.length) 0) := by
  have hpad : padding (w.data ++ b).length = padding b.length := by
    rw [List.length_append, padding, padding]
    omega
  rw [opaqueFixed, hpad, List.append_assoc]

theorem opaqueVar_data (b : QByteArray) :
    (w.opaqueVar b).data = w.data ++ (BigEndian.bytes32 (.ofNat b.length) ++
      (b ++ List.replicate (padding b.length) 0)) := by
  have hword : (w.u32 (.ofNat b.length)).data.length % 4 = 0 := by
    rw [u32, List.length_append, BigEndian.length_bytes32]
    omega
  rw [opaqueVar, opaqueFixed_data hword, u32, List.append_assoc]

end XdrWriter

namespace XdrReader

structure At (r : XdrReader) (bytes : QByteArray) : Prop where
  within : r.pos ≤ r.buf.length
  left : r.buf.drop r.pos = bytes

variable {r : XdrReader} {rest : QByteArray}

theorem at_start (bytes : QByteArray) : At ⟨bytes, 0⟩ bytes := ⟨Nat.zero_le _, rfl⟩

theorem At.length (h : r.At rest) : r.buf.length = r.pos + rest.length := by
  have hlen := congrArg List.length h.left
  have hwithin := h.within
  rw [List.length_drop] at hlen
  omega

theorem At.skip {bytes : QByteArray} (h : r.At (bytes ++ rest)) :
    At { r with pos := r.pos + bytes.length } rest := by
  have hlen := h.length
  rw [List.length_append] at hlen
  refine ⟨?_, ?_⟩
  · change r.pos + bytes.length ≤ r.buf.length
    omega
  · change r.buf.drop (r.pos + bytes.length) = rest
    rw [← List.drop_drop, h.left, List.drop_left]

theorem At.u32 {v : UInt32} (h : r.At (BigEndian.bytes32 v ++ rest)) :
    ∃ r', r.u32 = (v, true, r') ∧ r'.At rest := by
  refine ⟨{ r with pos := r.pos + 4 }, ?_, h.skip⟩
  simp only [XdrReader.u32, h.left, BigEndian.bytes32, List.cons_append, BigEndian.word32_bytes32]

theorem At.u64 {hi lo : UInt32}
    (h : r.At (BigEndian.bytes32 hi ++ (BigEndian.bytes32 lo ++ rest))) :
    ∃ r', r.u64 = (hi.toUInt64 <<< 32 ||| lo.toUInt64, true, r') ∧ r'.At rest := by
  obtain ⟨r₁, h₁, hr₁⟩ := h.u32
  obtain ⟨r₂, h₂, hr₂⟩ := hr₁.u32
  exact ⟨r₂, by simp only [XdrReader.u64, h₁, h₂, Bool.and_self], hr₂⟩

theorem word64_halves (v : UInt64) :
    (v >>> 32).toUInt32.toUInt64 <<< 32 ||| v.toUInt32.toUInt64 = v := by
  apply UInt64.toNat_inj.mp
  have hlt := v.toNat_lt
  have hthirty : (32 : UInt64).toNat % 64 = 32 := by decide
  have hhigh : v.toNat / 2 ^ 32 < 2 ^ 32 := by omega
  have hhi : ((v >>> 32).toUInt32.toUInt64 <<< 32).toNat = (v.toNat / 2 ^ 32) <<< 32 := by
    rw [UInt64.toNat_shiftLeft, UInt32.toNat_toUInt64, UInt64.toNat_toUInt32,
      UInt64.toNat_shiftRight, hthirty, Nat.shiftRight_eq_div_pow, Nat.mod_eq_of_lt hhigh,
      Nat.shiftLeft_eq, Nat.mod_eq_of_lt (by omega)]
  have hlo : v.toUInt32.toUInt64.toNat = v.toNat % 2 ^ 32 := by
    rw [UInt32.toNat_toUInt64, UInt64.toNat_toUInt32]
  have hmod : v.toNat % 2 ^ 32 < 2 ^ 32 := Nat.mod_lt _ (by decide)
  rw [UInt64.toNat_or, hhi, hlo, ← Nat.shiftLeft_add_eq_or_of_lt hmod, Nat.shiftLeft_eq]
  omega

theorem At.u64_written {v : UInt64} (h : r.At (BigEndian.bytes32 (v >>> 32).toUInt32 ++
    (BigEndian.bytes32 v.toUInt32 ++ rest))) : ∃ r', r.u64 = (v, true, r') ∧ r'.At rest := by
  obtain ⟨r', hread, hat⟩ := h.u64
  exact ⟨r', by rw [hread, word64_halves], hat⟩

theorem At.padded {body fill : QByteArray} (hfill : fill.length = padding body.length)
    (h : r.At (body ++ (fill ++ rest))) :
    ∃ r', r.opaqueFixed body.length = (body, true, r') ∧ r'.At rest := by
  have hlen := h.length
  have hrest := h.skip.skip
  simp only [List.length_append, hfill] at hlen hrest
  refine ⟨{ r with pos := r.pos + (body.length + padding body.length) }, ?_, ?_⟩
  · rw [XdrReader.opaqueFixed, if_neg (by omega), h.left, List.take_left]
  · rwa [← Nat.add_assoc]

theorem At.opaqueFixed {bytes : QByteArray}
    (h : r.At (bytes ++ (List.replicate (padding bytes.length) 0 ++ rest))) :
    ∃ r', r.opaqueFixed bytes.length = (bytes, true, r') ∧ r'.At rest :=
  h.padded (List.length_replicate ..)

theorem At.opaqueVar_written {body : QByteArray} (hlen : body.length < 2 ^ 32)
    (h : r.At (BigEndian.bytes32 (.ofNat body.length) ++
      (body ++ (List.replicate (padding body.length) 0 ++ rest)))) :
    ∃ r', r.opaqueVar = (body, true, r') ∧ r'.At rest := by
  obtain ⟨r₁, h₁, hr₁⟩ := h.u32
  obtain ⟨r₂, h₂, hr₂⟩ := hr₁.opaqueFixed
  have hcount : (UInt32.ofNat body.length).toNat = body.length := UInt32.toNat_ofNat_of_lt' hlen
  have htotal := hr₁.length
  rw [List.length_append] at htotal
  have hfits : ¬ body.length > r₁.buf.length := by omega
  refine ⟨r₂, ?_, hr₂⟩
  simp only [XdrReader.opaqueVar, h₁, hcount, Bool.not_true, Bool.false_or, decide_eq_true_eq,
    if_neg hfits, h₂]

section Cases

variable {bytes : QByteArray}

theorem At.u32_cases (h : r.At bytes) :
    bytes.length < 4 ∧ r.u32 = (0, false, r) ∨
      ∃ v rest r', bytes = BigEndian.bytes32 v ++ rest ∧ r.u32 = (v, true, r') ∧ r'.At rest := by
  match bytes, h with
  | [], h => exact .inl ⟨by simp, by rw [XdrReader.u32, h.left]⟩
  | [_], h => exact .inl ⟨by simp, by rw [XdrReader.u32, h.left]⟩
  | [_, _], h => exact .inl ⟨by simp, by rw [XdrReader.u32, h.left]⟩
  | [_, _, _], h => exact .inl ⟨by simp, by rw [XdrReader.u32, h.left]⟩
  | b0 :: b1 :: b2 :: b3 :: rest, h =>
    have hword : b0 :: b1 :: b2 :: b3 :: rest =
        BigEndian.bytes32 (BigEndian.word32 b0 b1 b2 b3) ++ rest := by
      rw [BigEndian.bytes32_word32]
      rfl
    rw [hword] at h
    obtain ⟨r', hread, hat⟩ := h.u32
    exact .inr ⟨_, rest, r', hword, hread, hat⟩

theorem At.u32_short (h : r.At bytes) (hlen : bytes.length < 4) : r.u32 = (0, false, r) := by
  rcases h.u32_cases with ⟨-, hread⟩ | ⟨v, rest, r', rfl, -, -⟩
  · exact hread
  · rw [List.length_append, BigEndian.length_bytes32] at hlen
    omega

theorem At.opaqueFixed_short {n : Nat} (h : r.At bytes) (hlen : bytes.length < n + padding n) :
    r.opaqueFixed n = ([], false, r) := by
  have htotal := h.length
  exact if_pos (by omega)

theorem At.opaqueFixed_long {n : Nat} (h : r.At bytes) (hlen : n + padding n ≤ bytes.length) :
    ∃ body fill rest r', body.length = n ∧ fill.length = padding n ∧
      bytes = body ++ fill ++ rest ∧ r.opaqueFixed n = (body, true, r') ∧ r'.At rest := by
  have hsplit : bytes = bytes.take n ++ (bytes.drop n).take (padding n) ++
      bytes.drop (n + padding n) := by
    rw [← List.drop_drop, List.append_assoc, List.take_append_drop, List.take_append_drop]
  have hbody : (bytes.take n).length = n := by
    rw [List.length_take]
    omega
  have hfill : ((bytes.drop n).take (padding n)).length = padding n := by
    rw [List.length_take, List.length_drop]
    omega
  rw [hsplit, List.append_assoc] at h
  obtain ⟨r', hread, hat⟩ := h.padded (by rw [hbody, hfill])
  rw [hbody] at hread
  exact ⟨_, _, _, r', hbody, hfill, hsplit, hread, hat⟩

theorem At.opaqueVar_cases (h : r.At bytes) :
    bytes.length < 4 ∧ r.opaqueVar = ([], false, r) ∨
      (∃ n tail r', bytes = BigEndian.bytes32 n ++ tail ∧ tail.length < n.toNat + padding n.toNat ∧
        r.opaqueVar = ([], false, r') ∧ r'.At tail) ∨
      ∃ n body fill rest r', body.length = n.toNat ∧ fill.length = padding n.toNat ∧
        bytes = BigEndian.bytes32 n ++ (body ++ fill ++ rest) ∧
        r.opaqueVar = (body, true, r') ∧ r'.At rest := by
  rcases h.u32_cases with ⟨hshort, hread⟩ | ⟨n, tail, r', rfl, hread, hat⟩
  · exact .inl ⟨hshort, by simp [XdrReader.opaqueVar, hread]⟩
  have htotal := hat.length
  by_cases hlen : tail.length < n.toNat + padding n.toNat
  · refine .inr (.inl ⟨n, tail, r', rfl, hlen, ?_, hat⟩)
    simp only [XdrReader.opaqueVar, hread, hat.opaqueFixed_short hlen, ite_self]
  · obtain ⟨body, fill, rest, r'', hbody, hfill, rfl, hfixed, hat'⟩ :=
      hat.opaqueFixed_long (Nat.not_lt.mp hlen)
    refine .inr (.inr ⟨n, body, fill, rest, r'', hbody, hfill, rfl, ?_, hat'⟩)
    simp only [List.length_append] at htotal
    have hfits : ¬ n.toNat > r'.buf.length := by omega
    simp only [XdrReader.opaqueVar, hread, Bool.not_true, Bool.false_or, decide_eq_true_eq,
      if_neg hfits, hfixed]

end Cases

end XdrReader

-- What has been written since w is there for a reader to read: P relates the reader before and
-- after it.
def Written (w w' : XdrWriter) (P : XdrReader → XdrReader → Prop) : Prop :=
  ∃ b, w'.data = w.data ++ b ∧ b.length % 4 = 0 ∧
    ∀ r rest, r.At (b ++ rest) → ∃ r', P r r' ∧ r'.At rest

namespace Written

variable {w w₁ w₂ : XdrWriter} {P Q : XdrReader → XdrReader → Prop}

theorem aligned (h : Written w w₁ P) (hw : w.data.length % 4 = 0) : w₁.data.length % 4 = 0 := by
  obtain ⟨b, hdata, hb, -⟩ := h
  rw [hdata, List.length_append]
  omega

theorem extends_data (h : Written w w₁ P) : w.data <+: w₁.data := by
  obtain ⟨b, hdata, -, -⟩ := h
  exact ⟨b, hdata.symm⟩

theorem trans (h : Written w w₁ P) (h' : Written w₁ w₂ Q) :
    Written w w₂ fun r r'' => ∃ r', P r r' ∧ Q r' r'' := by
  obtain ⟨b₁, hdata₁, hb₁, hread₁⟩ := h
  obtain ⟨b₂, hdata₂, hb₂, hread₂⟩ := h'
  refine ⟨b₁ ++ b₂, by rw [hdata₂, hdata₁, List.append_assoc], ?_, fun r rest hr => ?_⟩
  · rw [List.length_append]
    omega
  · rw [List.append_assoc] at hr
    obtain ⟨r₁, hP, hr₁⟩ := hread₁ r _ hr
    obtain ⟨r₂, hQ, hr₂⟩ := hread₂ r₁ rest hr₁
    exact ⟨r₂, ⟨r₁, hP, hQ⟩, hr₂⟩

theorem mono (h : Written w w₁ P) (hPQ : ∀ r r', P r r' → Q r r') : Written w w₁ Q := by
  obtain ⟨b, hdata, hb, hread⟩ := h
  refine ⟨b, hdata, hb, fun r rest hr => ?_⟩
  obtain ⟨r', hP, hr'⟩ := hread r rest hr
  exact ⟨r', hPQ r r' hP, hr'⟩

theorem u32 (w : XdrWriter) (v : UInt32) : Written w (w.u32 v) fun r r' => r.u32 = (v, true, r') :=
  ⟨BigEndian.bytes32 v, rfl, by rw [BigEndian.length_bytes32], fun _ _ hr => hr.u32⟩

theorem u64 (w : XdrWriter) (v : UInt64) :
    Written w (w.u64 v) fun r r' => r.u64 = (v, true, r') := by
  refine ⟨_, XdrWriter.u64_data w v, ?_, fun r rest hr => ?_⟩
  · rw [List.length_append, BigEndian.length_bytes32, BigEndian.length_bytes32]
  · rw [List.append_assoc] at hr
    exact hr.u64_written

theorem length_padded (b : QByteArray) : (b ++ List.replicate (padding b.length) 0).length % 4 = 0 := by
  rw [List.length_append, List.length_replicate, padding]
  omega

theorem opaqueFixed (hw : w.data.length % 4 = 0) (b : QByteArray) :
    Written w (w.opaqueFixed b) fun r r' => r.opaqueFixed b.length = (b, true, r') := by
  refine ⟨_, XdrWriter.opaqueFixed_data hw b, length_padded b, fun r rest hr => ?_⟩
  rw [List.append_assoc] at hr
  exact hr.opaqueFixed

theorem opaqueVar (hw : w.data.length % 4 = 0) {b : QByteArray} (hb : b.length < 2 ^ 32) :
    Written w (w.opaqueVar b) fun r r' => r.opaqueVar = (b, true, r') := by
  refine ⟨_, XdrWriter.opaqueVar_data hw b, ?_, fun r rest hr => ?_⟩
  · have hpadded := length_padded b
    rw [List.length_append, BigEndian.length_bytes32]
    omega
  · simp only [List.append_assoc] at hr
    exact hr.opaqueVar_written hb

theorem read (h : Written w w₁ P) :
    ∃ r', P ⟨w₁.data, w.data.length⟩ r' ∧ r'.At [] := by
  obtain ⟨b, hdata, -, hread⟩ := h
  have hat := (XdrReader.at_start (w.data ++ (b ++ []))).skip
  simp only [Nat.zero_add, List.append_nil] at hat
  rw [hdata]
  exact hread _ [] (by rwa [List.append_nil])

end Written

end Xdr
