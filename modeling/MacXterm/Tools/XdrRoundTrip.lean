import MacXterm.Tools.XdrCursor

namespace Xdr

open Qt

inductive XdrType where
  | u32
  | u64
  | opaqueFixed (n : Nat)
  | opaqueVar
  | str
  deriving DecidableEq

inductive XdrItem where
  | u32 (v : UInt32)
  | u64 (v : UInt64)
  | opaqueFixed (b : QByteArray)
  | opaqueVar (b : QByteArray)
  | str (s : QString)
  deriving DecidableEq

namespace XdrItem

def type : XdrItem → XdrType
  | u32 _ => .u32
  | u64 _ => .u64
  | opaqueFixed b => .opaqueFixed b.length
  | opaqueVar _ => .opaqueVar
  | str _ => .str

def write (w : XdrWriter) : XdrItem → XdrWriter
  | u32 v => w.u32 v
  | u64 v => w.u64 v
  | opaqueFixed b => w.opaqueFixed b
  | opaqueVar b => w.opaqueVar b
  | str s => w.str s

def paddedBytes (b : QByteArray) : QByteArray := b ++ List.replicate (padding b.length) 0

def bytes : XdrItem → QByteArray
  | u32 v => BigEndian.bytes32 v
  | u64 v => BigEndian.bytes32 (v >>> 32).toUInt32 ++ BigEndian.bytes32 v.toUInt32
  | opaqueFixed b => paddedBytes b
  | opaqueVar b => BigEndian.bytes32 (.ofNat b.length) ++ paddedBytes b
  | str s => BigEndian.bytes32 (.ofNat (toUtf8 s).length) ++ paddedBytes (toUtf8 s)

-- QString::fromUtf8 leaves out a byte order mark at the start.
def heard : XdrItem → XdrItem
  | str s => .str (dropBom s)
  | item => item

end XdrItem

def writeAll (items : List XdrItem) : XdrWriter := items.foldl (fun w i => i.write w) ⟨[]⟩

namespace XdrType

def read (c : XdrCursor) : XdrType → XdrItem × Bool × XdrCursor
  | u32 => c.u32.map .u32 id
  | u64 => c.u64.map .u64 id
  | opaqueFixed n => (c.opaqueFixed (int32 n)).map .opaqueFixed id
  | opaqueVar => c.opaqueVar.map .opaqueVar id
  | str => c.str.map .str id

def scan (r : XdrReader) : XdrType → XdrItem × Bool × XdrReader
  | u32 => r.u32.map .u32 id
  | u64 => r.u64.map .u64 id
  | opaqueFixed n => (r.opaqueFixed n).map .opaqueFixed id
  | opaqueVar => r.opaqueVar.map .opaqueVar id
  | str => r.str.map .str id

end XdrType

def readAll : List XdrType → XdrCursor → List (XdrItem × Bool) × XdrCursor
  | [], c => ([], c)
  | t :: ts, c =>
      let (item, ok, c) := t.read c
      let (items, c) := readAll ts c
      ((item, ok) :: items, c)

structure RoundTrip (items : List XdrItem) : Prop where
  read : readAll (items.map (·.type)) ⟨(writeAll items).data, 0⟩ =
    (items.map fun i => (i, true), ⟨(writeAll items).data, (writeAll items).data.length⟩)
  aligned : ∀ written, written <+: items → (writeAll written).data.length % 4 = 0
  truncated : ∀ p, p <+: (writeAll items).data → p ≠ (writeAll items).data →
    ∃ before item after flags, items = before ++ item :: after ∧
      (writeAll before).data.length ≤ p.length ∧
      p.length < (writeAll (before ++ [item])).data.length ∧
      (readAll (items.map (·.type)) ⟨p, 0⟩).1.map (·.2) =
        List.replicate before.length true ++ false :: flags

section Write

variable {w : XdrWriter} (hw : w.data.length % 4 = 0)

include hw

theorem write_data (i : XdrItem) : (i.write w).data = w.data ++ i.bytes := by
  cases i with
  | u32 v => rfl
  | u64 v => exact XdrWriter.u64_data w v
  | opaqueFixed b => exact XdrWriter.opaqueFixed_data hw b
  | opaqueVar b => exact XdrWriter.opaqueVar_data hw b
  | str s => exact XdrWriter.opaqueVar_data hw (toUtf8 s)

omit hw in
theorem length_bytes (i : XdrItem) : i.bytes.length % 4 = 0 := by
  cases i with
  | u32 v => rw [XdrItem.bytes, BigEndian.length_bytes32]
  | u64 v =>
    rw [XdrItem.bytes, List.length_append, BigEndian.length_bytes32, BigEndian.length_bytes32]
  | opaqueFixed b => exact Written.length_padded b
  | opaqueVar b =>
    have hpadded := Written.length_padded b
    rw [XdrItem.bytes, List.length_append, BigEndian.length_bytes32, XdrItem.paddedBytes]
    omega
  | str s =>
    have hpadded := Written.length_padded (toUtf8 s)
    rw [XdrItem.bytes, List.length_append, BigEndian.length_bytes32, XdrItem.paddedBytes]
    omega

theorem foldl_write_data (items : List XdrItem) :
    (items.foldl (fun w i => i.write w) w).data = w.data ++ items.flatMap (·.bytes) := by
  induction items generalizing w with
  | nil => exact (List.append_nil _).symm
  | cons i items ih =>
    have hnext : (i.write w).data.length % 4 = 0 := by
      have hbytes := length_bytes i
      rw [write_data hw, List.length_append]
      omega
    rw [List.foldl_cons, ih hnext, write_data hw, List.flatMap_cons, List.append_assoc]

end Write

theorem writeAll_data (items : List XdrItem) : (writeAll items).data = items.flatMap (·.bytes) :=
  foldl_write_data rfl items

theorem length_flatMap_bytes (items : List XdrItem) :
    (items.flatMap (·.bytes)).length % 4 = 0 := by
  induction items with
  | nil => rfl
  | cons i items ih =>
    have hbytes := length_bytes i
    rw [List.flatMap_cons, List.length_append]
    omega

section Buffer

variable (r : XdrReader)

theorem u32_buf : r.u32.2.2.buf = r.buf := by
  unfold XdrReader.u32
  split <;> rfl

theorem u64_buf : r.u64.2.2.buf = r.buf := (u32_buf _).trans (u32_buf r)

theorem opaqueFixed_buf (n : Nat) : (r.opaqueFixed n).2.2.buf = r.buf := by
  simp only [XdrReader.opaqueFixed]
  split <;> rfl

theorem opaqueVar_buf : r.opaqueVar.2.2.buf = r.buf := by
  simp only [XdrReader.opaqueVar]
  split
  · exact u32_buf r
  · exact (opaqueFixed_buf _ _).trans (u32_buf r)

theorem scan_buf (t : XdrType) : (t.scan r).2.2.buf = r.buf := by
  cases t with
  | u32 => exact u32_buf r
  | u64 => exact u64_buf r
  | opaqueFixed n => exact opaqueFixed_buf r n
  | opaqueVar => exact opaqueVar_buf r
  | str => exact opaqueVar_buf r

end Buffer

section Scan

variable {r : XdrReader} {q rest : QByteArray}

theorem scan_complete (i : XdrItem) (h : r.At (i.bytes ++ rest)) (hlen : i.bytes.length < 2 ^ 32) :
    ∃ r', i.type.scan r = (i.heard, true, r') ∧ r'.At rest := by
  cases i with
  | u32 v =>
    obtain ⟨r', hread, hat⟩ := XdrReader.At.u32 h
    exact ⟨r', by rw [XdrItem.type, XdrType.scan, hread]; rfl, hat⟩
  | u64 v =>
    rw [XdrItem.bytes, List.append_assoc] at h
    obtain ⟨r', hread, hat⟩ := h.u64_written
    exact ⟨r', by rw [XdrItem.type, XdrType.scan, hread]; rfl, hat⟩
  | opaqueFixed b =>
    rw [XdrItem.bytes, XdrItem.paddedBytes, List.append_assoc] at h
    obtain ⟨r', hread, hat⟩ := h.opaqueFixed
    exact ⟨r', by rw [XdrItem.type, XdrType.scan, hread]; rfl, hat⟩
  | opaqueVar b =>
    simp only [XdrItem.bytes, XdrItem.paddedBytes, List.append_assoc] at h hlen
    simp only [List.length_append] at hlen
    obtain ⟨r', hread, hat⟩ := h.opaqueVar_written (by omega)
    exact ⟨r', by rw [XdrItem.type, XdrType.scan, hread]; rfl, hat⟩
  | str s =>
    simp only [XdrItem.bytes, XdrItem.paddedBytes, List.append_assoc] at h hlen
    simp only [List.length_append] at hlen
    obtain ⟨r', hread, hat⟩ := h.opaqueVar_written (by omega)
    refine ⟨r', ?_, hat⟩
    rw [XdrItem.type, XdrType.scan, XdrReader.str, hread]
    simp only [fromUtf8_toUtf8]
    rfl

theorem word_of_prefix {v n : UInt32} {tail more : QByteArray}
    (h : BigEndian.bytes32 n ++ tail <+: BigEndian.bytes32 v ++ more) : n = v := by
  obtain ⟨x, hx⟩ := h
  rw [List.append_assoc] at hx
  have hword := (List.append_inj hx (by simp only [BigEndian.length_bytes32])).1
  have hread := congrArg (fun b => rd32be (b ++ []) 0) hword
  simpa only [rd32be_bytes32] using hread

theorem opaqueVar_truncated {b : QByteArray} (h : r.At q)
    (hq : q <+: BigEndian.bytes32 (.ofNat b.length) ++ XdrItem.paddedBytes b)
    (hlt : q.length < (BigEndian.bytes32 (.ofNat b.length) ++ XdrItem.paddedBytes b).length)
    (hlen : b.length < 2 ^ 32) : r.opaqueVar.2.1 = false := by
  rcases h.opaqueVar_cases with ⟨-, hread⟩ | ⟨n, tail, r', rfl, -, hread, -⟩ |
    ⟨n, body, fill, more, r', hbody, hfill, rfl, -, -⟩
  · rw [hread]
  · rw [hread]
  · obtain rfl := word_of_prefix hq
    have hcount : (UInt32.ofNat b.length).toNat = b.length := UInt32.toNat_ofNat_of_lt' hlen
    rw [hcount] at hbody hfill
    simp only [List.length_append, XdrItem.paddedBytes, List.length_replicate, hbody, hfill] at hlt
    omega

theorem scan_truncated (i : XdrItem) (h : r.At q) (hq : q <+: i.bytes)
    (hlt : q.length < i.bytes.length) (hlen : i.bytes.length < 2 ^ 32) :
    (i.type.scan r).2.1 = false := by
  cases i with
  | u32 v =>
    rw [XdrItem.bytes, BigEndian.length_bytes32] at hlt
    rw [XdrItem.type, XdrType.scan, h.u32_short hlt]
    rfl
  | u64 v =>
    simp only [XdrItem.bytes, List.length_append, BigEndian.length_bytes32] at hlt
    change r.u64.2.1 = false
    rcases h.u32_cases with ⟨-, hread⟩ | ⟨n, tail, r', rfl, hread, hat⟩
    · simp only [XdrReader.u64, hread, Bool.false_and]
    · rw [List.length_append, BigEndian.length_bytes32] at hlt
      simp only [XdrReader.u64, hread, hat.u32_short (by omega), Bool.and_false]
  | opaqueFixed b =>
    rw [XdrItem.bytes, XdrItem.paddedBytes, List.length_append, List.length_replicate] at hlt
    rw [XdrItem.type, XdrType.scan, h.opaqueFixed_short hlt]
    rfl
  | opaqueVar b =>
    simp only [XdrItem.bytes, XdrItem.paddedBytes, List.length_append] at hlen
    exact opaqueVar_truncated h hq hlt (by omega)
  | str s =>
    simp only [XdrItem.bytes, XdrItem.paddedBytes, List.length_append] at hlen
    exact opaqueVar_truncated h hq hlt (by omega)

-- The position below 2 ^ 31 is enough where what is read starts like the item.
theorem scan_agree (i : XdrItem) {c : XdrCursor} (hc : c.Same r) (h : r.At q)
    (hq : q <+: i.bytes ++ rest) (hpos : r.pos + i.bytes.length < 2 ^ 31)
    (hbuf : r.buf.length < 2 ^ 31) : Agree (i.type.read c) (i.type.scan r) := by
  have hmap {α : Type} {f : α → XdrItem} {a : α × Bool × XdrCursor} {b : α × Bool × XdrReader}
      (hab : Agree a b) : Agree (a.map f id) (b.map f id) :=
    ⟨congrArg f hab.value, hab.ok, hab.same⟩
  have hvar {b : QByteArray} (hq : q <+: BigEndian.bytes32 (.ofNat b.length) ++
      (XdrItem.paddedBytes b ++ rest)) (hpos : r.pos + (4 + (b.length + padding b.length)) < 2 ^ 31) :
      Agree c.opaqueVar r.opaqueVar := by
    refine h.opaqueVar_agree hc (by omega) hbuf fun n r' hread _ => ?_
    rcases h.u32_cases with ⟨-, hnone⟩ | ⟨m, tail, r'', rfl, hsome, -⟩
    · exact Bool.noConfusion (congrArg (·.2.1) (hread.symm.trans hnone))
    · obtain rfl : n = m := congrArg (·.1) (hread.symm.trans hsome)
      have hcount : (UInt32.ofNat b.length).toNat = b.length :=
        UInt32.toNat_ofNat_of_lt' (by change _ < 2 ^ 32; omega)
      rw [ word_of_prefix hq, hcount]
      omega
  cases i with
  | u32 v => exact hmap (h.u32_agree hc hpos)
  | u64 v => exact hmap (h.u64_agree hc hpos)
  | opaqueFixed b =>
    simp only [XdrItem.bytes, XdrItem.paddedBytes, List.length_append,
      List.length_replicate] at hpos
    have hint : int32 b.length = b.length := int32_natCast (by omega)
    rw [XdrItem.type, XdrType.read, hint]
    exact hmap (h.opaqueFixed_agree hc hpos)
  | opaqueVar b =>
    simp only [XdrItem.bytes, XdrItem.paddedBytes, List.length_append, List.length_replicate,
      BigEndian.length_bytes32] at hpos
    rw [XdrItem.bytes, List.append_assoc] at hq
    exact hmap (hvar hq hpos)
  | str s =>
    simp only [XdrItem.bytes, XdrItem.paddedBytes, List.length_append, List.length_replicate,
      BigEndian.length_bytes32] at hpos
    rw [XdrItem.bytes, List.append_assoc] at hq
    obtain ⟨hvalue, hok, hsame⟩ := hvar hq hpos
    exact ⟨congrArg (fun b => XdrItem.str (fromUtf8 b)) hvalue, hok, hsame⟩

end Scan

section Run

variable {r : XdrReader} {c : XdrCursor} {q rest : QByteArray}

theorem read_complete (i : XdrItem) (hc : c.Same r) (h : r.At (i.bytes ++ rest))
    (hbuf : r.buf.length < 2 ^ 31) :
    ∃ r' c', i.type.read c = (i.heard, true, c') ∧ c'.Same r' ∧ r'.At rest ∧ r'.buf = r.buf := by
  have hlen := h.length
  rw [List.length_append] at hlen
  obtain ⟨r', hscan, hat⟩ := scan_complete i h (by omega)
  obtain ⟨hvalue, hok, hsame⟩ := scan_agree i hc h List.prefix_rfl (by omega) hbuf
  have hsame' := congrArg (·.2.2.buf) hscan
  rw [scan_buf] at hsame'
  rw [hscan] at hvalue hok hsame
  exact ⟨r', _, Prod.ext hvalue (Prod.ext hok rfl), hsame, hat, hsame'.symm⟩

theorem readAll_complete (items : List XdrItem) (hc : c.Same r)
    (h : r.At (items.flatMap (·.bytes))) (hbuf : r.buf.length < 2 ^ 31) :
    ∃ r' c', readAll (items.map (·.type)) c = (items.map fun i => (i.heard, true), c') ∧
      c'.Same r' ∧ r'.At [] ∧ r'.buf = r.buf := by
  induction items generalizing r c with
  | nil => exact ⟨r, c, rfl, hc, h, rfl⟩
  | cons i items ih =>
    obtain ⟨r₁, c₁, hread, hsame, hat, hbuf₁⟩ := read_complete i hc h hbuf
    obtain ⟨r₂, c₂, hrest, hsame₂, hat₂, hbuf₂⟩ := ih hsame hat (by rwa [hbuf₁])
    refine ⟨r₂, c₂, ?_, hsame₂, hat₂, hbuf₂.trans hbuf₁⟩
    simp only [List.map_cons, readAll, hread, hrest]

theorem readAll_truncated (items : List XdrItem) (hc : c.Same r) (h : r.At q)
    (hq : q <+: items.flatMap (·.bytes)) (hlt : q.length < (items.flatMap (·.bytes)).length)
    (hpos : r.pos + (items.flatMap (·.bytes)).length < 2 ^ 31) :
    ∃ before item after flags, items = before ++ item :: after ∧
      (before.flatMap (·.bytes)).length ≤ q.length ∧
      q.length < ((before ++ [item]).flatMap (·.bytes)).length ∧
      (readAll (items.map (·.type)) c).1.map (·.2) =
        List.replicate before.length true ++ false :: flags := by
  induction items generalizing r c q with
  | nil => exact absurd hlt (Nat.not_lt_zero _)
  | cons i items ih =>
    rw [List.flatMap_cons] at hq hlt hpos
    rw [List.length_append] at hlt hpos
    have hlen := h.length
    by_cases hfits : i.bytes.length ≤ q.length
    · obtain ⟨q', rfl⟩ : i.bytes <+: q :=
        List.prefix_of_prefix_length_le (List.prefix_append _ _) hq hfits
      rw [List.length_append] at hlt hlen
      obtain ⟨r₁, c₁, hread, hsame, hat, hbuf⟩ := read_complete i hc h (by omega)
      have hpos₁ := hat.length
      rw [hbuf] at hpos₁
      obtain ⟨before, item, after, flags, rfl, hlow, hhigh, hflags⟩ := ih hsame hat
        ((List.prefix_append_right_inj _).mp hq) (by omega) (by omega)
      refine ⟨i :: before, item, after, flags, rfl, ?_, ?_, ?_⟩
      · rw [List.flatMap_cons, List.length_append, List.length_append]
        omega
      · rw [List.cons_append, List.flatMap_cons, List.length_append, List.length_append]
        omega
      · simp only [List.map_cons, readAll, hread, hflags, List.length_cons, List.replicate_succ,
          List.cons_append]
    · have hshort : q <+: i.bytes :=
        List.prefix_of_prefix_length_le hq (List.prefix_append _ _) (by omega)
      have hscan := scan_truncated i h hshort (by omega) (by omega)
      obtain ⟨-, hok, -⟩ := scan_agree i hc h hq (by omega) (by omega)
      refine ⟨[], i, items, (readAll (items.map (·.type)) (i.type.read c).2.2).1.map (·.2), rfl,
        Nat.zero_le _, ?_, ?_⟩
      · simp only [List.nil_append, List.flatMap_cons, List.flatMap_nil, List.append_nil]
        omega
      · simp only [List.map_cons, readAll, hok.trans hscan, List.length_nil, List.replicate_zero,
          List.nil_append]

end Run

theorem readAll_small (types : List XdrType) {c : XdrCursor} (h : c.Small) :
    (readAll types c).2.Small := by
  induction types generalizing c with
  | nil => exact h
  | cons t types ih =>
    refine ih ?_
    cases t with
    | u32 => exact XdrCursor.u32_small h
    | u64 => exact XdrCursor.u64_small h
    | opaqueFixed n => exact XdrCursor.opaqueFixed_small h _
    | opaqueVar => exact XdrCursor.opaqueVar_small h
    | str => exact XdrCursor.opaqueVar_small h

theorem start_small (b : QByteArray) : XdrCursor.Small ⟨b, 0⟩ :=
  (by decide : (0 : Int) < 2 ^ 31)

theorem same_start (b : QByteArray) : XdrCursor.Same ⟨b, 0⟩ ⟨b, 0⟩ := ⟨rfl, rfl⟩

theorem heard_eq_iff (i : XdrItem) :
    i.heard = i ↔ ∀ s, i = .str s → s.head? ≠ some '\uFEFF' := by
  cases i with
  | str s =>
    simp only [XdrItem.heard, XdrItem.str.injEq, forall_eq']
    exact dropBom_eq_iff s
  | u32 v => exact iff_of_true rfl fun _ h => XdrItem.noConfusion h
  | u64 v => exact iff_of_true rfl fun _ h => XdrItem.noConfusion h
  | opaqueFixed b => exact iff_of_true rfl fun _ h => XdrItem.noConfusion h
  | opaqueVar b => exact iff_of_true rfl fun _ h => XdrItem.noConfusion h

theorem xdr_round_trip_iff (items : List XdrItem) :
    RoundTrip items ↔
      (∀ s, XdrItem.str s ∈ items → s.head? ≠ some '\uFEFF') ∧
        (writeAll items).data.length < 2 ^ 31 := by
  have hdata := writeAll_data items
  have hat : XdrReader.At ⟨(writeAll items).data, 0⟩ (items.flatMap (·.bytes)) := by
    rw [hdata]
    exact XdrReader.at_start _
  constructor
  · intro h
    have hsmall : (writeAll items).data.length < 2 ^ 31 := by
      have hpos := readAll_small (items.map (·.type)) (start_small (writeAll items).data)
      rw [h.read, XdrCursor.Small] at hpos
      dsimp only at hpos
      exact_mod_cast hpos
    refine ⟨fun s hs => ?_, hsmall⟩
    obtain ⟨r, c, hread, -, -, -⟩ := readAll_complete items (same_start _) hat hsmall
    have hitems := congrArg Prod.fst (hread.symm.trans h.read)
    have hheard := List.map_inj_left.mp hitems _ hs
    exact (heard_eq_iff _).mp (congrArg Prod.fst hheard) s rfl
  · rintro ⟨hbom, hsmall⟩
    refine ⟨?_, fun written _ => ?_, fun p hp hne => ?_⟩
    · obtain ⟨r, c, hread, hsame, hend, hbuf⟩ := readAll_complete items (same_start _) hat hsmall
      have hpos := hend.length
      rw [hbuf, List.length_nil, Nat.add_zero] at hpos
      have hitems : (items.map fun i => (i.heard, true)) = items.map fun i => (i, true) :=
        List.map_congr_left fun i hi => by
          rw [(heard_eq_iff i).mpr fun s hs => hbom s (hs ▸ hi)]
      have hcursor : c = ⟨(writeAll items).data, (writeAll items).data.length⟩ := by
        obtain ⟨buf, pos⟩ := c
        rw [XdrCursor.mk.injEq]
        exact ⟨hsame.buf.trans hbuf, hsame.pos.trans (by rw [hpos])⟩
      rw [hread, hitems, hcursor]
    · rw [writeAll_data]
      exact length_flatMap_bytes written
    · simp only [writeAll_data] at hp hne hsmall ⊢
      have hlt : p.length < (items.flatMap (·.bytes)).length :=
        Nat.lt_of_le_of_ne hp.length_le fun heq => hne (hp.eq_of_length heq)
      exact readAll_truncated items (same_start p) (XdrReader.at_start p) hp hlt
        (by rwa [Nat.zero_add])

theorem bom_string_shortened : ¬ RoundTrip [.str ['\uFEFF', 'a']] := by
  intro h
  have hread := congrArg Prod.fst h.read
  exact absurd hread (by decide +kernel)

end Xdr
