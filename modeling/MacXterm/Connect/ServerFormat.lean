import Mathlib.Tactic.IntervalCases
import MacXterm.Connect.PixelFormat
import MacXterm.Connect.PlainDecode

namespace Connect

open Qt Rfb Picture

namespace Rfb

theorem argb_bit (r g b : UInt8) {i : Nat} (hi : i < 8) :
    (argb r g b).toBitVec.getLsbD i = b.toBitVec.getLsbD i ∧
      (argb r g b).toBitVec.getLsbD (i + 8) = g.toBitVec.getLsbD i ∧
      (argb r g b).toBitVec.getLsbD (i + 16) = r.toBitVec.getLsbD i := by
  interval_cases i <;> simp [argb]

theorem argb_inj {r g b r' g' b' : UInt8} (h : argb r g b = argb r' g' b') :
    r = r' ∧ g = g' ∧ b = b' := by
  have hext {c d : UInt8} (h : ∀ i < 8, c.toBitVec.getLsbD i = d.toBitVec.getLsbD i) : c = d :=
    UInt8.eq_of_toBitVec_eq (BitVec.eq_of_getLsbD_eq h)
  refine ⟨hext fun i hi => ?_, hext fun i hi => ?_, hext fun i hi => ?_⟩
  · rw [← (argb_bit r g b hi).2.2, h, (argb_bit r' g' b' hi).2.2]
  · rw [← (argb_bit r g b hi).2.1, h, (argb_bit r' g' b' hi).2.1]
  · rw [← (argb_bit r g b hi).1, h, (argb_bit r' g' b' hi).1]

theorem component_byte (shift : UInt8) (v : Nat) :
    PixelFormat.component 255 shift v = .ofNat (v / 2 ^ shift.toNat) := by
  have h255 : (255 : UInt16).toNat = 2 ^ 8 - 1 := rfl
  have hlow := Nat.mod_lt (v / 2 ^ shift.toNat) (Nat.two_pow_pos 8)
  apply UInt8.toNat_inj.mp
  rw [PixelFormat.component, scaled, h255, Nat.and_two_pow_sub_one_eq_mod, UInt8.toNat_ofNat',
    UInt8.toNat_ofNat']
  omega

theorem field_of_component {max : UInt16} {shift : UInt8} {n p : Nat}
    (hmax : max.toNat = 2 ^ n - 1) (hp : p + 8 ≤ 32)
    (h : ∀ v < 2 ^ 32, UInt8.ofNat (v / 2 ^ p) = PixelFormat.component max shift v) :
    max = 255 ∧ shift.toNat = p := by
  have hread (v : Nat) (hv : v < 2 ^ 32) : BitField.field p 8 v =
      BitField.field shift.toNat n v * 255 / (2 ^ n - 1) % 256 := by
    have heq := congrArg UInt8.toNat (h v hv)
    rwa [PixelFormat.component, scaled, hmax, Nat.and_two_pow_sub_one_eq_mod, UInt8.toNat_ofNat',
      UInt8.toNat_ofNat'] at heq
  have hbound (v : Nat) : BitField.field shift.toNat n v ≤ 2 ^ n - 1 :=
    Nat.le_sub_one_of_lt (Nat.mod_lt _ (Nat.two_pow_pos n))
  obtain ⟨hshift, rfl⟩ := BitField.field_eq_of_extremes (s := shift.toNat) (n := n)
    (by decide : 0 < 8) hp
    (fun v hv hzero => by rw [hread v hv, hzero, Nat.zero_mul, Nat.zero_div])
    (fun v hv hfull => by
      rw [hread v hv] at hfull
      have hle : BitField.field shift.toNat n v * 255 / (2 ^ n - 1) ≤ 255 :=
        Nat.div_le_of_le_mul (Nat.mul_le_mul_right 255 (hbound v))
      have heq : 255 ≤ BitField.field shift.toNat n v * 255 / (2 ^ n - 1) := by
        rw [Nat.mod_eq_of_lt (Nat.lt_succ_of_le hle)] at hfull
        exact hfull.ge
      rcases Nat.eq_zero_or_pos (2 ^ n - 1) with hzero | hpos
      · rw [hzero, Nat.div_zero] at heq
        exact absurd heq (by decide)
      · have hmul := (Nat.le_div_iff_mul_le hpos).mp heq
        have := hbound v
        omega)
  exact ⟨UInt16.toNat_inj.mp hmax, hshift⟩

namespace PixelFormat

variable {f : PixelFormat}

def pixelOf (f : PixelFormat) (v : f.Value) : Pixel :=
  ⟨byteAt (f.code v) 0, byteAt (f.code v) 1, byteAt (f.code v) 2, byteAt (f.code v) 3⟩

theorem code_wide (h : f.bitsPerPixel = 32) (v : f.Value) :
    f.code v =
      if f.bigEndian = 0 then
        [.ofNat v.val, .ofNat (v.val / 2 ^ 8), .ofNat (v.val / 2 ^ 16), .ofNat (v.val / 2 ^ 24)]
      else
        [.ofNat (v.val / 2 ^ 24), .ofNat (v.val / 2 ^ 16), .ofNat (v.val / 2 ^ 8), .ofNat v.val] := by
  have hsize : f.bitsPerPixel.toNat / 8 = 4 := by rw [h]; rfl
  rw [code, hsize]
  simp [List.range_succ]

theorem bytes_pixelOf (h : f.bitsPerPixel = 32) (v : f.Value) : (f.pixelOf v).bytes = f.code v := by
  rw [pixelOf, code_wide h]
  split <;> rfl

theorem pixelOf_eq (h : f.bitsPerPixel = 32) (v : f.Value) :
    (f.pixelOf v).red = .ofNat (v.val / 2 ^ (if f.bigEndian = 0 then 16 else 8)) ∧
      (f.pixelOf v).green = .ofNat (v.val / 2 ^ (if f.bigEndian = 0 then 8 else 16)) ∧
      (f.pixelOf v).blue = .ofNat (v.val / 2 ^ (if f.bigEndian = 0 then 0 else 24)) := by
  rw [pixelOf, code_wide h]
  split
  · exact ⟨rfl, rfl, by rw [Nat.pow_zero, Nat.div_one]; rfl⟩
  · exact ⟨rfl, rfl, rfl⟩

theorem Bgrx.colour (hf : f.Bgrx) (h : f.bitsPerPixel = 32) (palette : Palette) (v : f.Value) :
    (f.pixelOf v).argb = f.colour palette v := by
  obtain ⟨hred, hgreen, hblue⟩ := pixelOf_eq h v
  rw [Pixel.argb, hred, hgreen, hblue, PixelFormat.colour, if_neg hf.trueColour, hf.red.1, hf.red.2,
    hf.green.1, hf.green.2, hf.blue.1, hf.blue.2, component_byte, component_byte, component_byte]
  split <;> rfl

theorem bgrx_of_colour (h : f.bitsPerPixel = 32)
    (hcolour : ∀ palette v, (f.pixelOf v).argb = f.colour palette v) : f.Bgrx := by
  have htrue : f.trueColour ≠ 0 := by
    intro hpalette
    have hsame := (hcolour (fun _ => ⟨0, 0, 0⟩) 0).symm.trans (hcolour (fun _ => ⟨65535, 0, 0⟩) 0)
    rw [PixelFormat.colour, PixelFormat.colour, if_pos hpalette, if_pos hpalette] at hsame
    exact absurd (argb_inj hsame).1 (by decide)
  have hchannels (v : Nat) (hv : v < 2 ^ 32) :
      UInt8.ofNat (v / 2 ^ (if f.bigEndian = 0 then 16 else 8)) =
          component f.redMax f.redShift v ∧
        UInt8.ofNat (v / 2 ^ (if f.bigEndian = 0 then 8 else 16)) =
          component f.greenMax f.greenShift v ∧
        UInt8.ofNat (v / 2 ^ (if f.bigEndian = 0 then 0 else 24)) =
          component f.blueMax f.blueShift v := by
    have hlt : v < 2 ^ f.bitsPerPixel.toNat := by rwa [h]
    have heq := hcolour (fun _ => ⟨0, 0, 0⟩) ⟨v, hlt⟩
    obtain ⟨hred, hgreen, hblue⟩ := pixelOf_eq h ⟨v, hlt⟩
    rw [PixelFormat.colour, if_neg htrue, Pixel.argb, hred, hgreen, hblue] at heq
    exact argb_inj heq
  obtain ⟨n, hn⟩ := f.maxima htrue f.redMax (by simp)
  obtain ⟨k, hk⟩ := f.maxima htrue f.greenMax (by simp)
  obtain ⟨m, hm⟩ := f.maxima htrue f.blueMax (by simp)
  have hred := field_of_component hn (by split <;> decide) fun v hv => (hchannels v hv).1
  have hgreen := field_of_component hk (by split <;> decide) fun v hv => (hchannels v hv).2.1
  have hblue := field_of_component hm (by split <;> decide) fun v hv => (hchannels v hv).2.2
  refine ⟨htrue, ⟨hred.1, ?_⟩, ⟨hgreen.1, ?_⟩, ⟨hblue.1, ?_⟩⟩
  · apply UInt8.toNat_inj.mp
    rw [hred.2]
    split <;> rfl
  · apply UInt8.toNat_inj.mp
    rw [hgreen.2]
    split <;> rfl
  · apply UInt8.toNat_inj.mp
    rw [hblue.2]
    split <;> rfl

end PixelFormat

structure InitMessage where
  width : UInt16
  height : UInt16
  format : PixelFormat
  name : QByteArray
  short : 24 + name.length < 2 ^ 31

def InitMessage.bytes (m : InitMessage) : QByteArray :=
  BigEndian.bytes16 m.width ++ BigEndian.bytes16 m.height ++ m.format.bytes ++
    BigEndian.bytes32 (.ofNat m.name.length) ++ m.name

theorem encodes_empty {ι : Type} {code : ι → QByteArray} {colour colour' : ι → UInt32} {w h : Nat}
    {encoding : Int32} {bytes : QByteArray} {colours : List UInt32} (hempty : w * h = 0)
    (he : Coded.Encodes code colour w h encoding bytes colours) :
    Coded.Encodes code colour' w h encoding bytes colours := by
  have hraster (f g : Picture UInt32) : raster w h f = raster w h g := by
    refine raster_congr fun x hx y hy => ?_
    rcases Nat.mul_eq_zero.mp hempty with rfl | rfl
    · exact absurd hx (Nat.not_lt_zero x)
    · exact absurd hy (Nat.not_lt_zero y)
  cases he with
  | raw values hcount =>
    obtain rfl := List.length_eq_zero_iff.mp (hcount.trans hempty)
    exact .raw [] hcount
  | rre ground subrects hcount =>
    rw [hraster _ (subrects.foldl (Coded.Subrect.paint colour') fun _ _ => colour' ground)]
    exact .rre ground subrects hcount
  | hextile picture htiles =>
    have horigins : tileOrigins w h 16 = [] := by
      rcases Nat.mul_eq_zero.mp hempty with rfl | rfl
      · exact List.flatMap_eq_nil_iff.mpr fun _ _ => rfl
      · rfl
    rw [horigins] at htiles
    cases htiles
    refine .hextile picture ?_
    rw [horigins]
    exact .nil none none

end Rfb

namespace VncConnection

variable {z : Zlib}

def RequestsUpdate : Event → Prop
  | .write data => data.head? = some 3
  | _ => False

def SetsPixelFormat : Event → Prop
  | .write data => data.head? = some 0
  | _ => False

-- No update is requested, or not before a SetPixelFormat message.
def Forestalls : List Event → Prop
  | [] => True
  | e :: out => SetsPixelFormat e ∨ ¬RequestsUpdate e ∧ Forestalls out

structure Shown (r : Rectangle) (d : RectData) (size : Nat) (colours : List UInt32) : Prop where
  complete : d.complete = true
  consumed : d.consumed = size
  signal : signal (r, d) = .rectDecoded r.x r.y r.width r.height colours

def Honoured (zlib : RfbZlibStream z) (f : PixelFormat) (w h : UInt16) : Prop :=
  ∀ palette encoding bytes colours,
    Coded.Encodes f.code (f.colour palette) w.toNat h.toNat encoding bytes colours →
    ∀ x y (pre rest : QByteArray), pre.length + bytes.length < 2 ^ 31 →
      Shown ⟨x, y, w, h, encoding⟩
        (decode zlib ⟨x, y, w, h, encoding⟩ (pre ++ bytes ++ rest) pre.length).1 bytes.length
        colours

theorem plain_encoding {ι : Type} {code : ι → QByteArray} {colour : ι → UInt32} {w h : Nat}
    {encoding : Int32} {bytes : QByteArray} {colours : List UInt32}
    (he : Coded.Encodes code colour w h encoding bytes colours) : encoding ≠ EncZRLE := by
  cases he <;> decide

theorem honoured_of_pixels {zlib : RfbZlibStream z} {f : PixelFormat} {w h : UInt16}
    (hsize : f.bitsPerPixel = 32) (harea : w.toNat * h.toNat < 2 ^ 31)
    (hcolour : w.toNat * h.toNat ≠ 0 → f.Bgrx) : Honoured zlib f w h := by
  intro palette encoding bytes colours he x y pre rest hfit
  have hargb : Coded.Encodes f.code (fun v => (f.pixelOf v).argb) w.toNat h.toNat encoding bytes
      colours := by
    by_cases hempty : w.toNat * h.toNat = 0
    · exact encodes_empty hempty he
    · rwa [funext ((hcolour hempty).colour hsize palette)]
  have hcode := Coded.encodes_recode (φ := f.pixelOf) (PixelFormat.bytes_pixelOf hsize)
    (fun _ => rfl) hargb
  have hplain : encoding ≠ EncZRLE := plain_encoding he
  rw [decode_plain hplain, decodeRect_encoding (r := ⟨x, y, w, h, encoding⟩) pre rest hcode harea
    hfit]
  exact ⟨rfl, rfl, rfl⟩

theorem flat_rre (f : PixelFormat) (palette : Palette) (w h : Nat) (v : f.Value) :
    Coded.Encodes f.code (f.colour palette) w h EncRRE ([0, 0, 0, 0] ++ f.code v)
      (List.replicate (h * w) (f.colour palette v)) := by
  have hflat : Coded.Encodes f.code (f.colour palette) w h EncRRE
      (BigEndian.bytes32 0 ++ f.code v ++ [].flatMap (Coded.Subrect.bytes f.code))
      (raster w h fun _ _ => f.colour palette v) := .rre v [] (Nat.two_pow_pos 32)
  rwa [List.flatMap_nil, List.append_nil, raster_const] at hflat

theorem length_code (f : PixelFormat) (v : f.Value) :
    (f.code v).length = f.bitsPerPixel.toNat / 8 := by
  rw [PixelFormat.code]
  split <;> simp

theorem decode_flat (zlib : RfbZlibStream z) (r : Rectangle) (hr : r.encoding = EncRRE)
    (p : Pixel) :
    (decode zlib r ([0, 0, 0, 0] ++ p.bytes) 0).1 =
      .drawn 8 (List.replicate (int32 (r.width.toNat * r.height.toNat)).toNat p.argb) := by
  have hplain : r.encoding ≠ EncZRLE := by rw [hr]; decide
  have hlength : ([0, 0, 0, 0] ++ p.bytes).length = 8 := rfl
  have hcount : (rd32be ([0, 0, 0, 0] ++ p.bytes) 0).toNat = 0 := by
    rw [rd32be_append_left (by decide)]
    decide
  have hpixel : readPixel ([0, 0, 0, 0] ++ p.bytes) (0 + 4) 4 = p.argb := by
    rw [← List.append_nil p.bytes]
    exact readPixel_at [0, 0, 0, 0] [] p
  have hguard : ¬((8 : Nat) : Int) < int32 (0 + 4 + (4 : Nat)) := by decide
  have hneed : int32 (4 + (4 : Nat) + int32 (0 : Nat) * (4 + 8 : Nat)) = 8 := by decide
  have hend : ¬((8 : Nat) : Int) < int32 (0 + 8) := by decide
  rw [decode_plain hplain, decodeRect_rre hr, decodeRRE]
  simp only [hlength, hcount]
  rw [if_neg hguard, hneed, if_neg hend, hpixel, List.range_zero, List.foldl_nil]

theorem wide_of_honoured {zlib : RfbZlibStream z} {f : PixelFormat} {w h : UInt16}
    (hf : Honoured zlib f w h) : f.bitsPerPixel = 32 := by
  by_contra hne
  have hlength : (f.code 0).length < 4 := by
    rw [length_code]
    rcases f.sized with hsize | hsize | hsize
    · rw [hsize]; decide
    · rw [hsize]; decide
    · exact absurd hsize hne
  have hshort : ([0, 0, 0, 0] ++ f.code 0).length < 8 := by
    rw [List.length_append]
    exact Nat.add_lt_add_left hlength 4
  have hcomplete := (hf (fun _ => ⟨0, 0, 0⟩) _ _ _ (flat_rre f _ w.toNat h.toNat 0) 0 0 [] []
    (by rw [List.length_nil]; omega)).complete
  have hplain : EncRRE ≠ EncZRLE := by decide
  have hguard : int32 (((List.nil : QByteArray).length : Int) + 4 + (4 : Nat)) = 8 := by decide
  rw [decode_plain hplain, decodeRect_rre rfl, List.nil_append, List.append_nil, decodeRRE,
    if_pos (by rw [hguard]; omega)] at hcomplete
  exact Bool.false_ne_true hcomplete

theorem colour_of_honoured {zlib : RfbZlibStream z} {f : PixelFormat} {w h : UInt16}
    (hf : Honoured zlib f w h) (harea : w.toNat * h.toNat ≠ 0) (palette : Palette) (v : f.Value) :
    w.toNat * h.toNat < 2 ^ 31 ∧ (f.pixelOf v).argb = f.colour palette v := by
  have hsize := wide_of_honoured hf
  have hfit : ([] : QByteArray).length + ([0, 0, 0, 0] ++ f.code v).length < 2 ^ 31 := by
    rw [List.length_append, length_code, hsize]
    decide
  have hshown := (hf palette _ _ _ (flat_rre f palette w.toNat h.toNat v) 0 0 [] [] hfit).signal
  have hflat := decode_flat zlib ⟨0, 0, w, h, EncRRE⟩ rfl (f.pixelOf v)
  rw [PixelFormat.bytes_pixelOf hsize] at hflat
  rw [List.nil_append, List.append_nil, List.length_nil, Int.ofNat_zero, hflat] at hshown
  have hpixels : List.replicate (int32 (w.toNat * h.toNat)).toNat (f.pixelOf v).argb =
      List.replicate (h.toNat * w.toNat) (f.colour palette v) := by
    simpa [signal, RectData.drawn] using hshown
  obtain ⟨hcount, hargb⟩ := List.replicate_inj.mp hpixels
  rw [Nat.mul_comm] at hcount
  refine ⟨?_, hargb.resolve_left (by rwa [hcount])⟩
  have hlt := int32_lt (w.toNat * h.toNat : Nat)
  rw [Int.natCast_mul] at hlt
  omega

theorem honoured_iff (zlib : RfbZlibStream z) (f : PixelFormat) (w h : UInt16) :
    Honoured zlib f w h ↔ f.bitsPerPixel = 32 ∧
      (w.toNat * h.toNat ≠ 0 → f.Bgrx ∧ w.toNat * h.toNat < 2 ^ 31) := by
  constructor
  · intro hf
    refine ⟨wide_of_honoured hf, fun harea => ⟨?_, (colour_of_honoured hf harea (fun _ => ⟨0, 0, 0⟩)
      0).1⟩⟩
    exact PixelFormat.bgrx_of_colour (wide_of_honoured hf) fun palette v =>
      (colour_of_honoured hf harea palette v).2
  · rintro ⟨hsize, hpixels⟩
    refine honoured_of_pixels hsize ?_ (fun harea => (hpixels harea).1)
    by_cases harea : w.toNat * h.toNat = 0
    · rw [harea]
      decide
    · exact (hpixels harea).2

theorem size_of_init (m : InitMessage) (more : QByteArray) :
    (24 + rd32be (m.bytes ++ more) 20).toNat = 24 + m.name.length := by
  have hsplit : m.bytes ++ more = (BigEndian.bytes16 m.width ++ BigEndian.bytes16 m.height ++
      m.format.bytes) ++ (BigEndian.bytes32 (.ofNat m.name.length) ++ (m.name ++ more)) := by
    simp only [InitMessage.bytes, List.append_assoc]
  have hread : rd32be (m.bytes ++ more) 20 = .ofNat m.name.length := by
    rw [hsplit]
    exact (rd32be_append_right _ _ 0).trans (rd32be_bytes32 _ _)
  have hshort := m.short
  rw [hread, UInt32.toNat_add, UInt32.toNat_ofNat']
  have h24 : (24 : UInt32).toNat = 24 := rfl
  omega

theorem readServerInit_init {c : VncConnection z} {m : InitMessage} {more : QByteArray}
    (hbuf : c.buf = m.bytes ++ more) :
    ∃ t out s, c.readServerInit = .go t (out ++ [.serverReady s.width s.height s.name,
        .write (encodeSetEncodings [EncZRLE, EncHextile, EncRRE, EncCopyRect, EncRaw]),
        .write (requestFramebuffer s)]) ∧
      (∀ e ∈ out, ∃ state, e = .stateChanged state) := by
  have hlength : m.bytes.length = 24 + m.name.length := by
    simp [InitMessage.bytes, PixelFormat.bytes]
    omega
  have hshort := m.short
  have hint : int32 (24 + m.name.length : Nat) = (24 + m.name.length : Nat) := by
    rw [int32_eq] <;> omega
  have hlong : ¬(m.bytes ++ more).length < 24 := by
    rw [List.length_append]
    omega
  have henough : ¬((m.bytes ++ more).length : Int) < (24 + m.name.length : Nat) := by
    rw [List.length_append]
    omega
  have hstate (d : VncConnection z) :
      ∀ e ∈ (d.setState .connected).2, ∃ s, e = .stateChanged s := by
    intro e he
    unfold setState at he
    split at he
    · exact ⟨_, List.mem_singleton.mp he⟩
    · exact absurd he List.not_mem_nil
  rw [readServerInit, hbuf, if_neg hlong]
  dsimp only
  rw [size_of_init, hint, if_neg henough]
  exact ⟨_, _, _, rfl, hstate _⟩

theorem not_forestalls {out : List Event} (h : ∀ e ∈ out, ∃ state, e = .stateChanged state)
    (s : ServerInit) :
    ¬Forestalls (out ++ [.serverReady s.width s.height s.name,
      .write (encodeSetEncodings [EncZRLE, EncHextile, EncRRE, EncCopyRect, EncRaw]),
      .write (requestFramebuffer s)]) := by
  induction out with
  | nil =>
    rintro (hready | ⟨-, hset | ⟨-, hset | ⟨hrequest, -⟩⟩⟩)
    · exact hready
    · exact absurd hset (by unfold SetsPixelFormat; decide)
    · exact absurd (Option.some.inj hset) (by decide)
    · exact hrequest rfl
  | cons e out ih =>
    obtain ⟨state, rfl⟩ := h e List.mem_cons_self
    rintro (hset | ⟨-, hlater⟩)
    · exact hset
    · exact ih (fun e he => h e (List.mem_cons_of_mem _ he)) hlater

theorem server_format_honoured_iff (c : VncConnection z) (hphase : c.phase = .serverInit)
    (m : InitMessage) (more : QByteArray) (hbuf : c.buf = m.bytes ++ more) (w h : UInt16) :
    ∃ t out, c.turn = .go t out ∧
      (Honoured t.zlib m.format w h ∨ Forestalls out ↔ m.format.bitsPerPixel = 32 ∧
        (w.toNat * h.toNat ≠ 0 → m.format.Bgrx ∧ w.toNat * h.toNat < 2 ^ 31)) := by
  obtain ⟨t, out, s, hgo, hstate⟩ := readServerInit_init hbuf
  refine ⟨t, _, (turn_serverInit hphase).trans hgo, ?_⟩
  rw [or_iff_left (not_forestalls hstate s)]
  exact honoured_iff t.zlib m.format w h

def lowColour : PixelFormat :=
  ⟨16, 16, 0, 1, 31, 63, 31, 11, 5, 0, (0, 0, 0), by decide, fun _ => by
    simp only [List.forall_mem_cons]
    exact ⟨⟨5, rfl⟩, ⟨6, rfl⟩, ⟨5, rfl⟩, nofun⟩⟩

def desktop : InitMessage := ⟨640, 480, lowColour, toUtf8 "desk", by decide⟩

theorem server_format_honoured_lowColour :
    ∃ t out, (before .serverInit (desktop.bytes ++ [])).turn = .go t out ∧
      (Honoured t.zlib desktop.format 1 1 ∨ Forestalls out ↔ desktop.format.bitsPerPixel = 32 ∧
        ((1 : UInt16).toNat * (1 : UInt16).toNat ≠ 0 →
          desktop.format.Bgrx ∧ (1 : UInt16).toNat * (1 : UInt16).toNat < 2 ^ 31)) :=
  server_format_honoured_iff (before .serverInit (desktop.bytes ++ [])) rfl desktop [] rfl 1 1

def redValue : lowColour.Value := ⟨0xF800, by decide⟩

theorem red_encodes : Coded.Encodes lowColour.code (lowColour.colour fun _ => ⟨0, 0, 0⟩) 1 1 EncRaw
    [0x00, 0xF8] [0xFFFF0000] := by
  have hcode : [redValue].flatMap lowColour.code = [0x00, 0xF8] := by decide
  have hcolour : [redValue].map (lowColour.colour fun _ => ⟨0, 0, 0⟩) = [0xFFFF0000] := by decide
  rw [← hcode, ← hcolour]
  exact .raw _ rfl

theorem red_pixel_stalls :
    ¬ ∀ t out, (before .serverInit desktop.bytes).turn = .go t out →
      Honoured t.zlib desktop.format 1 1 ∨ Forestalls out := by
  intro h
  obtain ⟨t, out, s, hgo, hstate⟩ := readServerInit_init (c := before .serverInit desktop.bytes)
    (m := desktop) (List.append_nil desktop.bytes).symm
  rcases h t _ ((turn_serverInit rfl).trans hgo) with hhonoured | hforestalls
  · have hshown := hhonoured _ _ _ _ red_encodes 0 0 [] [] (by decide)
    have hwaits : decodeRaw ⟨0, 0, 1, 1, EncRaw⟩ [0x00, 0xF8] 0 4 = .waiting := by decide
    have hcomplete := hshown.complete
    rw [decode_plain (by decide), decodeRect_raw rfl] at hcomplete
    exact Bool.false_ne_true ((congrArg RectData.complete hwaits).symm.trans hcomplete)
  · exact not_forestalls hstate s hforestalls

end VncConnection

end Connect
