import Mathlib.Logic.Function.Iterate
import MacXterm.Connect.ZrleDecode

namespace Connect.Rfb

open Qt Picture

def Sized (n : Nat) (b : QByteArray) : Prop := b.length = n

def Then (P Q : QByteArray → Prop) (b : QByteArray) : Prop := ∃ u v, b = u ++ v ∧ P u ∧ Q v

-- What a reader passes over without running out of bytes; bad stays as it was found.
structure Skips (f : TileReader → TileReader) (P : QByteArray → Prop) : Prop where
  reads : ∀ used rest, P used → f ⟨used ++ rest, false⟩ = ⟨rest, false⟩
  exact : ∀ b, (f ⟨b, false⟩).bad = false → ∃ used, b = used ++ (f ⟨b, false⟩).rest ∧ P used
  stays : ∀ t : TileReader, t.bad = true → (f t).bad = true

section Skips

variable {f g : TileReader → TileReader} {P Q : QByteArray → Prop} {m n : Nat}

theorem Skips.bind {g : TileReader → TileReader → TileReader} (hf : Skips f P)
    (hg : ∀ t, Skips (g t) Q) : Skips (fun t => g t (f t)) (Then P Q) := by
  refine ⟨?_, ?_, fun t ht => (hg t).stays _ (hf.stays t ht)⟩
  · rintro used rest ⟨u, v, rfl, hu, hv⟩
    rw [List.append_assoc, hf.reads u _ hu, (hg _).reads v _ hv]
  · intro b hb
    cases hbad : (f ⟨b, false⟩).bad with
    | true =>
      have hstays := (hg ⟨b, false⟩).stays _ hbad
      rw [hb] at hstays
      exact absurd hstays Bool.false_ne_true
    | false =>
      obtain ⟨u, hu, hP⟩ := hf.exact b hbad
      have hstate : f ⟨b, false⟩ = ⟨(f ⟨b, false⟩).rest, false⟩ :=
        congrArg (TileReader.mk (f ⟨b, false⟩).rest) hbad
      rw [hstate] at hb ⊢
      obtain ⟨v, hv, hQ⟩ := (hg ⟨b, false⟩).exact _ hb
      refine ⟨u ++ v, ?_, u, v, rfl, hP, hQ⟩
      rw [List.append_assoc, ← hv, ← hu]

theorem Skips.comp (hf : Skips f P) (hg : Skips g Q) : Skips (fun t => g (f t)) (Then P Q) :=
  hf.bind fun _ => hg

theorem Skips.short (hf : Skips f P) {b more : QByteArray} (hmore : more ≠ [])
    (hP : P (b ++ more)) : (f ⟨b, false⟩).bad = true := by
  cases hbad : (f ⟨b, false⟩).bad with
  | true => rfl
  | false =>
    obtain ⟨used, hb, hused⟩ := hf.exact b hbad
    have hwhole := hf.reads (b ++ more) [] hP
    have hpart := hf.reads used ((f ⟨b, false⟩).rest ++ more) hused
    rw [← List.append_assoc, ← hb, ← List.append_nil (b ++ more), hwhole] at hpart
    have hrest := congrArg TileReader.rest hpart
    exact absurd (List.append_eq_nil_iff.mp hrest.symm).2 hmore

theorem Skips.congr (hf : Skips f P) (h : ∀ b, P b ↔ Q b) : Skips f Q := by
  obtain rfl : P = Q := funext fun b => propext (h b)
  exact hf

theorem then_sized (b : QByteArray) : Then (Sized m) (Sized n) b ↔ Sized (m + n) b := by
  constructor
  · rintro ⟨u, v, rfl, hu, hv⟩
    rw [Sized, List.length_append, hu, hv]
  · intro hb
    unfold Sized at hb
    refine ⟨b.take m, b.drop m, (List.take_append_drop m b).symm, ?_, ?_⟩
    · rw [Sized, List.length_take]
      omega
    · rw [Sized, List.length_drop]
      omega

theorem skips_none : Skips (fun t => t) (Sized 0) := by
  refine ⟨?_, fun b _ => ⟨[], rfl, rfl⟩, fun t ht => ht⟩
  intro used rest hused
  rw [List.eq_nil_of_length_eq_zero hused, List.nil_append]

theorem Skips.iterate (hf : Skips f (Sized m)) (n : Nat) : Skips f^[n] (Sized (n * m)) := by
  induction n with
  | zero =>
    rw [Nat.zero_mul]
    exact skips_none
  | succ n ih =>
    have hcomp := (hf.comp ih).congr then_sized
    rwa [Nat.add_comm, ← Nat.succ_mul] at hcomp

theorem Skips.unless_bad (hf : Skips f P) : Skips (fun t => if t.bad then t else f t) P := by
  refine ⟨?_, ?_, ?_⟩
  · intro used rest hused
    simpa using hf.reads used rest hused
  · intro b hb
    simpa using hf.exact b (by simpa using hb)
  · intro t ht
    rw [if_pos ht]
    exact ht

theorem skips_u8 : Skips (fun t => t.u8.2) (Sized 1) := by
  refine ⟨?_, ?_, ?_⟩
  · intro used rest hused
    obtain ⟨c, rfl⟩ := List.length_eq_one_iff.mp hused
    rfl
  · intro b hb
    cases b with
    | nil => exact absurd hb.symm Bool.false_ne_true
    | cons c cs => exact ⟨[c], rfl, rfl⟩
  · rintro ⟨rest, bad⟩ rfl
    cases rest <;> rfl

theorem skips_cpixel : Skips (fun t => t.cpixel.2) (Sized 3) := by
  refine ⟨?_, ?_, ?_⟩
  · intro used rest hused
    obtain ⟨blue, green, red, rfl⟩ := List.length_eq_three.mp hused
    rfl
  · intro b hb
    match b, hb with
    | [], hb => exact absurd hb.symm Bool.false_ne_true
    | [_], hb => exact absurd hb.symm Bool.false_ne_true
    | [_, _], hb => exact absurd hb.symm Bool.false_ne_true
    | blue :: green :: red :: cs, _ => exact ⟨[blue, green, red], rfl, rfl⟩
  · rintro ⟨rest, bad⟩ rfl
    match rest with
    | [] => rfl
    | [_] => rfl
    | [_, _] => rfl
    | _ :: _ :: _ :: _ => rfl

theorem palette_reader (n : Nat) (t : TileReader) :
    (t.palette n).2 = (fun t => t.cpixel.2)^[n] t := by
  induction n generalizing t with
  | zero => rfl
  | succ n ih =>
    rw [Function.iterate_succ_apply, ← ih]
    rfl

theorem skips_palette (n : Nat) : Skips (fun t => (t.palette n).2) (Sized (n * 3)) := by
  have hfun : (fun t : TileReader => (t.palette n).2) = (fun t => t.cpixel.2)^[n] :=
    funext (palette_reader n)
  rw [hfun]
  exact skips_cpixel.iterate n

-- A loop over states that carry a reader and pass it on by f.
theorem foldl_reader {σ : Type} (reader : σ → TileReader) {step : σ → Nat → σ}
    (hstep : ∀ s i, reader (step s i) = f (reader s)) (n : Nat) (s : σ) :
    reader ((List.range n).foldl step s) = f^[n] (reader s) := by
  induction n with
  | zero => rfl
  | succ n ih =>
    rw [List.range_succ, List.foldl_append, List.foldl_cons, List.foldl_nil, hstep, ih,
      Function.iterate_succ_apply']

end Skips

section Loops

variable {t : Tile}

theorem packedPixel_reader (palette : List UInt32) (bpp y : Nat) (s : Tile.PackedState) (x : Nat) :
    (t.packedPixel palette bpp y s x).bit = (if s.bit = 0 then 8 else s.bit) - bpp ∧
      (t.packedPixel palette bpp y s x).state.reader =
        if s.bit = 0 then s.state.reader.u8.2 else s.state.reader := by
  by_cases hbit : s.bit = 0
  · simp [Tile.packedPixel, if_pos hbit]
  · simp [Tile.packedPixel, if_neg hbit]

theorem packed_cells {bits : Nat} (hbits : bits = 1 ∨ bits = 2 ∨ bits = 4) (palette : List UInt32)
    (y : Nat) (s : TileState) (n : Nat) :
    ((List.range n).foldl (t.packedPixel palette bits y) ⟨0, 0, s⟩).bit =
        (8 - n * bits % 8) % 8 ∧
      ((List.range n).foldl (t.packedPixel palette bits y) ⟨0, 0, s⟩).state.reader =
        (fun t => t.u8.2)^[(n * bits + 7) / 8] s.reader := by
  induction n with
  | zero =>
    rw [Nat.zero_mul]
    exact ⟨rfl, rfl⟩
  | succ n ih =>
    obtain ⟨hbit, hreader⟩ := ih
    rw [List.range_succ, List.foldl_append, List.foldl_cons, List.foldl_nil]
    obtain ⟨hbit', hreader'⟩ := packedPixel_reader (t := t) palette bits y
      ((List.range n).foldl (t.packedPixel palette bits y) ⟨0, 0, s⟩) n
    rw [hbit', hreader', hbit, hreader]
    by_cases hzero : n * bits % 8 = 0
    · obtain ⟨hfresh, hat, hnext, hat', -⟩ := bits_fresh hbits hzero
      rw [hfresh, if_pos rfl, if_pos rfl, hnext, hat, hat', Function.iterate_succ_apply']
      exact ⟨rfl, rfl⟩
    · obtain ⟨hleft, -, hnext, hshift, hat, -⟩ := bits_left hbits hzero
      have hpos : ¬ 8 - n * bits % 8 = 0 := by omega
      rw [hleft, if_neg hpos, if_neg hpos, hnext, hshift, hat]
      exact ⟨rfl, rfl⟩

theorem indexBits_cases (size : Nat) :
    indexBits size = 1 ∨ indexBits size = 2 ∨ indexBits size = 4 := by
  unfold indexBits
  split
  · exact .inl rfl
  · split
    · exact .inr (.inl rfl)
    · exact .inr (.inr rfl)

def packedRow (t : Tile) (size : Nat) (r : TileReader) : TileReader :=
  if r.bad then r else (fun t => t.u8.2)^[(t.tw * indexBits size + 7) / 8] r

theorem packed_reader (size : Nat) (s : TileState) :
    (t.packed size s).reader = (packedRow t size)^[t.th] (s.reader.palette size).2 := by
  refine foldl_reader TileState.reader ?_ t.th _
  intro s y
  dsimp only [packedRow]
  split
  · rfl
  · exact (packed_cells (indexBits_cases size) _ y s t.tw).2

theorem skips_packed (size : Nat) (pixels : List UInt32) :
    Skips (fun r => (t.packed size ⟨pixels, r⟩).reader)
      (Sized (size * 3 + t.th * ((t.tw * indexBits size + 7) / 8))) := by
  have hrow : Skips (packedRow t size) (Sized ((t.tw * indexBits size + 7) / 8)) := by
    have hbytes := skips_u8.iterate ((t.tw * indexBits size + 7) / 8)
    rw [Nat.mul_one] at hbytes
    exact hbytes.unless_bad
  have hall := ((skips_palette size).comp (hrow.iterate t.th)).congr then_sized
  have hfun : (fun r => (t.packed size ⟨pixels, r⟩).reader) =
      fun r => (packedRow t size)^[t.th] (r.palette size).2 :=
    funext fun r => packed_reader size ⟨pixels, r⟩
  rwa [hfun]

theorem skips_raw (pixels : List UInt32) :
    Skips (fun r => (t.raw ⟨pixels, r⟩).reader) (Sized (t.tw * t.th * 3)) := by
  have hreader (r : TileReader) :
      (t.raw ⟨pixels, r⟩).reader = (fun t => t.cpixel.2)^[t.tw * t.th] r := by
    rw [Function.iterate_mul]
    refine foldl_reader TileState.reader ?_ t.th _
    intro s y
    exact foldl_reader TileState.reader (fun _ _ => rfl) t.tw s
  have hfun := funext hreader
  rw [hfun]
  exact skips_cpixel.iterate _

theorem skips_solid (pixels : List UInt32) :
    Skips (fun r => (t.solid ⟨pixels, r⟩).reader) (Sized 3) := skips_cpixel

end Loops

end Connect.Rfb
