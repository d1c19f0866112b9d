import MacXterm.Connect.ZrleScan

namespace Connect.Rfb

open Qt Picture

-- The code of a run length: bytes 255 as long as the length goes on, then a smaller one.
def lengthCode (k : Nat) (last : UInt8) : QByteArray := List.replicate k 255 ++ [last]

def codedLength (k : Nat) (last : UInt8) : Nat := (int32 (k * 255 + last.toNat + 1)).toNat

inductive PlainTurn : QByteArray → Nat → Prop
  | run (colour : QByteArray) (k : Nat) (last : UInt8) : colour.length = 3 → last ≠ 255 →
      PlainTurn (colour ++ lengthCode k last) (codedLength k last)

inductive PaletteTurn : QByteArray → Nat → Prop
  | single (index : UInt8) : index &&& 0x80 = 0 → PaletteTurn [index] 1
  | run (index : UInt8) (k : Nat) (last : UInt8) : index &&& 0x80 ≠ 0 → last ≠ 255 →
      PaletteTurn (index :: lengthCode k last) (codedLength k last)

-- Turns until as many cells as the tile has are painted; what goes beyond them is cut off.
inductive Turns (turn : QByteArray → Nat → Prop) : Nat → QByteArray → Prop
  | done : Turns turn 0 []
  | turn {n k : Nat} {used rest : QByteArray} : 0 < n → turn used k → Turns turn (n - k) rest →
      Turns turn n (used ++ rest)

inductive WholeTile (tw th : Nat) : QByteArray → Prop
  | raw (b : QByteArray) : b.length = tw * th * 3 → WholeTile tw th (0 :: b)
  | solid (b : QByteArray) : b.length = 3 → WholeTile tw th (1 :: b)
  | packed (sub : UInt8) (b : QByteArray) : 2 ≤ sub → sub ≤ 16 →
      b.length = sub.toNat * 3 + th * ((tw * indexBits sub.toNat + 7) / 8) →
      WholeTile tw th (sub :: b)
  | plainRle (b : QByteArray) : Turns PlainTurn (tw * th) b → WholeTile tw th (128 :: b)
  | paletteRle (sub : UInt8) (palette b : QByteArray) : 130 ≤ sub →
      palette.length = (sub.toNat - 128) * 3 → Turns PaletteTurn (tw * th) b →
      WholeTile tw th (sub :: (palette ++ b))

def Unused (sub : UInt8) : Prop := 17 ≤ sub ∧ sub ≤ 127 ∨ sub = 129

inductive BrokenTile (tw th : Nat) : QByteArray → Prop
  | short (b more : QByteArray) : more ≠ [] → WholeTile tw th (b ++ more) → BrokenTile tw th b
  | unused (sub : UInt8) (b : QByteArray) : Unused sub → BrokenTile tw th (sub :: b)

inductive WholeTiles (w h : Nat) : List (Nat × Nat) → QByteArray → Prop
  | nil : WholeTiles w h [] []
  | cons {tx ty : Nat} {origins : List (Nat × Nat)} {tile rest : QByteArray} :
      WholeTile (min 64 (w - tx)) (min 64 (h - ty)) tile → WholeTiles w h origins rest →
      WholeTiles w h ((tx, ty) :: origins) (tile ++ rest)

inductive BrokenTiles (w h : Nat) : List (Nat × Nat) → QByteArray → Prop
  | here {tx ty : Nat} {b : QByteArray} (origins : List (Nat × Nat)) :
      BrokenTile (min 64 (w - tx)) (min 64 (h - ty)) b →
      BrokenTiles w h ((tx, ty) :: origins) b
  | later {tx ty : Nat} {origins : List (Nat × Nat)} {tile rest : QByteArray} :
      WholeTile (min 64 (w - tx)) (min 64 (h - ty)) tile → BrokenTiles w h origins rest →
      BrokenTiles w h ((tx, ty) :: origins) (tile ++ rest)

-- The loop of the source without a bound on its turns.
inductive Loop (t : Tile) (next : TileReader → UInt32 × Int × TileReader) :
    Tile.Cursor → TileReader → TileState → Prop
  | exit {s : Tile.Cursor} {reader : TileReader} : ¬ (s.y < t.th ∧ !reader.bad) →
      Loop t next s reader ⟨s.pixels, reader⟩
  | turn {s : Tile.Cursor} {reader reader' : TileReader} {c : UInt32} {run : Int}
      {out : TileState} : s.y < t.th ∧ !reader.bad → next reader = (c, run, reader') →
      Loop t next (t.spread c run.toNat s) reader' out → Loop t next s reader out

section Lengths

theorem sumBytes_code (k : Nat) {last : UInt8} (hlast : last ≠ 255) (rest : QByteArray) :
    TileReader.sumBytes (lengthCode k last ++ rest) =
      ((k * 255 + last.toNat : Int), ⟨rest, false⟩) := by
  have hlt : last.toNat < 255 := by
    have hbound := last.toNat_lt
    have hne : last.toNat ≠ 255 := fun h => hlast (UInt8.toNat_inj.mp h)
    omega
  have hsum := sumBytes_run k last.toNat hlt rest
  rw [UInt8.ofNat_toNat] at hsum
  have hcast : ((k * 255 + last.toNat : Nat) : Int) = k * 255 + last.toNat := by omega
  rw [lengthCode, hsum, hcast]

theorem sumBytes_exact {b : QByteArray} (h : (TileReader.sumBytes b).2.bad = false) :
    ∃ k last, last ≠ 255 ∧ b = lengthCode k last ++ (TileReader.sumBytes b).2.rest := by
  induction b with
  | nil => exact absurd h.symm Bool.false_ne_true
  | cons c cs ih =>
    by_cases hc : c = 255
    · subst hc
      rw [TileReader.sumBytes, if_pos rfl] at h ⊢
      obtain ⟨k, last, hlast, hcs⟩ := ih h
      refine ⟨k + 1, last, hlast, ?_⟩
      rw [lengthCode, List.replicate_succ, List.cons_append, List.cons_append, ← lengthCode]
      exact congrArg _ hcs
    · rw [TileReader.sumBytes, if_neg hc]
      exact ⟨0, c, hc, rfl⟩

theorem runLength_code (k : Nat) {last : UInt8} (hlast : last ≠ 255) (rest : QByteArray) :
    TileReader.runLength ⟨lengthCode k last ++ rest, false⟩ =
      (int32 (k * 255 + last.toNat + 1), ⟨rest, false⟩) := by
  simp only [TileReader.runLength, Bool.false_eq_true, if_false, sumBytes_code k hlast]

theorem runLength_exact {b : QByteArray} (h : (TileReader.runLength ⟨b, false⟩).2.bad = false) :
    ∃ k last, last ≠ 255 ∧ b = lengthCode k last ++ (TileReader.runLength ⟨b, false⟩).2.rest ∧
      (TileReader.runLength ⟨b, false⟩).1.toNat = codedLength k last := by
  obtain ⟨k, last, hlast, hb⟩ := sumBytes_exact (b := b) (by simpa [TileReader.runLength] using h)
  have hrun := runLength_code k hlast (TileReader.sumBytes b).2.rest
  rw [← hb] at hrun
  refine ⟨k, last, hlast, ?_, ?_⟩
  · rw [hrun, ← hb]
  · rw [hrun, codedLength]

theorem runLength_stays {t : TileReader} (h : t.bad = true) : t.runLength.2.bad = true := by
  simp only [TileReader.runLength, if_pos h]
  exact skips_u8.stays t h

end Lengths

section Turns

structure Takes (next : TileReader → UInt32 × Int × TileReader) (turn : QByteArray → Nat → Prop) :
    Prop where
  reads : ∀ used k rest, turn used k →
    ∃ c run, next ⟨used ++ rest, false⟩ = (c, run, ⟨rest, false⟩) ∧ run.toNat = k
  exact : ∀ b, (next ⟨b, false⟩).2.2.bad = false →
    ∃ used, b = used ++ (next ⟨b, false⟩).2.2.rest ∧ turn used (next ⟨b, false⟩).2.1.toNat
  stays : ∀ t : TileReader, t.bad = true → (next t).2.2.bad = true
  nonempty : ∀ used k, turn used k → used ≠ []

theorem takes_plain : Takes Tile.plainRun PlainTurn := by
  refine ⟨?_, ?_, ?_, ?_⟩
  · rintro _ _ rest ⟨colour, k, last, hcolour, hlast⟩
    have hread : TileReader.cpixel ⟨colour ++ (lengthCode k last ++ rest), false⟩ =
        ((TileReader.cpixel ⟨colour ++ (lengthCode k last ++ rest), false⟩).1,
          ⟨lengthCode k last ++ rest, false⟩) :=
      Prod.ext rfl (skips_cpixel.reads colour _ hcolour)
    refine ⟨(TileReader.cpixel ⟨colour ++ (lengthCode k last ++ rest), false⟩).1,
      int32 (k * 255 + last.toNat + 1), ?_, rfl⟩
    unfold Tile.plainRun
    rw [List.append_assoc, hread]
    simp only [runLength_code k hlast]
  · intro b hb
    have hrun : Tile.plainRun ⟨b, false⟩ = ((TileReader.cpixel ⟨b, false⟩).1,
        (TileReader.cpixel ⟨b, false⟩).2.runLength) := rfl
    rw [hrun] at hb ⊢
    cases hbad : (TileReader.cpixel ⟨b, false⟩).2.bad with
    | true =>
      rw [runLength_stays hbad] at hb
      exact absurd hb.symm Bool.false_ne_true
    | false =>
      obtain ⟨colour, hcolour, hsize⟩ := skips_cpixel.exact b hbad
      have hstate : (TileReader.cpixel ⟨b, false⟩).2 =
          ⟨(TileReader.cpixel ⟨b, false⟩).2.rest, false⟩ :=
        congrArg (TileReader.mk _) hbad
      rw [hstate] at hb ⊢
      obtain ⟨k, last, hlast, hrest, hvalue⟩ := runLength_exact hb
      refine ⟨colour ++ lengthCode k last, ?_, ?_⟩
      · rw [List.append_assoc, ← hrest, ← hcolour]
      · rw [hvalue]
        exact .run colour k last hsize hlast
  · intro t ht
    exact runLength_stays (skips_cpixel.stays t ht)
  · rintro _ _ ⟨colour, k, last, hcolour, -⟩ hnil
    rw [(List.append_eq_nil_iff.mp hnil).1] at hcolour
    exact absurd hcolour (by decide)

theorem paletteRun_cons (palette : List UInt32) (index : UInt8) (rest : QByteArray) :
    Tile.paletteRun palette ⟨index :: rest, false⟩ =
      (palette.getD (index &&& 0x7F).toNat 0xFF000000,
        if index &&& 0x80 ≠ 0 then TileReader.runLength ⟨rest, false⟩ else (1, ⟨rest, false⟩)) := rfl

theorem takes_palette (palette : List UInt32) : Takes (Tile.paletteRun palette) PaletteTurn := by
  refine ⟨?_, ?_, ?_, ?_⟩
  · rintro _ _ rest (⟨index, hindex⟩ | ⟨index, k, last, hindex, hlast⟩)
    · refine ⟨palette.getD (index &&& 0x7F).toNat 0xFF000000, 1, ?_, rfl⟩
      rw [List.singleton_append, paletteRun_cons, if_neg (not_not.mpr hindex)]
    · refine ⟨palette.getD (index &&& 0x7F).toNat 0xFF000000, _, ?_, rfl⟩
      rw [List.cons_append, paletteRun_cons, if_pos hindex, runLength_code k hlast]
  · intro b hb
    cases b with
    | nil => simp [Tile.paletteRun, TileReader.u8] at hb
    | cons index rest =>
      rw [paletteRun_cons] at hb ⊢
      by_cases hindex : index &&& 0x80 ≠ 0
      · rw [if_pos hindex] at hb ⊢
        obtain ⟨k, last, hlast, hrest, hvalue⟩ := runLength_exact hb
        refine ⟨index :: lengthCode k last, congrArg _ hrest, ?_⟩
        rw [hvalue]
        exact .run index k last hindex hlast
      · rw [if_neg hindex]
        exact ⟨[index], rfl, .single index (not_not.mp hindex)⟩
  · intro t ht
    have hu8 := skips_u8.stays t ht
    simp only [Tile.paletteRun]
    split
    · exact runLength_stays hu8
    · exact hu8
  · rintro _ _ (_ | _)
    · exact List.cons_ne_nil _ _
    · exact List.cons_ne_nil _ _

end Turns

section Runs

variable {t : Tile} {next : TileReader → UInt32 × Int × TileReader}
  {turn : QByteArray → Nat → Prop}

def left (t : Tile) (s : Tile.Cursor) : Nat := (t.th - s.y) * t.tw - s.x

theorem left_pos {s : Tile.Cursor} (hx : s.x < t.tw) : s.y < t.th ↔ 0 < left t s := by
  unfold left
  constructor
  · intro hy
    obtain ⟨m, hm⟩ : ∃ m, t.th - s.y = m + 1 := ⟨t.th - s.y - 1, by omega⟩
    rw [hm, Nat.succ_mul]
    omega
  · intro hpos
    by_contra hy
    have hzero : t.th - s.y = 0 := by omega
    rw [hzero, Nat.zero_mul] at hpos
    omega

theorem spread_left (c : UInt32) (run : Nat) {s : Tile.Cursor} (hx : s.x < t.tw) :
    (t.spread c run s).x < t.tw ∧ left t (t.spread c run s) = left t s - run := by
  induction run generalizing s with
  | zero => exact ⟨hx, rfl⟩
  | succ run ih =>
    rw [Tile.spread]
    split
    · rename_i hy
      obtain ⟨m, hm⟩ : ∃ m, t.th - s.y = m + 1 := ⟨t.th - s.y - 1, by omega⟩
      have hm' : t.th - (s.y + 1) = m := by omega
      split
      · rename_i hend
        obtain ⟨hx', hleft⟩ :=
          ih (s := ⟨0, s.y + 1, t.put s.pixels s.x s.y c⟩) (by dsimp only; omega)
        refine ⟨hx', ?_⟩
        rw [hleft]
        dsimp only [left]
        rw [hm, hm', Nat.succ_mul]
        omega
      · rename_i hend
        obtain ⟨hx', hleft⟩ := ih (s := ⟨s.x + 1, s.y, t.put s.pixels s.x s.y c⟩)
          (by dsimp only; omega)
        refine ⟨hx', ?_⟩
        rw [hleft]
        dsimp only [left]
        omega
    · rename_i hy
      have hzero : left t s = 0 := by
        have hpos := mt (left_pos hx).mpr hy
        omega
      refine ⟨hx, ?_⟩
      rw [hzero, Nat.zero_sub]

theorem runs_bad {fuel : Nat} {s : Tile.Cursor} {reader : TileReader} (hbad : reader.bad = true) :
    t.runs next fuel s reader = ⟨s.pixels, reader⟩ := by
  cases fuel with
  | zero => rfl
  | succ fuel =>
    rw [Tile.runs, if_neg]
    rw [hbad]
    exact fun h => absurd h.2 (by decide)

theorem runs_exit {fuel : Nat} {s : Tile.Cursor} {reader : TileReader} (hy : ¬ s.y < t.th) :
    t.runs next fuel s reader = ⟨s.pixels, reader⟩ := by
  cases fuel with
  | zero => rfl
  | succ fuel => rw [Tile.runs, if_neg fun h => hy h.1]

theorem runs_turn {fuel : Nat} {s : Tile.Cursor} {b : QByteArray} (hy : s.y < t.th) :
    t.runs next (fuel + 1) s ⟨b, false⟩ =
      t.runs next fuel (t.spread (next ⟨b, false⟩).1 (next ⟨b, false⟩).2.1.toNat s)
        (next ⟨b, false⟩).2.2 := by
  rw [Tile.runs, if_pos ⟨hy, rfl⟩]

theorem runs_reads (hnext : Takes next turn) {n : Nat} {used : QByteArray}
    (hturns : Turns turn n used) {fuel : Nat} (hfuel : used.length < fuel) {s : Tile.Cursor}
    (hx : s.x < t.tw) (hleft : left t s = n) (rest : QByteArray) :
    (t.runs next fuel s ⟨used ++ rest, false⟩).reader = ⟨rest, false⟩ := by
  induction hturns generalizing fuel s with
  | done =>
    rw [runs_exit (by rw [left_pos hx]; omega)]
    rfl
  | @turn n k used later hpos hturn _ ih =>
    obtain ⟨c, run, hread, hrun⟩ := hnext.reads used k (later ++ rest) hturn
    obtain ⟨hx', hleft'⟩ := spread_left (t := t) c run.toNat hx
    have hused := List.length_pos_of_ne_nil (hnext.nonempty used k hturn)
    rw [List.length_append] at hfuel
    obtain ⟨fuel, rfl⟩ : ∃ m, fuel = m + 1 := ⟨fuel - 1, by omega⟩
    rw [List.append_assoc, runs_turn (by rw [left_pos hx]; omega), hread]
    exact ih (by omega) hx' (by rw [hleft', hleft, hrun])

theorem runs_exact (hnext : Takes next turn) {fuel : Nat} {b : QByteArray}
    (hfuel : b.length < fuel) {s : Tile.Cursor} (hx : s.x < t.tw)
    (hgood : (t.runs next fuel s ⟨b, false⟩).reader.bad = false) :
    ∃ used, b = used ++ (t.runs next fuel s ⟨b, false⟩).reader.rest ∧
      Turns turn (left t s) used := by
  induction fuel generalizing b s with
  | zero => omega
  | succ fuel ih =>
    by_cases hy : s.y < t.th
    · rw [runs_turn hy] at hgood ⊢
      cases hbad : (next ⟨b, false⟩).2.2.bad with
      | true =>
        rw [runs_bad hbad, hbad] at hgood
        exact absurd hgood.symm Bool.false_ne_true
      | false =>
        obtain ⟨used, hb, hturn⟩ := hnext.exact b hbad
        have hused := List.length_pos_of_ne_nil (hnext.nonempty _ _ hturn)
        have hlength := congrArg List.length hb
        rw [List.length_append] at hlength
        have hstate : (next ⟨b, false⟩).2.2 = ⟨(next ⟨b, false⟩).2.2.rest, false⟩ :=
          congrArg (TileReader.mk _) hbad
        obtain ⟨hx', hleft⟩ := spread_left (t := t) (next ⟨b, false⟩).1
          (next ⟨b, false⟩).2.1.toNat hx
        rw [hstate] at hgood ⊢
        obtain ⟨later, hlater, hturns⟩ := ih (by omega) hx' hgood
        refine ⟨used ++ later, ?_, ?_⟩
        · rw [List.append_assoc, ← hlater, ← hb]
        · rw [hleft] at hturns
          exact .turn ((left_pos hx).mp hy) hturn hturns
    · have hzero : left t s = 0 := by
        have hpos := mt (left_pos hx).mpr hy
        omega
      rw [runs_exit hy, hzero]
      exact ⟨[], rfl, .done⟩

theorem skips_runs (hnext : Takes next turn) (htw : 0 < t.tw) (pixels : List UInt32) :
    Skips (fun r => (t.runs next (r.rest.length + 1) ⟨0, 0, pixels⟩ r).reader)
      (Turns turn (t.tw * t.th)) := by
  have hleft : left t ⟨0, 0, pixels⟩ = t.tw * t.th := Nat.mul_comm ..
  refine ⟨?_, ?_, ?_⟩
  · intro used rest hused
    exact runs_reads hnext hused (by rw [List.length_append]; omega) htw hleft rest
  · intro b hb
    rw [← hleft]
    exact runs_exact hnext (Nat.lt_succ_self _) htw hb
  · intro r hr
    rw [runs_bad hr]
    exact hr

theorem runs_loop (hnext : Takes next turn) {fuel : Nat} {s : Tile.Cursor} {reader : TileReader}
    (hfuel : reader.rest.length < fuel) : Loop t next s reader (t.runs next fuel s reader) := by
  induction fuel generalizing s reader with
  | zero => omega
  | succ fuel ih =>
    obtain ⟨b, bad⟩ := reader
    cases bad with
    | true =>
      rw [runs_bad rfl]
      exact .exit fun h => Bool.false_ne_true h.2
    | false =>
      by_cases hy : s.y < t.th
      · rw [runs_turn hy]
        have hread : next ⟨b, false⟩ =
            ((next ⟨b, false⟩).1, (next ⟨b, false⟩).2.1, (next ⟨b, false⟩).2.2) := rfl
        refine .turn ⟨hy, rfl⟩ hread ?_
        cases hbad : (next ⟨b, false⟩).2.2.bad with
        | true =>
          rw [runs_bad hbad]
          refine .exit fun h => ?_
          rw [hbad] at h
          exact absurd h.2 (by decide)
        | false =>
          apply ih
          obtain ⟨used, hb, hturn⟩ := hnext.exact b hbad
          have hused := List.length_pos_of_ne_nil (hnext.nonempty _ _ hturn)
          have hlength := congrArg List.length hb
          rw [List.length_append] at hlength
          dsimp only at hfuel
          omega
      · rw [runs_exit hy]
        exact .exit fun h => hy h.1

end Runs

end Connect.Rfb
