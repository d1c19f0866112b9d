import MacXterm.Connect.ZrleWhole

namespace Connect.Rfb

open Qt Picture

section Subencodings

variable {t : Tile} {pixels : List UInt32}

theorem subencoding_cases (sub : UInt8) :
    sub = 0 ∨ sub = 1 ∨ 2 ≤ sub ∧ sub ≤ 16 ∨ sub = 128 ∨ 130 ≤ sub ∨ Unused sub := by
  have hbound := sub.toNat_lt
  simp only [Unused, UInt8.le_iff_toNat_le, ← UInt8.toNat_inj, UInt8.reduceToNat]
  omega

theorem decode_cons (sub : UInt8) (b : QByteArray) (bad : Bool) :
    t.decode ⟨pixels, ⟨sub :: b, bad⟩⟩ =
      if sub = 0 then t.raw ⟨pixels, ⟨b, bad⟩⟩
      else if sub = 1 then t.solid ⟨pixels, ⟨b, bad⟩⟩
      else if 2 ≤ sub ∧ sub ≤ 16 then t.packed sub.toNat ⟨pixels, ⟨b, bad⟩⟩
      else if sub = 128 then t.plainRle ⟨pixels, ⟨b, bad⟩⟩
      else if 130 ≤ sub then t.paletteRle (sub.toNat - 128) ⟨pixels, ⟨b, bad⟩⟩
      else ⟨pixels, ⟨b, true⟩⟩ := rfl

theorem decode_packed {sub : UInt8} (hlow : 2 ≤ sub) (hhigh : sub ≤ 16) (b : QByteArray)
    (bad : Bool) :
    t.decode ⟨pixels, ⟨sub :: b, bad⟩⟩ = t.packed sub.toNat ⟨pixels, ⟨b, bad⟩⟩ := by
  have hzero : sub ≠ 0 := by
    rintro rfl
    exact absurd hlow (by decide)
  have hone : sub ≠ 1 := by
    rintro rfl
    exact absurd hlow (by decide)
  rw [decode_cons, if_neg hzero, if_neg hone, if_pos (And.intro hlow hhigh)]

theorem decode_paletteRle {sub : UInt8} (hlow : 130 ≤ sub) (b : QByteArray) (bad : Bool) :
    t.decode ⟨pixels, ⟨sub :: b, bad⟩⟩ = t.paletteRle (sub.toNat - 128) ⟨pixels, ⟨b, bad⟩⟩ := by
  have hne (n : UInt8) (hn : ¬ 130 ≤ n) : sub ≠ n := by
    rintro rfl
    exact hn hlow
  have hpacked : ¬ (2 ≤ sub ∧ sub ≤ 16) := by
    rintro ⟨-, hhigh⟩
    exact absurd (UInt8.le_trans hlow hhigh) (by decide)
  rw [decode_cons, if_neg (hne 0 (by decide)), if_neg (hne 1 (by decide)), if_neg hpacked,
    if_neg (hne 128 (by decide)), if_pos hlow]

theorem decode_unused {sub : UInt8} (h : Unused sub) (b : QByteArray) (bad : Bool) :
    t.decode ⟨pixels, ⟨sub :: b, bad⟩⟩ = ⟨pixels, ⟨b, true⟩⟩ := by
  have hne : sub ≠ 0 ∧ sub ≠ 1 ∧ ¬ (2 ≤ sub ∧ sub ≤ 16) ∧ sub ≠ 128 ∧ ¬ 130 ≤ sub := by
    simp only [Unused, UInt8.le_iff_toNat_le, ← UInt8.toNat_inj, UInt8.reduceToNat, ne_eq] at h ⊢
    omega
  obtain ⟨hzero, hone, hpacked, hplain, hpalette⟩ := hne
  rw [decode_cons, if_neg hzero, if_neg hone, if_neg hpacked, if_neg hplain, if_neg hpalette]

theorem skips_plainRle (htw : 0 < t.tw) (pixels : List UInt32) :
    Skips (fun r => (t.plainRle ⟨pixels, r⟩).reader) (Turns PlainTurn (t.tw * t.th)) :=
  skips_runs takes_plain htw pixels

theorem skips_paletteRle (htw : 0 < t.tw) (size : Nat) (pixels : List UInt32) :
    Skips (fun r => (t.paletteRle size ⟨pixels, r⟩).reader)
      (Then (Sized (size * 3)) (Turns PaletteTurn (t.tw * t.th))) :=
  (skips_palette size).bind fun r => skips_runs (takes_palette (r.palette size).1) htw pixels

theorem decode_stays (htw : 0 < t.tw) (pixels : List UInt32) (b : QByteArray) :
    (t.decode ⟨pixels, ⟨b, true⟩⟩).reader.bad = true := by
  cases b with
  | nil => exact (skips_raw pixels).stays ⟨[], true⟩ rfl
  | cons sub b =>
    rcases subencoding_cases sub with rfl | rfl | ⟨hlow, hhigh⟩ | rfl | hlow | hunused
    · exact (skips_raw pixels).stays ⟨b, true⟩ rfl
    · exact (skips_solid pixels).stays ⟨b, true⟩ rfl
    · rw [decode_packed hlow hhigh]
      exact (skips_packed sub.toNat pixels).stays ⟨b, true⟩ rfl
    · exact (skips_plainRle htw pixels).stays ⟨b, true⟩ rfl
    · rw [decode_paletteRle hlow]
      exact (skips_paletteRle htw (sub.toNat - 128) pixels).stays ⟨b, true⟩ rfl
    · rw [decode_unused hunused]

theorem decode_exact (htw : 0 < t.tw) (pixels : List UInt32) (b : QByteArray)
    (hgood : (t.decode ⟨pixels, ⟨b, false⟩⟩).reader.bad = false) :
    ∃ used, b = used ++ (t.decode ⟨pixels, ⟨b, false⟩⟩).reader.rest ∧
      WholeTile t.tw t.th used := by
  cases b with
  | nil =>
    have hbad : (t.decode ⟨pixels, ⟨[], false⟩⟩).reader.bad = true :=
      (skips_raw pixels).stays ⟨[], true⟩ rfl
    rw [hbad] at hgood
    exact absurd hgood.symm Bool.false_ne_true
  | cons sub b =>
    rcases subencoding_cases sub with rfl | rfl | ⟨hlow, hhigh⟩ | rfl | hlow | hunused
    · obtain ⟨used, hb, hused⟩ := (skips_raw pixels).exact b hgood
      exact ⟨0 :: used, congrArg _ hb, .raw used hused⟩
    · obtain ⟨used, hb, hused⟩ := (skips_solid pixels).exact b hgood
      exact ⟨1 :: used, congrArg _ hb, .solid used hused⟩
    · rw [decode_packed hlow hhigh] at hgood ⊢
      obtain ⟨used, hb, hused⟩ := (skips_packed sub.toNat pixels).exact b hgood
      exact ⟨sub :: used, congrArg _ hb, .packed sub used hlow hhigh hused⟩
    · obtain ⟨used, hb, hused⟩ := (skips_plainRle htw pixels).exact b hgood
      exact ⟨128 :: used, congrArg _ hb, .plainRle used hused⟩
    · rw [decode_paletteRle hlow] at hgood ⊢
      obtain ⟨used, hb, palette, runs, rfl, hpalette, hruns⟩ :=
        (skips_paletteRle htw (sub.toNat - 128) pixels).exact b hgood
      exact ⟨sub :: (palette ++ runs), congrArg _ hb, .paletteRle sub palette runs hlow hpalette
        hruns⟩
    · rw [decode_unused hunused] at hgood
      exact absurd hgood.symm Bool.false_ne_true

theorem skips_decode (htw : 0 < t.tw) (pixels : List UInt32) :
    Skips (fun r => (t.decode ⟨pixels, r⟩).reader) (WholeTile t.tw t.th) := by
  refine ⟨?_, decode_exact htw pixels, ?_⟩
  · intro used rest hused
    cases hused with
    | raw b hb => exact (skips_raw pixels).reads b rest hb
    | solid b hb => exact (skips_solid pixels).reads b rest hb
    | packed sub b hlow hhigh hb =>
      rw [List.cons_append, decode_packed hlow hhigh]
      exact (skips_packed sub.toNat pixels).reads b rest hb
    | plainRle b hb => exact (skips_plainRle htw pixels).reads b rest hb
    | paletteRle sub palette b hlow hpalette hb =>
      rw [List.cons_append, decode_paletteRle hlow]
      exact (skips_paletteRle htw (sub.toNat - 128) pixels).reads _ rest
        ⟨palette, b, rfl, hpalette, hb⟩
  · rintro ⟨b, bad⟩ rfl
    exact decode_stays htw pixels b

theorem decode_broken (htw : 0 < t.tw) (pixels : List UInt32) {b : QByteArray}
    (hb : BrokenTile t.tw t.th b) : (t.decode ⟨pixels, ⟨b, false⟩⟩).reader.bad = true := by
  cases hb with
  | short b more hmore hwhole => exact (skips_decode htw pixels).short hmore hwhole
  | unused sub b hunused => rw [decode_unused hunused]

end Subencodings

section Whole

variable {tw th : Nat} {turn : QByteArray → Nat → Prop}

def Whole (P : QByteArray → Prop) (b : QByteArray) : Prop := ∃ used rest, b = used ++ rest ∧ P used

def Short (P : QByteArray → Prop) (b : QByteArray) : Prop := ∃ more, more ≠ [] ∧ P (b ++ more)

theorem sized_cases (n : Nat) (b : QByteArray) : Whole (Sized n) b ∨ Short (Sized n) b := by
  by_cases hn : n ≤ b.length
  · refine .inl ⟨b.take n, b.drop n, (List.take_append_drop n b).symm, ?_⟩
    rw [Sized, List.length_take, Nat.min_eq_left hn]
  · refine .inr ⟨List.replicate (n - b.length) 0, ?_, ?_⟩
    · rw [List.ne_nil_iff_length_pos, List.length_replicate]
      omega
    · rw [Sized, List.length_append, List.length_replicate]
      omega

theorem then_cases {P Q : QByteArray → Prop} (hP : ∀ b, Whole P b ∨ Short P b)
    (hQ : ∀ b, Whole Q b ∨ Short Q b) (hsome : ∃ b, Q b) (b : QByteArray) :
    Whole (Then P Q) b ∨ Short (Then P Q) b := by
  rcases hP b with ⟨u, rest, rfl, hu⟩ | ⟨more, hmore, hu⟩
  · rcases hQ rest with ⟨v, rest, rfl, hv⟩ | ⟨more, hmore, hv⟩
    · exact .inl ⟨u ++ v, rest, (List.append_assoc ..).symm, u, v, rfl, hu, hv⟩
    · exact .inr ⟨more, hmore, u, rest ++ more, List.append_assoc .., hu, hv⟩
  · obtain ⟨v, hv⟩ := hsome
    refine .inr ⟨more ++ v, ?_, b ++ more, v, (List.append_assoc ..).symm, hu, hv⟩
    exact fun hnil => hmore (List.append_eq_nil_iff.mp hnil).1

def IsLength (b : QByteArray) : Prop := ∃ k last, last ≠ 255 ∧ b = lengthCode k last

theorem length_cases (b : QByteArray) : Whole IsLength b ∨ Short IsLength b := by
  induction b with
  | nil => exact .inr ⟨[0], List.cons_ne_nil _ _, 0, 0, by decide, rfl⟩
  | cons c b ih =>
    by_cases hc : c = 255
    · subst hc
      rcases ih with ⟨_, rest, rfl, k, last, hlast, rfl⟩ | ⟨more, hmore, k, last, hlast, hb⟩
      · exact .inl ⟨lengthCode (k + 1) last, rest, rfl, k + 1, last, hlast, rfl⟩
      · refine .inr ⟨more, hmore, k + 1, last, hlast, ?_⟩
        rw [List.cons_append, hb]
        rfl
    · exact .inl ⟨[c], b, rfl, 0, c, hc, rfl⟩

def IsTurn (turn : QByteArray → Nat → Prop) (b : QByteArray) : Prop := ∃ k, turn b k

theorem isTurn_plain (b : QByteArray) : IsTurn PlainTurn b ↔ Then (Sized 3) IsLength b := by
  constructor
  · rintro ⟨_, colour, k, last, hcolour, hlast⟩
    exact ⟨colour, _, rfl, hcolour, k, last, hlast, rfl⟩
  · rintro ⟨colour, _, rfl, hcolour, k, last, hlast, rfl⟩
    exact ⟨_, .run colour k last hcolour hlast⟩

theorem plainTurn_cases (b : QByteArray) :
    Whole (IsTurn PlainTurn) b ∨ Short (IsTurn PlainTurn) b := by
  rw [funext fun b => propext (isTurn_plain b)]
  exact then_cases (sized_cases 3) length_cases ⟨[0], 0, 0, by decide, rfl⟩ b

theorem paletteTurn_cases (b : QByteArray) :
    Whole (IsTurn PaletteTurn) b ∨ Short (IsTurn PaletteTurn) b := by
  cases b with
  | nil => exact .inr ⟨[0], List.cons_ne_nil _ _, 1, .single 0 (by decide)⟩
  | cons index b =>
    by_cases hindex : index &&& 0x80 = 0
    · exact .inl ⟨[index], b, rfl, 1, .single index hindex⟩
    · rcases length_cases b with
        ⟨_, rest, rfl, k, last, hlast, rfl⟩ | ⟨more, hmore, k, last, hlast, hb⟩
      · exact .inl ⟨_, rest, rfl, _, .run index k last hindex hlast⟩
      · refine .inr ⟨more, hmore, codedLength k last, ?_⟩
        rw [List.cons_append, hb]
        exact .run index k last hindex hlast

theorem exists_turns (hone : ∃ b, turn b 1) (n : Nat) : ∃ b, Turns turn n b := by
  induction n with
  | zero => exact ⟨[], .done⟩
  | succ n ih =>
    obtain ⟨used, hused⟩ := hone
    obtain ⟨rest, hrest⟩ := ih
    exact ⟨used ++ rest, .turn (Nat.succ_pos n) hused hrest⟩

theorem turns_cases (hturn : ∀ b, Whole (IsTurn turn) b ∨ Short (IsTurn turn) b)
    (hone : ∃ b, turn b 1) (hnonempty : ∀ used k, turn used k → used ≠ []) (n : Nat)
    (b : QByteArray) : Whole (Turns turn n) b ∨ Short (Turns turn n) b := by
  induction hb : b.length using Nat.strong_induction_on generalizing b n with
  | _ m ih =>
    rcases Nat.eq_zero_or_pos n with rfl | hn
    · exact .inl ⟨[], b, rfl, .done⟩
    rcases hturn b with ⟨used, rest, rfl, k, hk⟩ | ⟨more, hmore, k, hk⟩
    · have hused := List.length_pos_of_ne_nil (hnonempty used k hk)
      rw [List.length_append] at hb
      rcases ih rest.length (by omega) (n - k) rest rfl with
        ⟨later, rest, rfl, hlater⟩ | ⟨more, hmore, hlater⟩
      · exact .inl ⟨used ++ later, rest, (List.append_assoc ..).symm, .turn hn hk hlater⟩
      · refine .inr ⟨more, hmore, ?_⟩
        rw [List.append_assoc]
        exact .turn hn hk hlater
    · obtain ⟨later, hlater⟩ := exists_turns hone (n - k)
      refine .inr ⟨more ++ later, ?_, ?_⟩
      · exact fun hnil => hmore (List.append_eq_nil_iff.mp hnil).1
      · rw [← List.append_assoc]
        exact .turn hn hk hlater

theorem plainTurn_one : ∃ b, PlainTurn b 1 := by
  have hlength : codedLength 0 0 = 1 := by decide
  have hturn := PlainTurn.run [0, 0, 0] 0 0 rfl (by decide)
  rw [hlength] at hturn
  exact ⟨_, hturn⟩

theorem plainTurns_cases (n : Nat) (b : QByteArray) :
    Whole (Turns PlainTurn n) b ∨ Short (Turns PlainTurn n) b :=
  turns_cases plainTurn_cases plainTurn_one takes_plain.nonempty n b

theorem paletteTurns_cases (n : Nat) (b : QByteArray) :
    Whole (Turns PaletteTurn n) b ∨ Short (Turns PaletteTurn n) b :=
  turns_cases paletteTurn_cases ⟨[0], .single 0 (by decide)⟩ (takes_palette []).nonempty n b

-- The head of a tile decides the form of what follows.
theorem tile_of_body {P : QByteArray → Prop} {sub : UInt8} {b : QByteArray}
    (hbody : ∀ b, P b → WholeTile tw th (sub :: b)) (hcases : Whole P b ∨ Short P b) :
    Whole (WholeTile tw th) (sub :: b) ∨ BrokenTile tw th (sub :: b) := by
  rcases hcases with ⟨used, rest, rfl, hused⟩ | ⟨more, hmore, hused⟩
  · exact .inl ⟨sub :: used, rest, rfl, hbody used hused⟩
  · exact .inr (.short _ more hmore (hbody _ hused))

theorem tile_cases (tw th : Nat) (b : QByteArray) :
    Whole (WholeTile tw th) b ∨ BrokenTile tw th b := by
  cases b with
  | nil => exact .inr (.short [] [1, 0, 0, 0] (List.cons_ne_nil _ _) (.solid [0, 0, 0] rfl))
  | cons sub b =>
    rcases subencoding_cases sub with rfl | rfl | ⟨hlow, hhigh⟩ | rfl | hlow | hunused
    · exact tile_of_body .raw (sized_cases _ b)
    · exact tile_of_body .solid (sized_cases _ b)
    · exact tile_of_body (fun b => .packed sub b hlow hhigh) (sized_cases _ b)
    · exact tile_of_body .plainRle (plainTurns_cases _ b)
    · refine tile_of_body ?_ (then_cases (sized_cases ((sub.toNat - 128) * 3))
        (paletteTurns_cases (tw * th)) (exists_turns ⟨[0], .single 0 (by decide)⟩ _) b)
      rintro _ ⟨palette, runs, rfl, hpalette, hruns⟩
      exact .paletteRle sub palette runs hlow hpalette hruns
    · exact .inr (.unused sub b hunused)

theorem tiles_cases (w h : Nat) (origins : List (Nat × Nat)) (b : QByteArray) :
    Whole (WholeTiles w h origins) b ∨ BrokenTiles w h origins b := by
  induction origins generalizing b with
  | nil => exact .inl ⟨[], b, rfl, .nil⟩
  | cons origin origins ih =>
    obtain ⟨tx, ty⟩ := origin
    rcases tile_cases (min 64 (w - tx)) (min 64 (h - ty)) b with ⟨tile, rest, rfl, htile⟩ | hbroken
    · rcases ih rest with ⟨used, rest, rfl, hused⟩ | hbroken
      · exact .inl ⟨tile ++ used, rest, (List.append_assoc ..).symm, .cons htile hused⟩
      · exact .inr (.later htile hbroken)
    · exact .inr (.here origins hbroken)

end Whole

section Pixels

variable {t : Tile} {n : Nat}

theorem length_put {w h : Nat} {pixels : List UInt32} (hn : pixels.length = n) (x y : Nat)
    (c : UInt32) : (put w h pixels x y c).length = n := by
  unfold put
  split
  · rw [List.length_set, hn]
  · exact hn

theorem length_fill {w h : Nat} {pixels : List UInt32} (hn : pixels.length = n)
    (x0 y0 lw lh : Nat) (g : Picture UInt32) : (fill w h pixels x0 y0 lw lh g).length = n := by
  refine List.foldlRecOn (motive := fun p : List UInt32 => p.length = n) _ _ hn
    fun pixels hpixels yy _ => ?_
  exact List.foldlRecOn (motive := fun p : List UInt32 => p.length = n) _ _ hpixels
    fun pixels hpixels xx _ => length_put hpixels ..

theorem length_spread {s : Tile.Cursor} (hn : s.pixels.length = n) (c : UInt32) (run : Nat) :
    (t.spread c run s).pixels.length = n := by
  induction run generalizing s with
  | zero => exact hn
  | succ run ih =>
    have hput := length_put (w := t.w) (h := t.h) hn (t.tx + s.x) (t.ty + s.y) c
    rw [Tile.spread]
    split
    · split
      · exact ih hput
      · exact ih hput
    · exact hn

theorem length_runs {next : TileReader → UInt32 × Int × TileReader} {fuel : Nat}
    {s : Tile.Cursor} {reader : TileReader} (hn : s.pixels.length = n) :
    (t.runs next fuel s reader).pixels.length = n := by
  induction fuel generalizing s reader with
  | zero => exact hn
  | succ fuel ih =>
    rw [Tile.runs]
    split
    · exact ih (length_spread hn ..)
    · exact hn

theorem length_raw {s : TileState} (hn : s.pixels.length = n) : (t.raw s).pixels.length = n := by
  refine List.foldlRecOn (motive := fun s : TileState => s.pixels.length = n) _ _ hn
    fun s hs y _ => ?_
  exact List.foldlRecOn (motive := fun s : TileState => s.pixels.length = n) _ _ hs
    fun s hs x _ => length_put hs ..

theorem length_packed {s : TileState} (size : Nat) (hn : s.pixels.length = n) :
    (t.packed size s).pixels.length = n := by
  refine List.foldlRecOn (motive := fun s : TileState => s.pixels.length = n) _ _ hn
    fun s hs y _ => ?_
  split
  · exact hs
  · exact List.foldlRecOn (motive := fun s : Tile.PackedState => s.state.pixels.length = n) _ _ hs
      fun s hs x _ => length_put hs ..

theorem length_plainRle {s : TileState} (hn : s.pixels.length = n) :
    (t.plainRle s).pixels.length = n := length_runs hn

theorem length_paletteRle {s : TileState} (size : Nat) (hn : s.pixels.length = n) :
    (t.paletteRle size s).pixels.length = n := length_runs hn

theorem length_decode {s : TileState} (hn : s.pixels.length = n) :
    (t.decode s).pixels.length = n := by
  obtain ⟨pixels, b, bad⟩ := s
  cases b with
  | nil => exact length_raw (s := ⟨pixels, ⟨[], true⟩⟩) hn
  | cons sub b =>
    rcases subencoding_cases sub with rfl | rfl | ⟨hlow, hhigh⟩ | rfl | hlow | hunused
    · exact length_raw (s := ⟨pixels, ⟨b, bad⟩⟩) hn
    · exact length_fill hn ..
    · rw [decode_packed hlow hhigh]
      exact length_packed _ hn
    · exact length_plainRle (s := ⟨pixels, ⟨b, bad⟩⟩) hn
    · rw [decode_paletteRle hlow]
      exact length_paletteRle _ hn
    · rw [decode_unused hunused]
      exact hn

theorem length_tiles (w h : Nat) (origins : List (Nat × Nat)) {s : TileState}
    (hn : s.pixels.length = n) : (origins.foldl (decodeTile w h) s).pixels.length = n := by
  refine List.foldlRecOn (motive := fun s : TileState => s.pixels.length = n) _ _ hn
    fun s hs origin _ => ?_
  unfold decodeTile
  split
  · exact hs
  · exact length_decode hs

end Pixels

section Rectangle

variable {w h : Nat} {origins : List (Nat × Nat)}

theorem tiles_bad {s : TileState} (hbad : s.reader.bad = true) :
    origins.foldl (decodeTile w h) s = s := by
  induction origins with
  | nil => rfl
  | cons origin origins ih => rw [List.foldl_cons, decodeTile, if_pos hbad, ih]

theorem tiles_cons {pixels : List UInt32} {b : QByteArray} (tx ty : Nat) :
    ((tx, ty) :: origins).foldl (decodeTile w h) ⟨pixels, ⟨b, false⟩⟩ =
      origins.foldl (decodeTile w h) (Tile.decode ⟨w, h, tx, ty⟩ ⟨pixels, ⟨b, false⟩⟩) := rfl

theorem tile_width {tx : Nat} (h : tx < w) : 0 < min 64 (w - tx) := by omega

theorem whole_tiles {used : QByteArray} (hused : WholeTiles w h origins used)
    (horigins : ∀ o ∈ origins, o.1 < w) (pixels : List UInt32) (rest : QByteArray) :
    (origins.foldl (decodeTile w h) ⟨pixels, ⟨used ++ rest, false⟩⟩).reader = ⟨rest, false⟩ := by
  induction hused generalizing pixels with
  | nil => rfl
  | @cons tx ty origins tile later htile _ ih =>
    obtain ⟨hx, hrest⟩ := List.forall_mem_cons.mp horigins
    have hread := (skips_decode (t := ⟨w, h, tx, ty⟩) (tile_width hx) pixels).reads tile
      (later ++ rest) htile
    have hstate : Tile.decode ⟨w, h, tx, ty⟩ ⟨pixels, ⟨tile ++ (later ++ rest), false⟩⟩ =
        ⟨(Tile.decode ⟨w, h, tx, ty⟩ ⟨pixels, ⟨tile ++ (later ++ rest), false⟩⟩).pixels,
          ⟨later ++ rest, false⟩⟩ := congrArg (TileState.mk _) hread
    rw [List.append_assoc, tiles_cons, hstate]
    exact ih hrest _

theorem broken_tiles {b : QByteArray} (hb : BrokenTiles w h origins b)
    (horigins : ∀ o ∈ origins, o.1 < w) (pixels : List UInt32) :
    (origins.foldl (decodeTile w h) ⟨pixels, ⟨b, false⟩⟩).reader.bad = true := by
  induction hb generalizing pixels with
  | @here tx ty b origins hbroken =>
    obtain ⟨hx, -⟩ := List.forall_mem_cons.mp horigins
    have hbad := decode_broken (t := ⟨w, h, tx, ty⟩) (tile_width hx) pixels hbroken
    rw [tiles_cons, tiles_bad hbad]
    exact hbad
  | @later tx ty origins tile rest htile _ ih =>
    obtain ⟨hx, hrest⟩ := List.forall_mem_cons.mp horigins
    have hread := (skips_decode (t := ⟨w, h, tx, ty⟩) (tile_width hx) pixels).reads tile rest htile
    have hstate : Tile.decode ⟨w, h, tx, ty⟩ ⟨pixels, ⟨tile ++ rest, false⟩⟩ =
        ⟨(Tile.decode ⟨w, h, tx, ty⟩ ⟨pixels, ⟨tile ++ rest, false⟩⟩).pixels, ⟨rest, false⟩⟩ :=
      congrArg (TileState.mk _) hread
    rw [tiles_cons, hstate]
    exact ih hrest _

theorem zrlePixels_eq (n : Nat) (tiles : QByteArray) :
    zrlePixels w h n tiles =
      let s := (tileOrigins w h 64).foldl (decodeTile w h)
        ⟨List.replicate n 0xFF000000, ⟨tiles, false⟩⟩
      if s.reader.bad then [] else s.pixels := rfl

theorem zrlePixels_whole {tiles : QByteArray} (n : Nat)
    (hwhole : Whole (WholeTiles w h (tileOrigins w h 64)) tiles) :
    (zrlePixels w h n tiles).length = n := by
  obtain ⟨used, rest, rfl, hused⟩ := hwhole
  have hreader := whole_tiles hused (fun o ho => (mem_tileOrigins (by decide) ho).1)
    (List.replicate n 0xFF000000) rest
  rw [zrlePixels_eq]
  simp only [hreader, Bool.false_eq_true, if_false]
  exact length_tiles w h _ List.length_replicate

theorem zrlePixels_broken {tiles : QByteArray} (n : Nat)
    (hbroken : BrokenTiles w h (tileOrigins w h 64) tiles) : zrlePixels w h n tiles = [] := by
  have hbad := broken_tiles hbroken (fun o ho => (mem_tileOrigins (by decide) ho).1)
    (List.replicate n 0xFF000000)
  rw [zrlePixels_eq]
  simp only [hbad, if_true]

theorem not_whole_of_broken {tiles : QByteArray}
    (hbroken : BrokenTiles w h (tileOrigins w h 64) tiles) :
    ¬ Whole (WholeTiles w h (tileOrigins w h 64)) tiles := by
  rintro ⟨used, rest, rfl, hused⟩
  have horigins : ∀ o ∈ tileOrigins w h 64, o.1 < w :=
    fun o ho => (mem_tileOrigins (by decide) ho).1
  have hbad := broken_tiles hbroken horigins []
  rw [whole_tiles hused horigins [] rest] at hbad
  exact Bool.false_ne_true hbad

end Rectangle

section Payload

variable {z : Zlib}

theorem plainRle_loop (t : Tile) (s : TileState) :
    Loop t Tile.plainRun ⟨0, 0, s.pixels⟩ s.reader (t.plainRle s) :=
  runs_loop takes_plain (Nat.lt_succ_self _)

theorem paletteRle_loop (t : Tile) (size : Nat) (s : TileState) :
    Loop t (Tile.paletteRun (s.reader.palette size).1) ⟨0, 0, s.pixels⟩ (s.reader.palette size).2
      (t.paletteRle size s) :=
  runs_loop (takes_palette _) (Nat.lt_succ_self _)

theorem decodeZRLERect_payload {zlib zlib' : RfbZlibStream z} {r : Rectangle}
    {buf tiles : QByteArray}
    {off : Nat} (harea : r.width.toNat * r.height.toNat < 2 ^ 31)
    (hsize : off + (4 + (rd32be buf off).toNat) < 2 ^ 31)
    (hwhole : off + (4 + (rd32be buf off).toNat) ≤ buf.length)
    (hinflate : zlib.inflate (mid buf (off + 4) (rd32be buf off).toNat) = (zlib', tiles))
    (hok : zlib'.failed = false) :
    (decodeZRLERect zlib r buf off).1 = .drawn (4 + (rd32be buf off).toNat : Nat)
      (zrlePixels r.width.toNat r.height.toNat (r.width.toNat * r.height.toNat) tiles) := by
  have hlen := int32_eq (x := (rd32be buf off).toNat) (by omega) (by omega)
  have hneed := int32_eq (x := (4 + (rd32be buf off).toNat : Nat)) (by omega) (by omega)
  have hend := int32_eq (x := off + (4 + (rd32be buf off).toNat : Nat)) (by omega) (by omega)
  have hn : int32 (r.width.toNat * r.height.toNat) = (r.width.toNat * r.height.toNat : Nat) := by
    rw [← Int.natCast_mul, int32_eq] <;> omega
  rw [VncConnection.decodeZRLERect_eq (by omega) (by omega) (by omega), hlen, hneed, hend,
    if_neg (by omega)]
  simp only [VncConnection.zrleData, hinflate, hok, hn, Int.toNat_natCast, Bool.false_eq_true,
    if_false]

end Payload

end Connect.Rfb
