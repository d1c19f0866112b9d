import Mathlib.Data.List.Basic
import Mathlib.Data.List.Induction

abbrev Picture (α : Type) := Nat → Nat → α

namespace Picture

variable {α : Type}

def raster (w h : Nat) (f : Picture α) : List α :=
  (List.range h).flatMap fun y => (List.range w).map fun x => f x y

def patch (f : Picture α) (x0 y0 w h : Nat) (g : Picture α) : Picture α := fun x y =>
  if x0 ≤ x ∧ x < x0 + w ∧ y0 ≤ y ∧ y < y0 + h then g (x - x0) (y - y0) else f x y

def put (w h : Nat) (pixels : List α) (x y : Nat) (c : α) : List α :=
  if x < w ∧ y < h then pixels.set (y * w + x) c else pixels

def fill (w h : Nat) (pixels : List α) (x0 y0 lw lh : Nat) (g : Picture α) : List α :=
  (List.range lh).foldl (fun pixels yy =>
    (List.range lw).foldl (fun pixels xx => put w h pixels (x0 + xx) (y0 + yy) (g xx yy)) pixels)
    pixels

def shift (f : Picture α) (x0 y0 : Nat) : Picture α := fun x y => f (x0 + x) (y0 + y)

-- The block at x0, y0 of this width with as many of its cells as there are colours, row by row.
def written (f : Picture α) (x0 y0 lw : Nat) (cs : List α) : Picture α := fun x y =>
  if x0 ≤ x ∧ x < x0 + lw ∧ y0 ≤ y then (cs[(y - y0) * lw + (x - x0)]?).getD (f x y) else f x y

theorem foldl_range {β γ δ : Type} (rep : β → γ) {f : γ → Nat → γ} {g : β → δ → β} (xs : List δ)
    (h : ∀ b i (hi : i < xs.length), f (rep b) i = rep (g b xs[i])) (b : β) :
    (List.range xs.length).foldl f (rep b) = rep (xs.foldl g b) := by
  induction xs using List.reverseRecOn with
  | nil => rfl
  | append_singleton xs x ih =>
    have hprefix : ∀ b i (hi : i < xs.length), f (rep b) i = rep (g b xs[i]) := by
      intro b i hi
      rw [h b i (by rw [List.length_append]; omega), List.getElem_append_left hi]
    have hlast := h (xs.foldl g b) xs.length (by simp)
    rw [List.getElem_append_right (Nat.le_refl _)] at hlast
    rw [List.length_append, List.length_singleton, List.range_succ, List.foldl_append,
      List.foldl_append, ih hprefix, List.foldl_cons, List.foldl_nil, hlast]
    simp

theorem foldl_steps {σ : Type} (step : σ → Nat → σ) (state : Nat → σ) {n : Nat}
    (h : ∀ i < n, step (state i) i = state (i + 1)) :
    (List.range n).foldl step (state 0) = state n := by
  induction n with
  | zero => rfl
  | succ n ih =>
    rw [List.range_succ, List.foldl_append, ih (fun i hi => h i (by omega)), List.foldl_cons,
      List.foldl_nil, h n (by omega)]

theorem length_raster (w h : Nat) (f : Picture α) : (raster w h f).length = h * w := by
  simp [raster, List.length_flatMap]

theorem raster_congr {w h : Nat} {f g : Picture α} (hfg : ∀ x < w, ∀ y < h, f x y = g x y) :
    raster w h f = raster w h g := by
  unfold raster
  rw [List.flatMap_def, List.flatMap_def]
  congr 1
  apply List.map_congr_left
  intro y hy
  apply List.map_congr_left
  intro x hx
  exact hfg x (List.mem_range.mp hx) y (List.mem_range.mp hy)

theorem raster_succ (w h : Nat) (f : Picture α) :
    raster w (h + 1) f = raster w h f ++ (List.range w).map fun x => f x h := by
  simp [raster, List.range_succ]

theorem getElem?_raster {w h x y : Nat} (f : Picture α) (hx : x < w) (hy : y < h) :
    (raster w h f)[y * w + x]? = some (f x y) := by
  induction h with
  | zero => omega
  | succ h ih =>
    rw [raster_succ]
    rcases Nat.lt_succ_iff_lt_or_eq.mp hy with hlt | rfl
    · have hle : (y + 1) * w ≤ h * w := Nat.mul_le_mul_right w hlt
      rw [List.getElem?_append_left, ih hlt]
      rw [length_raster]
      rw [Nat.succ_mul] at hle
      omega
    · rw [List.getElem?_append_right (by rw [length_raster]; omega), length_raster,
        Nat.add_sub_cancel_left]
      simp [hx]

theorem ext_raster {w h : Nat} {pixels : List α} {f : Picture α} (hlength : pixels.length = h * w)
    (hpixels : ∀ x < w, ∀ y < h, pixels[y * w + x]? = some (f x y)) : pixels = raster w h f := by
  apply List.ext_getElem?
  intro i
  by_cases hi : i < h * w
  · have hw : 0 < w := by
      rcases Nat.eq_zero_or_pos w with rfl | hw
      · omega
      · exact hw
    have hy : i / w < h := Nat.div_lt_of_lt_mul (by rwa [Nat.mul_comm])
    have hx : i % w < w := Nat.mod_lt _ hw
    have hdiv : i / w * w + i % w = i := by
      rw [Nat.mul_comm]
      exact Nat.div_add_mod i w
    rw [← hdiv, hpixels _ hx _ hy, getElem?_raster f hx hy]
  · rw [List.getElem?_eq_none (by omega), List.getElem?_eq_none (by rw [length_raster]; omega)]

theorem put_raster (w h : Nat) (f : Picture α) (x y : Nat) (c : α) :
    put w h (raster w h f) x y c = raster w h (patch f x y 1 1 fun _ _ => c) := by
  have hcell (i j : Nat) : (x ≤ i ∧ i < x + 1 ∧ y ≤ j ∧ j < y + 1) ↔ i = x ∧ j = y := by omega
  unfold put
  split
  · rename_i hxy
    apply ext_raster
    · rw [List.length_set, length_raster]
    · intro i hi j hj
      simp only [patch, hcell, List.getElem?_set, length_raster]
      by_cases hij : i = x ∧ j = y
      · obtain ⟨rfl, rfl⟩ := hij
        have hle : (j + 1) * w ≤ h * w := Nat.mul_le_mul_right w hj
        rw [Nat.succ_mul] at hle
        simp
        omega
      · have hne : y * w + x ≠ j * w + i := by
          intro heq
          have hmod := congrArg (· % w) heq
          have hdiv := congrArg (· / w) heq
          have hw : 0 < w := by omega
          simp only [Nat.mul_comm _ w, Nat.mul_add_mod, Nat.mod_eq_of_lt hi,
            Nat.mod_eq_of_lt hxy.1] at hmod
          simp only [Nat.mul_comm _ w, Nat.mul_add_div hw, Nat.div_eq_of_lt hi,
            Nat.div_eq_of_lt hxy.1] at hdiv
          omega
        rw [if_neg hne, if_neg hij, getElem?_raster f hi hj]
  · rename_i hxy
    apply raster_congr
    intro i hi j hj
    simp only [patch, hcell]
    rw [if_neg]
    rintro ⟨rfl, rfl⟩
    exact hxy ⟨hi, hj⟩

theorem row_raster (w h : Nat) (f : Picture α) (x0 y lw : Nat) (g : Nat → α) :
    (List.range lw).foldl (fun pixels xx => put w h pixels (x0 + xx) y (g xx)) (raster w h f) =
      raster w h (patch f x0 y lw 1 fun x _ => g x) := by
  induction lw with
  | zero =>
    apply raster_congr
    intro i _ j _
    simp only [patch]
    rw [if_neg]
    omega
  | succ lw ih =>
    rw [List.range_succ, List.foldl_append, ih, List.foldl_cons, List.foldl_nil, put_raster]
    apply raster_congr
    intro i _ j _
    simp only [patch]
    by_cases hi : i = x0 + lw ∧ j = y
    · obtain ⟨rfl, rfl⟩ := hi
      simp
    · by_cases hrow : x0 ≤ i ∧ i < x0 + lw ∧ y ≤ j ∧ j < y + 1
      · rw [if_neg (by omega), if_pos hrow, if_pos (by omega)]
      · rw [if_neg (by omega), if_neg hrow, if_neg (by omega)]

theorem fill_raster (w h : Nat) (f : Picture α) (x0 y0 lw lh : Nat) (g : Picture α) :
    fill w h (raster w h f) x0 y0 lw lh g = raster w h (patch f x0 y0 lw lh g) := by
  unfold fill
  induction lh with
  | zero =>
    apply raster_congr
    intro i _ j _
    simp only [patch]
    rw [if_neg]
    omega
  | succ lh ih =>
    rw [List.range_succ, List.foldl_append, ih, List.foldl_cons, List.foldl_nil, row_raster]
    apply raster_congr
    intro i _ j _
    simp only [patch]
    by_cases hrow : x0 ≤ i ∧ i < x0 + lw ∧ y0 + lh ≤ j ∧ j < y0 + lh + 1
    · have hj : j = y0 + lh := by omega
      rw [if_pos hrow, if_pos (by omega), hj, Nat.add_sub_cancel_left]
    · by_cases hblock : x0 ≤ i ∧ i < x0 + lw ∧ y0 ≤ j ∧ j < y0 + lh
      · rw [if_neg hrow, if_pos hblock, if_pos (by omega)]
      · rw [if_neg hrow, if_neg hblock, if_neg (by omega)]

theorem raster_const (w h : Nat) (c : α) : raster w h (fun _ _ => c) = List.replicate (h * w) c := by
  induction h with
  | zero => simp [raster]
  | succ h ih => rw [raster_succ, ih, Nat.succ_mul, List.replicate_add]; simp

theorem patch_patch (f : Picture α) {x0 y0 lw lh x1 y1 kw kh : Nat} (g k : Picture α)
    (hx : x1 + kw ≤ lw) (hy : y1 + kh ≤ lh) :
    patch (patch f x0 y0 lw lh g) (x0 + x1) (y0 + y1) kw kh k =
      patch f x0 y0 lw lh (patch g x1 y1 kw kh k) := by
  funext x y
  simp only [patch]
  by_cases hin : x0 + x1 ≤ x ∧ x < x0 + x1 + kw ∧ y0 + y1 ≤ y ∧ y < y0 + y1 + kh
  · rw [if_pos hin, if_pos (by omega), if_pos (by omega), Nat.sub_sub, Nat.sub_sub]
  · rw [if_neg hin]
    by_cases hout : x0 ≤ x ∧ x < x0 + lw ∧ y0 ≤ y ∧ y < y0 + lh
    · rw [if_pos hout, if_pos hout, if_neg (by omega)]
    · rw [if_neg hout, if_neg hout]

theorem raster_patch_congr (w h : Nat) (f : Picture α) (x0 y0 : Nat) {lw lh : Nat}
    {g k : Picture α} (hgk : raster lw lh g = raster lw lh k) :
    raster w h (patch f x0 y0 lw lh g) = raster w h (patch f x0 y0 lw lh k) := by
  apply raster_congr
  intro x _ y _
  simp only [patch]
  split
  · have hx : x - x0 < lw := by omega
    have hy : y - y0 < lh := by omega
    have hcell := getElem?_raster g hx hy
    rw [hgk, getElem?_raster k hx hy] at hcell
    exact (Option.some.inj hcell).symm
  · rfl

theorem written_nil (f : Picture α) (x0 y0 lw : Nat) : written f x0 y0 lw [] = f := by
  funext x y
  simp [written]

theorem written_raster (w h : Nat) (f : Picture α) (x0 y0 lw lh : Nat) (g : Picture α) :
    raster w h (written f x0 y0 lw (raster lw lh g)) = raster w h (patch f x0 y0 lw lh g) := by
  apply raster_congr
  intro x _ y _
  simp only [written, patch]
  by_cases hcol : x0 ≤ x ∧ x < x0 + lw ∧ y0 ≤ y
  · rw [if_pos hcol]
    by_cases hrow : y < y0 + lh
    · rw [if_pos ⟨hcol.1, hcol.2.1, hcol.2.2, hrow⟩, getElem?_raster g (by omega) (by omega)]
      rfl
    · have hle : lh * lw ≤ (y - y0) * lw := Nat.mul_le_mul_right lw (by omega)
      rw [if_neg (fun h => hrow h.2.2.2), List.getElem?_eq_none]
      · rfl
      · rw [length_raster]
        omega
  · rw [if_neg hcol, if_neg]
    omega

theorem put_written {w h : Nat} (f : Picture α) (x0 y0 : Nat) {lw : Nat} (hlw : 0 < lw)
    (cs : List α) (c : α) :
    put w h (raster w h (written f x0 y0 lw cs)) (x0 + cs.length % lw) (y0 + cs.length / lw) c =
      raster w h (written f x0 y0 lw (cs ++ [c])) := by
  rw [put_raster]
  apply raster_congr
  intro x _ y _
  simp only [patch, written]
  by_cases hcol : x0 ≤ x ∧ x < x0 + lw ∧ y0 ≤ y
  · rw [if_pos hcol, if_pos hcol]
    have hx : x - x0 < lw := by omega
    have hcell : (x0 + cs.length % lw ≤ x ∧ x < x0 + cs.length % lw + 1 ∧
        y0 + cs.length / lw ≤ y ∧ y < y0 + cs.length / lw + 1) ↔
        (y - y0) * lw + (x - x0) = cs.length := by
      constructor
      · intro h
        have hmod : x - x0 = cs.length % lw := by omega
        have hdiv : y - y0 = cs.length / lw := by omega
        rw [hmod, hdiv, Nat.mul_comm]
        exact Nat.div_add_mod _ _
      · intro h
        have hmod : cs.length % lw = x - x0 := by
          rw [← h, Nat.mul_comm, Nat.mul_add_mod, Nat.mod_eq_of_lt hx]
        have hdiv : cs.length / lw = y - y0 := by
          rw [← h, Nat.mul_comm, Nat.mul_add_div hlw, Nat.div_eq_of_lt hx, Nat.add_zero]
        omega
    rw [List.getElem?_append]
    rcases Nat.lt_trichotomy ((y - y0) * lw + (x - x0)) cs.length with hlt | heq | hgt
    · rw [if_neg (fun h => absurd (hcell.mp h) (Nat.ne_of_lt hlt)), if_pos hlt]
    · rw [if_pos (hcell.mpr heq), if_neg (by omega), heq, Nat.sub_self]
      rfl
    · rw [if_neg (fun h => absurd (hcell.mp h) (Nat.ne_of_gt hgt)), if_neg (by omega),
        List.getElem?_eq_none (by omega), List.getElem?_eq_none (by
          rw [List.length_singleton]
          omega)]
  · rw [if_neg hcol, if_neg hcol, if_neg]
    have hmod := Nat.mod_lt cs.length hlw
    generalize cs.length / lw = row
    omega

section Tiles

variable {w h step : Nat} {g : Picture α}

def paintTile (w h step : Nat) (g f : Picture α) (origin : Nat × Nat) : Picture α :=
  patch f origin.1 origin.2 (min step (w - origin.1)) (min step (h - origin.2))
    (shift g origin.1 origin.2)

theorem paintTile_eq (f : Picture α) (origin : Nat × Nat) {x y : Nat} (hx : x < w) (hy : y < h) :
    paintTile w h step g f origin x y =
      if origin.1 ≤ x ∧ x < origin.1 + step ∧ origin.2 ≤ y ∧ y < origin.2 + step then g x y
      else f x y := by
  simp only [paintTile, patch, shift]
  by_cases hin : origin.1 ≤ x ∧ x < origin.1 + step ∧ origin.2 ≤ y ∧ y < origin.2 + step
  · rw [if_pos hin, if_pos (by omega), Nat.add_sub_cancel' hin.1, Nat.add_sub_cancel' hin.2.2.1]
  · rw [if_neg hin, if_neg (by omega)]

theorem foldl_paintTile (origins : List (Nat × Nat)) (f : Picture α) {x y : Nat} (hx : x < w)
    (hy : y < h)
    (hcovered : f x y = g x y ∨ ∃ o ∈ origins,
      o.1 ≤ x ∧ x < o.1 + step ∧ o.2 ≤ y ∧ y < o.2 + step) :
    origins.foldl (paintTile w h step g) f x y = g x y := by
  induction origins generalizing f with
  | nil => simpa using hcovered
  | cons origin origins ih =>
    rw [List.foldl_cons]
    apply ih
    rw [paintTile_eq f origin hx hy]
    rcases hcovered with heq | ⟨o, ho, hin⟩
    · refine .inl ?_
      rw [heq, ite_self]
    · rcases List.mem_cons.mp ho with rfl | ho
      · exact .inl (if_pos hin)
      · exact .inr ⟨o, ho, hin⟩

theorem raster_tiles {origins : List (Nat × Nat)} (f : Picture α)
    (hcover : ∀ x < w, ∀ y < h, ∃ o ∈ origins,
      o.1 ≤ x ∧ x < o.1 + step ∧ o.2 ≤ y ∧ y < o.2 + step) :
    raster w h (origins.foldl (paintTile w h step g) f) = raster w h g := by
  apply raster_congr
  intro x hx y hy
  exact foldl_paintTile origins f hx hy (.inr (hcover x hx y hy))

end Tiles

end Picture
