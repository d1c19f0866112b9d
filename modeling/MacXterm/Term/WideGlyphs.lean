import MacXterm.Term.History

namespace Term

open Wrap

-- Each wide cell has its blank continuation cell next to it.
def Paired (row : List Cell) : Prop :=
  ∀ (i : Nat) c, row[i]? = some c → c.wide = true → ∃ d, row[i + 1]? = some d ∧ isBlank d = true

-- The rows that the logical lines are cut into: each a line, and the place of the row in it.
def pieces (width : Nat) (lines : List (List Cell)) : List (List Cell × Nat) :=
  lines.flatMap fun line =>
    (List.range (max 1 ((line.length + width - 1) / width))).map fun k => (line, k)

-- No wide cell of the row is the last of the line or stands in the last column.
def FitsPairs (width : Nat) (piece : List Cell × Nat) : Prop :=
  ∀ (p : Nat) c, p / width = piece.2 → piece.1[p]? = some c → c.wide = true →
    p + 1 < piece.1.length ∧ (p + 1) % width ≠ 0

def HalfPaired (line : List Cell) : Prop :=
  ∀ (i : Nat) c d, (line)[i]? = some c → c.wide = true → (line)[i + 1]? = some d → isBlank d = true

section Pairs

variable {xs ys : List Cell}

theorem paired_nil : Paired [] := by
  intro i c hc
  cases hc

theorem Paired.append (hxs : Paired xs) (hys : Paired ys) : Paired (xs ++ ys) := by
  intro i c hc hwide
  by_cases hi : i < xs.length
  · rw [List.getElem?_append_left hi] at hc
    obtain ⟨d, hd, hblank⟩ := hxs i c hc hwide
    have hlt : i + 1 < xs.length := (List.getElem?_eq_some_iff.mp hd).1
    exact ⟨d, by rw [List.getElem?_append_left hlt, hd], hblank⟩
  · rw [List.getElem?_append_right (by omega)] at hc
    obtain ⟨d, hd, hblank⟩ := hys (i - xs.length) c hc hwide
    refine ⟨d, ?_, hblank⟩
    rw [List.getElem?_append_right (by omega), Nat.succ_sub (by omega), hd]

theorem Paired.halfPaired (h : Paired ys) (hxs : xs <+: ys) : HalfPaired xs := by
  obtain ⟨rest, rfl⟩ := hxs
  intro i c d hc hwide hd
  have hlt : i + 1 < xs.length := (List.getElem?_eq_some_iff.mp hd).1
  have hcs : (xs ++ rest)[i]? = some c := by rw [List.getElem?_append_left (by omega), hc]
  obtain ⟨d', hd', hblank⟩ := h i c hcs hwide
  rw [List.getElem?_append_left hlt, hd] at hd'
  exact Option.some.inj hd' ▸ hblank

theorem halfPaired_paragraphs {rows : List (Row Cell)} {cur : List Cell} (hcur : Paired cur)
    (h : ∀ row ∈ rows, Paired row.cells) :
    ∀ line ∈ paragraphs isBlank cur rows, HalfPaired line := by
  induction rows generalizing cur with
  | nil =>
    intro line hline
    by_cases hnil : cur = []
    · subst hnil
      exact absurd hline List.not_mem_nil
    · rw [paragraphs_nil isBlank hnil, List.mem_singleton] at hline
      exact hline ▸ hcur.halfPaired (List.prefix_refl cur)
  | cons row rows ih =>
    have hrow : Paired (cur ++ row.cells) := hcur.append (h row List.mem_cons_self)
    have hrows : ∀ row ∈ rows, Paired row.cells :=
      fun row hmem => h row (List.mem_cons_of_mem _ hmem)
    cases hw : row.wrapped with
    | true =>
      rw [paragraphs_wrapped isBlank _ _ hw]
      exact ih hrow hrows
    | false =>
      rw [paragraphs_hard isBlank _ _ hw]
      intro line hline
      rcases List.mem_cons.mp hline with rfl | hline
      · exact hrow.halfPaired ((List.prefix_append_right_inj cur).mpr (List.rdropWhile_prefix _ _))
      · exact ih paired_nil hrows line hline

end Pairs

section Cut

variable {width : Nat} {line : List Cell} {k : Nat}

theorem getElem?_block (width : Nat) (line : List Cell) (k i : Nat) :
    (Blocks.block width line k)[i]? = if i < width then (line)[k * width + i]? else none := by
  rw [Blocks.block, List.getElem?_take, List.getElem?_drop]

theorem paired_block_iff (hwidth : 0 < width) (hline : HalfPaired line) :
    Paired (Blocks.block width line k) ↔ FitsPairs width (line, k) := by
  constructor
  · intro h p c hp hc hwide
    have hsplit : k * width + p % width = p := by
      rw [← show p / width = k from hp, Nat.div_add_mod']
    have hmod : p % width < width := Nat.mod_lt p hwidth
    have hcell : (Blocks.block width line k)[p % width]? = some c := by
      rw [getElem?_block, if_pos hmod, hsplit, hc]
    obtain ⟨d, hd, -⟩ := h _ c hcell hwide
    rw [getElem?_block] at hd
    split at hd
    · next hlt =>
      rw [← Nat.add_assoc, hsplit] at hd
      refine ⟨(List.getElem?_eq_some_iff.mp hd).1, ?_⟩
      rw [← hsplit, Nat.add_assoc, Nat.mul_add_mod_self_right, Nat.mod_eq_of_lt hlt]
      exact Nat.succ_ne_zero _
    · cases hd
  · intro h i c hc hwide
    rw [getElem?_block] at hc
    split at hc
    · next hi =>
      have hdiv : (k * width + i) / width = k := by
        rw [Nat.add_comm, Nat.add_mul_div_right i k hwidth, Nat.div_eq_of_lt hi, Nat.zero_add]
      obtain ⟨hlt, hmod⟩ := h (k * width + i) c hdiv hc hwide
      have hnext : i + 1 < width := by
        refine Nat.lt_of_le_of_ne hi fun heq => hmod ?_
        rw [Nat.add_assoc, heq, ← Nat.succ_mul, Nat.mul_mod_left]
      have hcont := List.getElem?_eq_getElem hlt
      refine ⟨_, ?_, hline _ c _ hc hwide hcont⟩
      rw [getElem?_block, if_pos hnext, ← Nat.add_assoc, hcont]
    · cases hc

theorem cells_wrapAt (hwidth : 0 < width) (line : List Cell) :
    (wrapAt width line).map Row.cells =
      (List.range (max 1 ((line.length + width - 1) / width))).map (Blocks.block width line) := by
  cases hline : line with
  | nil =>
    have hzero : (([] : List Cell).length + width - 1) / width = 0 := by
      rw [List.length_nil, Nat.zero_add]
      exact Nat.div_eq_of_lt (by omega)
    rw [hzero]
    simp [wrapAt, Blocks.block]
  | cons c cs =>
    have hpos : 0 < ((c :: cs).length + width - 1) / width :=
      Nat.div_pos (by rw [List.length_cons]; omega) hwidth
    rw [wrapAt, List.map_map, Nat.max_eq_right hpos]
    rfl

theorem cells_rewrap {newCols : Int} (hpos : 0 < newCols) (rows : List (Row Cell)) :
    (rewrap newCols rows).map Row.cells =
      (pieces newCols.toNat (paragraphs isBlank [] rows)).map fun piece =>
        Blocks.block newCols.toNat piece.1 piece.2 := by
  rw [rewrap, ← History.rejoin_eq, pieces, List.map_flatMap, List.map_flatMap]
  congr 1
  funext line
  rw [cells_wrapAt (by omega), List.map_map]
  rfl

end Cut

theorem Scrollback.rows_cap (s : Scrollback) (max : Nat) : (s.cap max).rows = s.rows.rtake max := by
  rw [List.rtake, length_rows, rows, cap, rows, List.drop_zipWith]

theorem rows_reflowScrollback (e : VtEngine) {newCols : Int} (hpos : 0 < newCols) :
    (e.reflowScrollback newCols).scrollback.rows =
      (rewrap newCols e.scrollback.rows).rtake e.scrollbackMax := by
  rw [VtEngine.reflowScrollback, decide_eq_false (by omega), Bool.false_or]
  split
  · next hnil =>
    have hrows : e.scrollback.rows = [] := by
      rw [Scrollback.rows, List.isEmpty_iff.mp hnil, List.zipWith_nil_left]
    rw [hrows]
    exact (List.rtake_nil _).symm
  · rw [Scrollback.rows_cap, Scrollback.rows_ofRows]

-- Every row fits, and no wide cell has lost the cell next to it.
def WideKept (newCols : Int) (rows : List (Row Cell)) : Prop :=
  ∀ row ∈ rows, (row.cells.length : Int) ≤ newCols ∧ Paired row.cells

theorem reflow_keeps_wide_iff (e : VtEngine) (newCols : Int) (hcols : 2 ≤ newCols)
    (hpaired : ∀ row ∈ e.scrollback.rows, Paired row.cells) :
    WideKept newCols (e.reflowScrollback newCols).scrollback.rows ↔
      ∀ piece ∈ (pieces newCols.toNat (paragraphs isBlank [] e.scrollback.rows)).rtake
        e.scrollbackMax, FitsPairs newCols.toNat piece := by
  have hpos : 0 < newCols := by omega
  have hhalf := halfPaired_paragraphs paired_nil hpaired
  have hcells : (e.reflowScrollback newCols).scrollback.rows.map Row.cells =
      ((pieces newCols.toNat (paragraphs isBlank [] e.scrollback.rows)).rtake
        e.scrollbackMax).map fun piece => Blocks.block newCols.toNat piece.1 piece.2 := by
    have hlen := congrArg List.length (cells_rewrap hpos e.scrollback.rows)
    rw [List.length_map, List.length_map] at hlen
    rw [rows_reflowScrollback e hpos, List.rtake, List.map_drop, cells_rewrap hpos, List.rtake,
      List.map_drop, hlen]
  have hpieces : ∀ piece ∈ pieces newCols.toNat (paragraphs isBlank [] e.scrollback.rows),
      HalfPaired piece.1 := by
    intro piece hpiece
    rw [pieces] at hpiece
    obtain ⟨line, hline, hmem⟩ := List.mem_flatMap.mp hpiece
    obtain ⟨k, -, rfl⟩ := List.mem_map.mp hmem
    exact hhalf line hline
  have hfit (piece : List Cell × Nat) :
      ((Blocks.block newCols.toNat piece.1 piece.2).length : Int) ≤ newCols := by
    rw [Blocks.length_block]
    omega
  calc WideKept newCols (e.reflowScrollback newCols).scrollback.rows
      ↔ ∀ cells ∈ (e.reflowScrollback newCols).scrollback.rows.map Row.cells,
          (cells.length : Int) ≤ newCols ∧ Paired cells := by rw [WideKept, List.forall_mem_map]
    _ ↔ ∀ piece ∈ (pieces newCols.toNat (paragraphs isBlank [] e.scrollback.rows)).rtake
          e.scrollbackMax, Paired (Blocks.block newCols.toNat piece.1 piece.2) := by
        rw [hcells, List.forall_mem_map]
        exact forall₂_congr fun piece _ => and_iff_right (hfit piece)
    _ ↔ _ := forall₂_congr fun piece hpiece =>
        paired_block_iff (by omega) (hpieces piece (List.mem_of_mem_drop hpiece))

def wideA : Cell := { ch := 0x4E2D, wide := true }

def wideHistory : VtEngine where
  cols := 4
  scrollback := ⟨[[{ ch := 0x61 }, wideA, {}, { ch := 0x62 }]], [true], rfl⟩

theorem wideHistory_paired : ∀ row ∈ wideHistory.scrollback.rows, Paired row.cells := by
  intro row hrow i c hc hwide
  obtain rfl : row = ⟨[{ ch := 0x61 }, wideA, {}, { ch := 0x62 }], true⟩ :=
    List.mem_singleton.mp hrow
  match i with
  | 0 => cases hc; cases hwide
  | 1 => exact ⟨{}, rfl, rfl⟩
  | 2 => cases hc; cases hwide
  | 3 => cases hc; cases hwide
  | i + 4 => cases hc

theorem reflow_keeps_wide_iff_three :
    WideKept 3 (wideHistory.reflowScrollback 3).scrollback.rows ↔
      ∀ piece ∈ (pieces 3 (paragraphs isBlank [] wideHistory.scrollback.rows)).rtake
        wideHistory.scrollbackMax, FitsPairs 3 piece :=
  reflow_keeps_wide_iff wideHistory 3 (by decide) wideHistory_paired

theorem wide_glyph_split :
    ¬ ∀ (e : VtEngine) (newCols : Int), 2 ≤ newCols →
      (∀ row ∈ e.scrollback.rows, Paired row.cells) →
      WideKept newCols (e.reflowScrollback newCols).scrollback.rows := by
  intro h
  have hkept := h wideHistory 2 (by decide) wideHistory_paired
  have hrow : (⟨[{ ch := 0x61 }, wideA], true⟩ : Row Cell) ∈
      (wideHistory.reflowScrollback 2).scrollback.rows := by decide
  obtain ⟨d, hd, -⟩ := (hkept _ hrow).2 1 wideA rfl rfl
  cases hd

end Term
