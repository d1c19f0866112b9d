import MacXterm.Term.History
import MacXterm.Ui.Selection

namespace Ui

open Term

-- syncFromVterm: an empty cell and a continuation cell show as the default one.
def syncCell (vc : VTermScreenCell) : Cell :=
  if vc.ch ≠ 0 ∧ vc.ch ≠ 0xFFFFFFFF then toCell vc else {}

def fitRow (cols : Nat) (cells : List VTermScreenCell) : List VTermScreenCell :=
  (List.range cols).map fun c => cells.getD c {}

-- The engine with the grid of libvterm under it.
structure Grid where
  history : History
  rows : Nat
  cols : Nat
  cells : List (List VTermScreenCell)
  cells_rows : cells.length = rows
  cells_cols : ∀ row ∈ cells, row.length = cols
  rows_pos : 0 < rows

-- The top row scrolls off and a new one comes in below, or a row is drawn over.
inductive Output where
  | scroll (bottom : List VTermScreenCell)
  | draw (row : Nat) (cells : List VTermScreenCell)

theorem length_fitRow (cols : Nat) (cells : List VTermScreenCell) :
    (fitRow cols cells).length = cols := by
  rw [fitRow, List.length_map, List.length_range]

namespace Grid

def scroll (g : Grid) (bottom : List VTermScreenCell) : Grid where
  history := g.history.sbPushline (g.cells.headD [])
  rows := g.rows
  cols := g.cols
  cells := g.cells.tail ++ [fitRow g.cols bottom]
  cells_rows := by
    have hrows := g.cells_rows
    have hpos := g.rows_pos
    rw [List.length_append, List.length_tail, List.length_singleton]
    omega
  cells_cols row hrow := by
    rcases List.mem_append.mp hrow with hrow | hrow
    · exact g.cells_cols row (List.mem_of_mem_tail hrow)
    · rw [List.mem_singleton.mp hrow, length_fitRow]
  rows_pos := g.rows_pos

def draw (g : Grid) (row : Nat) (cells : List VTermScreenCell) : Grid where
  history := g.history
  rows := g.rows
  cols := g.cols
  cells := g.cells.set row (fitRow g.cols cells)
  cells_rows := by rw [List.length_set, g.cells_rows]
  cells_cols r hr := by
    rcases List.mem_or_eq_of_mem_set hr with hr | hr
    · exact g.cells_cols r hr
    · rw [hr, length_fitRow]
  rows_pos := g.rows_pos

def step (g : Grid) : Output → Grid
  | .scroll bottom => g.scroll bottom
  | .draw row cells => g.draw row cells

def run (g : Grid) (out : List Output) : Grid := out.foldl step g

def display (g : Grid) : Display where
  scrollback := g.history.scrollback
  rows := g.rows
  cols := g.cols
  screen := g.cells.map (List.map syncCell)
  screen_rows := by rw [List.length_map, g.cells_rows]
  screen_cols row hrow := by
    obtain ⟨cells, hcells, rfl⟩ := List.mem_map.mp hrow
    rw [List.length_map, g.cells_cols cells hcells]
  rows_pos := g.rows_pos

-- How many of the oldest lines go.
def dropped (g : Grid) : List Output → Nat
  | [] => 0
  | .scroll bottom :: out =>
      (g.history.scrollback.length + 1 - g.history.scrollbackMax) +
        (g.scroll bottom).dropped out
  | .draw row cells :: out => (g.draw row cells).dropped out

-- No row is drawn over whose line lies from `first` to `last`.
def Untouched (first last : Nat) (g : Grid) : List Output → Prop
  | [] => True
  | .scroll bottom :: out => Untouched first last (g.scroll bottom) out
  | .draw row cells :: out =>
      ¬(first ≤ g.history.scrollback.length + row ∧ g.history.scrollback.length + row ≤ last) ∧
        Untouched first last (g.draw row cells) out

-- Every line that scrolls off finds room in the history.
def BelowMax (g : Grid) : List Output → Prop
  | [] => True
  | .scroll bottom :: out =>
      g.history.scrollback.length < g.history.scrollbackMax ∧ BelowMax (g.scroll bottom) out
  | .draw row cells :: out => BelowMax (g.draw row cells) out

end Grid

-- What a cell shows; of a blank, nothing.
def shown (c : Cell) : Cell := if c.ch = 0x20 then {} else c

-- The addresses from line `first` to `last` lead to the same cells.
def SameCells (first last : Nat) (d d' : Display) : Prop :=
  ∀ line, first ≤ line → line ≤ last → ∀ col,
    (d'.cellAt line col).map shown = (d.cellAt line col).map shown

section Shown

theorem ch_shown (c : Cell) : (shown c).ch = c.ch := by
  rw [shown]
  split
  · next h => exact h.symm
  · rfl

theorem shown_toCell (vc : VTermScreenCell) : shown (toCell vc) = shown (syncCell vc) := by
  rw [syncCell]
  split
  · rfl
  · next h =>
    have hch : (toCell vc).ch = 0x20 := if_neg h
    rw [shown, if_pos hch]
    rfl

end Shown

namespace Display

variable {d d' : Display}

theorem rowText_congr {line : Nat}
    (h : ∀ col, (d'.cellAt line col).map shown = (d.cellAt line col).map shown) (c0 c1 : Nat) :
    d'.rowText line c0 c1 = d.rowText line c0 c1 := by
  have hch (row : List Cell) (col : Nat) :
      (cellOr row col).ch = ((row[col]?.map shown).getD {}).ch := by
    rw [cellOr]
    cases row[col]? with
    | none => rfl
    | some cell => exact (ch_shown cell).symm
  have hsame (col : Nat) : (cellOr (d'.line line) col).ch = (cellOr (d.line line) col).ch := by
    rw [hch, hch, ← d'.cellAt_eq, ← d.cellAt_eq, h col]
  have hblank : blankAt (d'.line line) = blankAt (d.line line) :=
    funext fun col => congrArg (· == 0x20) (hsame col)
  rw [rowText_eq, rowText_eq, hblank]
  simp only [hsame]

theorem selectedText_congr {anchor head : Point} (hcols : d'.cols = d.cols)
    (h : SameCells (ordered anchor head).1.y (ordered anchor head).2.y d d') :
    d'.selectedText ⟨true, anchor, head⟩ = d.selectedText ⟨true, anchor, head⟩ := by
  obtain ⟨a, b, hab⟩ : ∃ a b, ordered anchor head = (a, b) := ⟨_, _, rfl⟩
  rw [hab] at h
  rw [d'.selectedText_eq anchor head hab, d.selectedText_eq anchor head hab]
  refine List.flatMap_congr fun line hline => ?_
  have hrange := List.mem_range'_1.mp hline
  rw [rowText_congr (h line hrange.1 (show line ≤ b.y by omega)), endCol, endCol, hcols]

end Display

namespace Grid

variable {g : Grid} {first last : Nat}

def view (g : Grid) : List (List Cell) := g.display.lines.map (List.map shown)

theorem cellAt_view (g : Grid) (line col : Nat) :
    (g.display.cellAt line col).map shown = (g.view.getD line [])[col]? := by
  rw [Display.cellAt_eq, Display.line, view, ← List.getElem?_map]
  congr 1
  rw [List.getD_eq_getElem?_getD, List.getD_eq_getElem?_getD, List.getElem?_map]
  cases g.display.lines[line]? with
  | none => rfl
  | some row => rfl

theorem length_view (g : Grid) : g.view.length = g.display.totalLines := by
  rw [view, List.length_map, Display.lines, List.length_append, g.display.screen_rows]
  rfl

theorem view_eq (g : Grid) : g.view =
    g.history.scrollback.map (List.map shown) ++ g.cells.map (List.map (shown ∘ syncCell)) := by
  rw [view, Display.lines, List.map_append, display, List.map_map]
  congr 2
  funext row
  exact List.map_map

theorem view_draw (g : Grid) (row : Nat) (cells : List VTermScreenCell) :
    (g.draw row cells).view = g.view.set (g.history.scrollback.length + row)
      ((fitRow g.cols cells).map (shown ∘ syncCell)) := by
  rw [view_eq, view_eq, draw, List.map_set, List.set_append_right _ _ (by simp), List.length_map,
    Nat.add_sub_cancel_left]

theorem view_scroll (hroom : g.history.scrollback.length < g.history.scrollbackMax)
    (bottom : List VTermScreenCell) :
    (g.scroll bottom).view = g.view ++ [(fitRow g.cols bottom).map (shown ∘ syncCell)] := by
  have hhistory : (g.history.sbPushline (g.cells.headD [])).scrollback =
      g.history.scrollback ++ [(g.cells.headD []).map toCell] := by
    rw [History.sbPushline, History.trimmed_of_le]
    · rfl
    · rw [List.length_append]
      exact hroom
  obtain ⟨top, rest, hcells⟩ : ∃ top rest, g.cells = top :: rest :=
    List.exists_cons_of_ne_nil (List.ne_nil_of_length_pos (g.cells_rows ▸ g.rows_pos))
  have htop : (top.map toCell).map shown = top.map (shown ∘ syncCell) := by
    rw [List.map_map]
    exact List.map_congr_left fun vc _ => shown_toCell vc
  rw [view_eq, view_eq, scroll]
  dsimp only
  rw [hhistory, hcells, List.headD_cons, List.tail_cons, List.map_append, List.map_singleton, htop]
  simp

-- The lines of a selection stay where they are in one step that neither drops nor touches a line.
theorem view_step (out : Output) (hlast : last < g.view.length)
    (huntouched : Untouched first last g [out]) (hroom : BelowMax g [out]) {line : Nat}
    (hfirst : first ≤ line) (hline : line ≤ last) : (g.step out).view[line]? = g.view[line]? := by
  cases out with
  | scroll bottom => rw [step, view_scroll hroom.1, List.getElem?_append_left (by omega)]
  | draw row cells =>
    have hne : g.history.scrollback.length + row ≠ line := by
      rintro rfl
      exact huntouched.1 ⟨hfirst, hline⟩
    rw [step, view_draw, List.getElem?_set_ne hne]

theorem length_view_step (out : Output) (hroom : BelowMax g [out]) :
    g.view.length ≤ (g.step out).view.length := by
  cases out with
  | scroll bottom =>
    rw [step, view_scroll hroom.1, List.length_append]
    exact Nat.le_add_right _ _
  | draw row cells => rw [step, view_draw, List.length_set]

theorem untouched_cons {out : Output} {more : List Output} :
    Untouched first last g (out :: more) ↔
      Untouched first last g [out] ∧ Untouched first last (g.step out) more := by
  cases out with
  | scroll bottom => simp [Untouched, step]
  | draw row cells => simp [Untouched, step]

theorem belowMax_cons {out : Output} {more : List Output} :
    BelowMax g (out :: more) ↔ BelowMax g [out] ∧ BelowMax (g.step out) more := by
  cases out with
  | scroll bottom => simp [BelowMax, step]
  | draw row cells => simp [BelowMax, step]

theorem view_run (taken more : List Output) (hlast : last < g.view.length)
    (huntouched : Untouched first last g (taken ++ more)) (hroom : BelowMax g (taken ++ more)) :
    ∀ line, first ≤ line → line ≤ last → (g.run taken).view[line]? = g.view[line]? := by
  induction taken generalizing g with
  | nil => exact fun line _ _ => rfl
  | cons out taken ih =>
    rw [List.cons_append] at huntouched hroom
    obtain ⟨hone, hrest⟩ := untouched_cons.mp huntouched
    obtain ⟨hroomOne, hroomRest⟩ := belowMax_cons.mp hroom
    intro line hfirst hline
    have hnext := ih (Nat.lt_of_lt_of_le hlast (length_view_step out hroomOne)) hrest hroomRest
      line hfirst hline
    exact hnext.trans (view_step out hlast hone hroomOne hfirst hline)

theorem cols_run (g : Grid) (out : List Output) : (g.run out).cols = g.cols := by
  induction out generalizing g with
  | nil => rfl
  | cons o out ih =>
    refine (ih (g.step o)).trans ?_
    cases o with
    | scroll bottom => rfl
    | draw row cells => rfl

end Grid

theorem selection_kept (g : Grid) (anchor head : Point) (out : List Output)
    (hmade : (ordered anchor head).2.y < g.display.totalLines)
    (huntouched : g.Untouched (ordered anchor head).1.y (ordered anchor head).2.y out)
    (hroom : g.BelowMax out) :
    ∀ taken, taken <+: out →
      SameCells (ordered anchor head).1.y (ordered anchor head).2.y g.display
          (g.run taken).display ∧
        (g.run taken).display.selectedText ⟨true, anchor, head⟩ =
          g.display.selectedText ⟨true, anchor, head⟩ := by
  rintro taken ⟨more, rfl⟩
  rw [← g.length_view] at hmade
  have hview := Grid.view_run taken more hmade huntouched hroom
  have hsame : SameCells (ordered anchor head).1.y (ordered anchor head).2.y g.display
      (g.run taken).display := by
    intro line hfirst hline col
    rw [Grid.cellAt_view, Grid.cellAt_view, List.getD_eq_getElem?_getD,
      List.getD_eq_getElem?_getD, hview line hfirst hline]
  exact ⟨hsame, Display.selectedText_congr (g.cols_run taken) hsame⟩

-- One line of history and one on the screen.
def twoLines (scrollbackMax : Nat) : Grid where
  history := ⟨[[{ ch := 0x61 }]], [true], scrollbackMax⟩
  rows := 1
  cols := 1
  cells := [[{ ch := 0x62 }]]
  cells_rows := rfl
  cells_cols := fun row hrow => by rw [List.mem_singleton.mp hrow, List.length_singleton]
  rows_pos := Nat.one_pos

theorem selection_kept_below_max :
    SameCells 1 1 (twoLines 2).display
        ((twoLines 2).run [.scroll [{ ch := 0x63 }]]).display ∧
      ((twoLines 2).run [.scroll [{ ch := 0x63 }]]).display.selectedText ⟨true, ⟨0, 1⟩, ⟨1, 1⟩⟩ =
        (twoLines 2).display.selectedText ⟨true, ⟨0, 1⟩, ⟨1, 1⟩⟩ :=
  selection_kept (twoLines 2) ⟨0, 1⟩ ⟨1, 1⟩ [.scroll [{ ch := 0x63 }]] (by decide) trivial
    ⟨by decide, trivial⟩ _ List.prefix_rfl

-- The selected line is still there, as the oldest one.
theorem selection_shifted :
    ((twoLines 1).run [.scroll [{ ch := 0x63 }]]).display.line 0 = [{ ch := 0x62 }] ∧
      ¬ ∀ (g : Grid) (anchor head : Point) (out : List Output),
        (ordered anchor head).2.y < g.display.totalLines →
        g.Untouched (ordered anchor head).1.y (ordered anchor head).2.y out →
        g.dropped out ≤ (ordered anchor head).1.y →
        ∀ taken, taken <+: out →
          (g.run taken).display.selectedText ⟨true, anchor, head⟩ =
            g.display.selectedText ⟨true, anchor, head⟩ := by
  refine ⟨by decide, fun h => ?_⟩
  have hkept := h (twoLines 1) ⟨0, 1⟩ ⟨1, 1⟩ [.scroll [{ ch := 0x63 }]] (by decide) trivial
    (by decide) _ List.prefix_rfl
  revert hkept
  decide

end Ui
