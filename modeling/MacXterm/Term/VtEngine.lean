import MacXterm.Lib.Wrap

namespace Term

open Wrap

inductive CellColor where
  | default | ansi | rgb
deriving DecidableEq

structure Cell where
  ch : UInt32 := 0x20
  fgKind : CellColor := .default
  bgKind : CellColor := .default
  fgIndex : UInt8 := 7
  bgIndex : UInt8 := 0
  fgRgb : UInt32 := 0
  bgRgb : UInt32 := 0
  bold : Bool := false
  reverse : Bool := false
  wide : Bool := false
deriving DecidableEq

inductive VTermColor where
  | defaultColor
  | indexed (idx : UInt8)
  | rgb (red green blue : UInt8)
deriving DecidableEq

structure VTermScreenCell where
  ch : UInt32 := 0
  width : Nat := 1
  bold : Bool := false
  reverse : Bool := false
  fg : VTermColor := .defaultColor
  bg : VTermColor := .defaultColor
deriving DecidableEq

def packRgb (r g b : UInt32) : UInt32 := (r <<< 16) ||| (g <<< 8) ||| b

def paletteLevel (n : Nat) : UInt32 := [0, 95, 135, 175, 215, 255].getD n 0

def paletteRgb (idx : Nat) : UInt32 :=
  if idx < 232 then
    let c := idx - 16
    packRgb (paletteLevel (c / 36 % 6)) (paletteLevel (c / 6 % 6)) (paletteLevel (c % 6))
  else
    let grey := UInt32.ofNat (8 + 10 * (idx - 232))
    packRgb grey grey grey

def mapColor (col : VTermColor) (index : UInt8) (rgb : UInt32) : CellColor × UInt8 × UInt32 :=
  match col with
  | .defaultColor => (.default, index, rgb)
  | .indexed idx =>
      if idx.toNat < 16 then (.ansi, idx, rgb) else (.rgb, index, paletteRgb idx.toNat)
  | .rgb red green blue => (.rgb, index, packRgb red.toUInt32 green.toUInt32 blue.toUInt32)

def toCell (c : VTermScreenCell) : Cell :=
  let cell : Cell := {}
  let fg := mapColor c.fg cell.fgIndex cell.fgRgb
  let bg := mapColor c.bg cell.bgIndex cell.bgRgb
  { ch := if c.ch ≠ 0 ∧ c.ch ≠ 0xFFFFFFFF then c.ch else cell.ch
    fgKind := fg.1, fgIndex := fg.2.1, fgRgb := fg.2.2
    bgKind := bg.1, bgIndex := bg.2.1, bgRgb := bg.2.2
    bold := c.bold, reverse := c.reverse, wide := c.width == 2 }

def isBlank (c : Cell) : Bool := c.ch == 0 || c.ch == 0x20

structure Scrollback where
  lines : List (List Cell)
  wrapped : List Bool
  length_eq : wrapped.length = lines.length
deriving DecidableEq

namespace Scrollback

def empty : Scrollback := ⟨[], [], rfl⟩

def rows (s : Scrollback) : List (Row Cell) := s.lines.zipWith Row.mk s.wrapped

def ofRows (rows : List (Row Cell)) : Scrollback :=
  ⟨rows.map Row.cells, rows.map Row.wrapped, by simp⟩

def pushBack (s : Scrollback) (line : List Cell) (wrapped : Bool) : Scrollback :=
  ⟨s.lines ++ [line], s.wrapped ++ [wrapped], by simp [s.length_eq]⟩

def cap (s : Scrollback) (max : Nat) : Scrollback :=
  ⟨s.lines.drop (s.lines.length - max), s.wrapped.drop (s.lines.length - max),
    by simp [s.length_eq]⟩

@[simp] theorem rows_ofRows (rows : List (Row Cell)) : (ofRows rows).rows = rows := by
  induction rows with
  | nil => rfl
  | cons row rows ih =>
    simp only [ofRows, Scrollback.rows, List.map_cons, List.zipWith_cons_cons] at ih ⊢
    rw [ih]

@[simp] theorem rows_pushBack (s : Scrollback) (line : List Cell) (wrapped : Bool) :
    (s.pushBack line wrapped).rows = s.rows ++ [⟨line, wrapped⟩] := by
  rw [rows, pushBack, List.zipWith_append s.length_eq.symm]
  rfl

theorem length_rows (s : Scrollback) : s.rows.length = s.lines.length := by
  simp [rows, s.length_eq]

theorem cap_of_le {s : Scrollback} {max : Nat} (h : s.rows.length ≤ max) : s.cap max = s := by
  have hle : s.lines.length - max = 0 := by
    rw [length_rows] at h
    omega
  obtain ⟨lines, wrapped, hlength⟩ := s
  simp only [cap] at hle ⊢
  simp [hle]

end Scrollback

structure VtEngine where
  cols : Int
  scrollback : Scrollback := Scrollback.empty
  scrollbackMax : Nat := 10000
deriving DecidableEq

def pushedRow (cells : List VTermScreenCell) : Row Cell :=
  let line := cells.map toCell
  ⟨line, match line.getLast? with
    | none => false
    | some last => last.ch != 0 && last.ch != 0x20⟩

def rejoinStep (s : List (List Cell) × List Cell) (row : Row Cell) :
    List (List Cell) × List Cell :=
  match row.wrapped with
  | true => (s.1, s.2 ++ row.cells)
  | false => (s.1 ++ [s.2 ++ row.cells.rdropWhile isBlank], [])

def rejoin (rows : List (Row Cell)) : List (List Cell) :=
  let s := rows.foldl rejoinStep ([], [])
  if s.2.isEmpty then s.1 else s.1 ++ [s.2]

def rewrap (newCols : Int) (rows : List (Row Cell)) : List (Row Cell) :=
  (rejoin rows).flatMap (wrapAt newCols.toNat)

namespace VtEngine

def sbPushline (e : VtEngine) (cells : List VTermScreenCell) : VtEngine :=
  let row := pushedRow cells
  { e with scrollback := (e.scrollback.pushBack row.cells row.wrapped).cap e.scrollbackMax }

def reflowScrollback (e : VtEngine) (newCols : Int) : VtEngine :=
  if newCols ≤ 0 || e.scrollback.lines.isEmpty then e
  else
    { e with
      scrollback := (Scrollback.ofRows (rewrap newCols e.scrollback.rows)).cap e.scrollbackMax }

def resize (e : VtEngine) (cols : Int) : VtEngine :=
  let e := if cols ≠ e.cols then e.reflowScrollback cols else e
  { e with cols := if 0 < cols then cols else 1 }

inductive Event where
  | push (cells : List VTermScreenCell)
  | resize (cols : Int)

def step (e : VtEngine) : Event → VtEngine
  | .push cells => e.sbPushline cells
  | .resize cols => e.resize cols

def run (e : VtEngine) (events : List Event) : VtEngine := events.foldl step e

def logicalLines (e : VtEngine) : List (List Cell) :=
  (Joined.join isBlank .empty e.scrollback.rows).lines isBlank

end VtEngine

theorem pushedRow_wrapped (cells : List VTermScreenCell)
    (h : (pushedRow cells).wrapped = true) : (pushedRow cells).cells ≠ [] := by
  intro hnil
  have hcells : cells = [] := by simpa [pushedRow] using hnil
  subst hcells
  simp [pushedRow] at h

theorem foldl_rejoinStep (rows : List (Row Cell)) (logical : List (List Cell))
    (cur : List Cell) :
    (⟨(rows.foldl rejoinStep (logical, cur)).1.map (List.rdropWhile isBlank),
        (rows.foldl rejoinStep (logical, cur)).2⟩ : Joined Cell) =
      Joined.join isBlank ⟨logical.map (List.rdropWhile isBlank), cur⟩ rows := by
  induction rows generalizing logical cur with
  | nil => rfl
  | cons row rows ih =>
    rw [List.foldl_cons, Joined.join_cons, rejoinStep, Joined.feed]
    cases row.wrapped with
    | true => exact ih logical (cur ++ row.cells)
    | false =>
      refine (ih _ []).trans ?_
      rw [List.map_append, List.map_singleton, rdropWhile_append_rdropWhile]

theorem map_rdropWhile_rejoin (rows : List (Row Cell)) :
    (rejoin rows).map (List.rdropWhile isBlank) =
      (Joined.join isBlank .empty rows).lines isBlank := by
  have h := foldl_rejoinStep rows [] []
  rw [List.map_nil] at h
  rw [Joined.empty, ← h, rejoin]
  cases hcur : (rows.foldl rejoinStep ([], [])).2 with
  | nil => simp [Joined.lines]
  | cons c cs => simp [Joined.lines]

theorem join_rewrap (rows : List (Row Cell)) {newCols : Int} (h : 0 < newCols) :
    Joined.join isBlank .empty (rewrap newCols rows) =
      (Joined.join isBlank .empty rows).settle isBlank := by
  rw [rewrap, Joined.empty, join_flatMap_wrapAt isBlank (by omega), map_rdropWhile_rejoin]
  rfl

end Term
