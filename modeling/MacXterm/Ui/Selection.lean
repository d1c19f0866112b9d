import MacXterm.Lib.Trimming
import MacXterm.Term.VtEngine
import Mathlib.Data.List.GetD

namespace Ui

open Term Trimming

-- The UTF-16 units that appendCodePoint adds.
def codeUnits (cp : UInt32) : List UInt16 :=
  if 0x10000 ≤ cp then
    [.ofNat (cp.toNat / 0x400 + 0xD7C0), .ofNat (cp.toNat % 0x400 + 0xDC00)]
  else [.ofNat cp.toNat]

structure Point where
  x : Nat
  y : Nat
deriving DecidableEq

-- The history and the live screen of rows × cols cells.
structure Display where
  scrollback : List (List Cell)
  rows : Nat
  cols : Nat
  screen : List (List Cell)
  screen_rows : screen.length = rows
  screen_cols : ∀ row ∈ screen, row.length = cols
  rows_pos : 0 < rows

structure Selection where
  hasSelection : Bool
  selAnchor : Point
  selHead : Point
deriving DecidableEq

-- The two ends of a selection in reading order.
def ordered (a b : Point) : Point × Point :=
  if b.y < a.y ∨ a.y = b.y ∧ b.x < a.x then (b, a) else (a, b)

namespace Display

def totalLines (d : Display) : Nat := d.scrollback.length + d.rows

def cellAt (d : Display) (absLine col : Nat) : Option Cell :=
  let sb := d.scrollback.length
  if absLine < sb then (d.scrollback.getD absLine [])[col]?
  else
    let r := absLine - sb
    if d.rows ≤ r ∨ d.cols ≤ col then none else (d.screen.getD r [])[col]?

def rowText (d : Display) (absLine c0 c1 : Nat) : List UInt16 :=
  ((List.range' c0 (c1 - c0)).foldl (fun row c =>
    row ++ match d.cellAt absLine c with
      | some cell => codeUnits cell.ch
      | none => [0x20]) []).rdropWhile (· == 0x20)

def selectedText (d : Display) (s : Selection) : List UInt16 :=
  if s.hasSelection then
    let (a, b) := ordered s.selAnchor s.selHead
    (List.range' a.y (b.y + 1 - a.y)).foldl (fun text line =>
      let c0 := if line = a.y then a.x else 0
      let c1 := if line = b.y then b.x else d.cols
      let text := text ++ d.rowText line c0 c1
      if line ≠ b.y then text ++ [0x0A] else text) []
  else []

def selectAll (d : Display) (s : Selection) : Selection :=
  let lines := d.totalLines
  if lines ≤ 0 then s else ⟨true, ⟨0, 0⟩, ⟨max 0 (d.cols - 1), lines - 1⟩⟩

end Display

-- The cell in a column; past the end of a row it is blank.
def cellOr (row : List Cell) (c : Nat) : Cell := row[c]?.getD {}

def blankAt (row : List Cell) (c : Nat) : Bool := (cellOr row c).ch == 0x20

-- The blank next to a wide glyph.
def continuation (row : List Cell) : Nat → Bool
  | 0 => false
  | c + 1 => (cellOr row c).wide && blankAt row (c + 1)

-- The glyphs of the columns from c0 to c1, with the blanks at their end trimmed.
def glyphs (row : List Cell) (c0 c1 : Nat) : List UInt16 :=
  (((List.range' c0 (c1 - c0)).filter fun c => !continuation row c).rdropWhile
    (blankAt row)).flatMap fun c => codeUnits (cellOr row c).ch

namespace Display

def lines (d : Display) : List (List Cell) := d.scrollback ++ d.screen

def line (d : Display) (i : Nat) : List Cell := d.lines.getD i []

def firstCol (a : Point) (line : Nat) : Nat := if line = a.y then a.x else 0

def endCol (d : Display) (b : Point) (line : Nat) : Nat := if line = b.y then b.x else d.cols

def lineFeed (last line : Nat) : List UInt16 := if line ≠ last then [0x0A] else []

-- Row by row, the glyphs from `a` up to but not including `b`.
def selectedGlyphs (d : Display) (a b : Point) : List UInt16 :=
  (List.range' a.y (b.y + 1 - a.y)).flatMap fun line =>
    glyphs (d.line line) (firstCol a line) (d.endCol b line) ++ lineFeed b.y line

-- Row by row, the glyphs of every cell there is.
def allGlyphs (d : Display) : List UInt16 :=
  (List.range' 0 d.totalLines).flatMap fun line =>
    glyphs (d.line line) 0 (d.line line).length ++ lineFeed (d.totalLines - 1) line

end Display

-- Before the last cell that is not blank stands no continuation cell.
def NoContinuation (row : List Cell) (c0 c1 : Nat) : Prop :=
  ∀ c ∈ (List.range' c0 (c1 - c0)).rdropWhile (blankAt row), continuation row c = false

-- From the column on the row has nothing but blanks.
def BlankFrom (row : List Cell) (col : Nat) : Prop :=
  ∀ c, col ≤ c → c < row.length → blankAt row c = true

section Row

variable {row : List Cell}

theorem codeUnits_glyphs (row : List Cell) :
    Glyphs (fun c => codeUnits (cellOr row c).ch) 0x20 (blankAt row) where
  ofBlank c hc := by rw [eq_of_beq hc]; rfl
  ofOther c hc := by
    have hne : (cellOr row c).ch ≠ 0x20 := ne_of_beq_false hc
    generalize (cellOr row c).ch = cp at hne
    by_cases hastral : 0x10000 ≤ cp
    · refine ⟨[_], _, if_pos hastral, fun heq => ?_⟩
      have hnat := congrArg UInt16.toNat heq
      rw [UInt16.toNat_ofNat'] at hnat
      change (cp.toNat % 0x400 + 0xDC00) % 2 ^ 16 = 0x20 at hnat
      omega
    · refine ⟨[], _, if_neg hastral, fun heq => hne ?_⟩
      have hlt : cp.toNat < 0x10000 := by
        rw [UInt32.le_iff_toNat_le] at hastral
        exact Nat.lt_of_not_le hastral
      have hnat := congrArg UInt16.toNat heq
      rw [UInt16.toNat_ofNat_of_lt' hlt] at hnat
      exact UInt32.toNat_inj.mp hnat

theorem continuation_blank {c : Nat} (h : (!continuation row c) = false) : blankAt row c = true := by
  cases c with
  | zero => cases h
  | succ c =>
    rw [continuation, Bool.not_eq_false', Bool.and_eq_true] at h
    exact h.2

theorem glyphs_eq (row : List Cell) (c0 c1 : Nat) : glyphs row c0 c1 =
    (((List.range' c0 (c1 - c0)).rdropWhile (blankAt row)).filter fun c =>
      !continuation row c).flatMap fun c => codeUnits (cellOr row c).ch := by
  rw [glyphs, filter_rdropWhile fun c hc => continuation_blank hc]

theorem blankAt_of_length_le {c : Nat} (h : row.length ≤ c) : blankAt row c = true := by
  rw [blankAt, cellOr, List.getElem?_eq_none h]
  rfl

theorem range'_split {a b : Nat} (h : a ≤ b) :
    List.range' 0 b = List.range' 0 a ++ List.range' a (b - a) := by
  have happ := List.range'_append_1 (s := 0) (m := a) (n := b - a)
  rw [Nat.zero_add, Nat.add_sub_cancel' h] at happ
  exact happ.symm

-- The columns that are left out hold nothing, and those beyond the row neither.
theorem glyphs_of_blankFrom {k : Nat} (h : BlankFrom row k) :
    glyphs row 0 row.length = glyphs row 0 k := by
  have htrim (a b : Nat) (hab : a ≤ b) (hblank : ∀ c, a ≤ c → c < b → blankAt row c = true) :
      (List.range' 0 b).rdropWhile (blankAt row) = (List.range' 0 a).rdropWhile (blankAt row) := by
    rw [range'_split hab]
    refine rdropWhile_append_blanks _ fun c hc => ?_
    have hmem := List.mem_range'_1.mp hc
    exact hblank c hmem.1 (by omega)
  rw [glyphs_eq, glyphs_eq, Nat.sub_zero, Nat.sub_zero]
  rcases Nat.le_total k row.length with hle | hle
  · rw [htrim k row.length hle h]
  · rw [htrim row.length k hle fun c hc _ => blankAt_of_length_le hc]

theorem flatMap_rdropWhile {β : Type} {f : Nat → List β} {cs : List Nat}
    (h : ∀ c, blankAt row c = true → f c = []) :
    (cs.rdropWhile (blankAt row)).flatMap f = cs.flatMap f := by
  induction cs using List.reverseRecOn with
  | nil => rfl
  | append_singleton cs c ih =>
    cases hc : blankAt row c with
    | true =>
      rw [List.rdropWhile_concat_pos _ cs c hc, ih, List.flatMap_append, List.flatMap_singleton,
        h c hc, List.append_nil]
    | false => rw [List.rdropWhile_concat_neg _ cs c (by simp [hc])]

-- A text without its spaces, column by column.
def inked (row : List Cell) (c : Nat) : List UInt16 :=
  (codeUnits (cellOr row c).ch).filter (· != 0x20)

theorem inked_eq_nil_iff {c : Nat} : inked row c = [] ↔ blankAt row c = true :=
  (codeUnits_glyphs row).filter_eq_nil_iff c

theorem filter_trimmed (row : List Cell) (cs : List Nat) :
    ((cs.rdropWhile (blankAt row)).flatMap fun c => codeUnits (cellOr row c).ch).filter
      (· != 0x20) = cs.flatMap (inked row) := by
  rw [List.filter_flatMap]
  exact flatMap_rdropWhile fun c hc => inked_eq_nil_iff.mpr hc

theorem filter_glyphs (row : List Cell) (c0 c1 : Nat) :
    (glyphs row c0 c1).filter (· != 0x20) = (List.range' c0 (c1 - c0)).flatMap (inked row) := by
  rw [glyphs, filter_trimmed]
  induction List.range' c0 (c1 - c0) with
  | nil => rfl
  | cons c cs ih =>
    rw [List.filter_cons, List.flatMap_cons, ← ih]
    split
    · rfl
    · next hc =>
      rw [inked_eq_nil_iff.mpr (continuation_blank (Bool.eq_false_iff.mpr hc)), List.nil_append]

end Row

namespace Display

variable (d : Display)

theorem cellAt_eq (absLine col : Nat) : d.cellAt absLine col = (d.line absLine)[col]? := by
  rw [cellAt, line, lines]
  dsimp only
  split
  · next hlt => rw [List.getD_append _ _ _ _ hlt]
  · next hge =>
    have hle := Nat.le_of_not_lt hge
    rw [List.getD_append_right _ _ _ _ hle]
    split
    · next hout =>
      by_cases hr : absLine - d.scrollback.length < d.screen.length
      · have hrow := d.screen_cols _ (List.getElem_mem hr)
        rw [List.getD_eq_getElem _ _ hr, List.getElem?_eq_none]
        rw [hrow]
        exact hout.resolve_left (by rw [← d.screen_rows]; omega)
      · rw [List.getD_eq_default _ _ (Nat.le_of_not_lt hr)]
        rfl
    · rfl

theorem rowText_eq (absLine c0 c1 : Nat) : d.rowText absLine c0 c1 =
    ((List.range' c0 (c1 - c0)).rdropWhile (blankAt (d.line absLine))).flatMap fun c =>
      codeUnits (cellOr (d.line absLine) c).ch := by
  have hcell (c : Nat) : (match d.cellAt absLine c with
      | some cell => codeUnits cell.ch
      | none => [0x20]) = codeUnits (cellOr (d.line absLine) c).ch := by
    rw [cellAt_eq, cellOr]
    cases (d.line absLine)[c]? with
    | none => rfl
    | some cell => rfl
  rw [rowText]
  simp only [hcell]
  rw [List.foldl_append_eq_append, List.nil_append]
  exact (codeUnits_glyphs _).rdropWhile_flatMap _

theorem length_glyphs_le (absLine c0 c1 : Nat) :
    (glyphs (d.line absLine) c0 c1).length ≤ (d.rowText absLine c0 c1).length := by
  rw [glyphs_eq, rowText_eq]
  exact length_filter_flatMap_le _ _

theorem rowText_eq_glyphs_iff (absLine c0 c1 : Nat) :
    d.rowText absLine c0 c1 = glyphs (d.line absLine) c0 c1 ↔
      NoContinuation (d.line absLine) c0 c1 := by
  rw [glyphs_eq, rowText_eq, eq_comm, filter_flatMap_eq_iff (codeUnits_glyphs _)]
  simp only [Bool.not_eq_true']
  rfl

theorem selectedText_eq {a b : Point} (anchor head : Point) (h : ordered anchor head = (a, b)) :
    d.selectedText ⟨true, anchor, head⟩ =
      (List.range' a.y (b.y + 1 - a.y)).flatMap fun line =>
        d.rowText line (firstCol a line) (d.endCol b line) ++ lineFeed b.y line := by
  have hstep (text : List UInt16) (line : Nat) :
      (if line ≠ b.y then text ++ d.rowText line (firstCol a line) (d.endCol b line) ++ [0x0A]
        else text ++ d.rowText line (firstCol a line) (d.endCol b line)) =
        text ++ (d.rowText line (firstCol a line) (d.endCol b line) ++ lineFeed b.y line) := by
    rw [lineFeed]
    split
    · exact List.append_assoc ..
    · rw [List.append_nil]
  rw [selectedText, if_pos rfl, h]
  refine Eq.trans ?_ ((List.foldl_append_eq_append).trans (List.nil_append _))
  exact congrArg (fun f => List.foldl f [] (List.range' a.y (b.y + 1 - a.y)))
    (funext fun text => funext fun line => hstep text line)

-- A selection is copied exactly where no continuation cell is copied.
theorem selectedText_iff {a b : Point} (anchor head : Point) (h : ordered anchor head = (a, b)) :
    d.selectedText ⟨true, anchor, head⟩ = d.selectedGlyphs a b ↔
      ∀ line, a.y ≤ line → line ≤ b.y →
        NoContinuation (d.line line) (firstCol a line) (d.endCol b line) := by
  have hle (line : Nat) :
      (glyphs (d.line line) (firstCol a line) (d.endCol b line) ++ lineFeed b.y line).length ≤
        (d.rowText line (firstCol a line) (d.endCol b line) ++ lineFeed b.y line).length := by
    rw [List.length_append, List.length_append]
    exact Nat.add_le_add_right (d.length_glyphs_le ..) _
  rw [d.selectedText_eq anchor head h, selectedGlyphs, eq_comm,
    flatMap_eq_iff fun line _ => hle line]
  constructor
  · intro heq line ha hb
    refine (d.rowText_eq_glyphs_iff ..).mp (List.append_cancel_right (heq line ?_)).symm
    exact List.mem_range'_1.mpr ⟨ha, by omega⟩
  · intro hnone line hline
    have hrange := List.mem_range'_1.mp hline
    rw [(d.rowText_eq_glyphs_iff ..).mpr (hnone line hrange.1 (by omega))]

-- Of each line, selectAll takes the columns up to this one.
def allEnd (line : Nat) : Nat := if line = d.totalLines - 1 then d.cols - 1 else d.cols

theorem totalLines_pos : 0 < d.totalLines := Nat.add_pos_right _ d.rows_pos

theorem selectAll_text (s : Selection) : d.selectedText (d.selectAll s) =
    (List.range' 0 d.totalLines).flatMap fun line =>
      d.rowText line 0 (d.allEnd line) ++ lineFeed (d.totalLines - 1) line := by
  have hpos := d.totalLines_pos
  have hordered : ordered ⟨0, 0⟩ ⟨max 0 (d.cols - 1), d.totalLines - 1⟩ =
      (⟨0, 0⟩, ⟨max 0 (d.cols - 1), d.totalLines - 1⟩) := if_neg (by simp)
  have hfirst (line : Nat) : firstCol ⟨0, 0⟩ line = 0 := ite_self 0
  rw [selectAll, if_neg (by omega), d.selectedText_eq _ _ hordered]
  simp only [hfirst, endCol, allEnd, Nat.zero_max, Nat.sub_zero]
  rw [Nat.sub_add_cancel hpos]

theorem inked_rest {row : List Cell} {k : Nat}
    (h : ((List.range' 0 k).flatMap (inked row)).length =
      ((List.range' 0 row.length).flatMap (inked row)).length) : BlankFrom row k := by
  intro c hk hlt
  rw [range'_split (Nat.le_trans hk (Nat.le_of_lt hlt)), List.flatMap_append,
    List.length_append] at h
  have hnil : (List.range' k (row.length - k)).flatMap (inked row) = [] :=
    List.eq_nil_of_length_eq_zero (by omega)
  exact inked_eq_nil_iff.mp (List.flatMap_eq_nil_iff.mp hnil c (List.mem_range'_1.mpr ⟨hk, by omega⟩))

theorem length_inked_le (row : List Cell) (k : Nat) :
    ((List.range' 0 k).flatMap (inked row)).length ≤
      ((List.range' 0 row.length).flatMap (inked row)).length := by
  rcases Nat.le_total k row.length with hle | hle
  · rw [range'_split hle, List.flatMap_append, List.length_append]
    exact Nat.le_add_right _ _
  · have hnil : (List.range' row.length (k - row.length)).flatMap (inked row) = [] :=
      List.flatMap_eq_nil_iff.mpr fun c hc =>
        inked_eq_nil_iff.mpr (blankAt_of_length_le (List.mem_range'_1.mp hc).1)
    rw [range'_split hle, List.flatMap_append, hnil, List.append_nil]

-- What is left out holds no glyph, if the texts agree.
theorem blankFrom_of_selectAll (s : Selection) (h : d.selectedText (d.selectAll s) = d.allGlyphs) :
    ∀ line < d.totalLines, BlankFrom (d.line line) (d.allEnd line) := by
  have hink (line : Nat) : (d.rowText line 0 (d.allEnd line)).filter (· != 0x20) =
      (List.range' 0 (d.allEnd line)).flatMap (inked (d.line line)) := by
    rw [rowText_eq, filter_trimmed, Nat.sub_zero]
  have hall := congrArg (List.filter (· != 0x20)) h
  rw [selectAll_text, allGlyphs, List.filter_flatMap, List.filter_flatMap] at hall
  simp only [List.filter_append, hink, filter_glyphs, Nat.sub_zero] at hall
  have hlines := (flatMap_eq_iff fun line _ => by
    rw [List.length_append, List.length_append]
    exact Nat.add_le_add_right (length_inked_le (d.line line) (d.allEnd line)) _).mp hall
  intro line hline
  have heq := List.append_cancel_right (hlines line (List.mem_range'_1.mpr ⟨Nat.zero_le _, by omega⟩))
  exact inked_rest (congrArg List.length heq)

theorem selectAll_iff (s : Selection) :
    d.selectedText (d.selectAll s) = d.allGlyphs ↔
      ∀ line < d.totalLines, NoContinuation (d.line line) 0 (d.allEnd line) ∧
        BlankFrom (d.line line) (d.allEnd line) := by
  have hle (line : Nat) :
      (glyphs (d.line line) 0 (d.allEnd line) ++ lineFeed (d.totalLines - 1) line).length ≤
        (d.rowText line 0 (d.allEnd line) ++ lineFeed (d.totalLines - 1) line).length := by
    rw [List.length_append, List.length_append]
    exact Nat.add_le_add_right (d.length_glyphs_le ..) _
  have hcut (hblank : ∀ line < d.totalLines, BlankFrom (d.line line) (d.allEnd line)) :
      d.allGlyphs = (List.range' 0 d.totalLines).flatMap fun line =>
        glyphs (d.line line) 0 (d.allEnd line) ++ lineFeed (d.totalLines - 1) line := by
    refine List.flatMap_congr fun line hline => ?_
    rw [glyphs_of_blankFrom (hblank line (by have := List.mem_range'_1.mp hline; omega))]
  constructor
  · intro h line hline
    have hblank := d.blankFrom_of_selectAll s h
    rw [selectAll_text, hcut hblank, eq_comm, flatMap_eq_iff fun line _ => hle line] at h
    have heq := List.append_cancel_right (h line (List.mem_range'_1.mpr ⟨Nat.zero_le _, by omega⟩))
    exact ⟨(d.rowText_eq_glyphs_iff ..).mp heq.symm, hblank line hline⟩
  · intro h
    rw [selectAll_text, hcut fun line hline => (h line hline).2]
    refine List.flatMap_congr fun line hline => ?_
    have hrange := List.mem_range'_1.mp hline
    rw [(d.rowText_eq_glyphs_iff ..).mpr (h line (by omega)).1]

end Display

theorem copy_exact_iff (d : Display) (s : Selection) (anchor head : Point) :
    (d.selectedText ⟨true, anchor, head⟩ =
          d.selectedGlyphs (ordered anchor head).1 (ordered anchor head).2 ∧
        d.selectedText (d.selectAll s) = d.allGlyphs) ↔
      (∀ line, (ordered anchor head).1.y ≤ line → line ≤ (ordered anchor head).2.y →
        NoContinuation (d.line line) (Display.firstCol (ordered anchor head).1 line)
          (d.endCol (ordered anchor head).2 line)) ∧
      ∀ line < d.totalLines, NoContinuation (d.line line) 0 (d.allEnd line) ∧
        BlankFrom (d.line line) (d.allEnd line) :=
  and_congr (d.selectedText_iff anchor head rfl) (d.selectAll_iff s)

-- One row: a wide glyph with its continuation, and a letter in the last column.
def wideDisplay : Display where
  scrollback := []
  rows := 1
  cols := 3
  screen := [[{ ch := 0x4E2D, wide := true }, {}, { ch := 0x61 }]]
  screen_rows := rfl
  screen_cols := by decide
  rows_pos := Nat.one_pos

theorem last_column_lost :
    wideDisplay.selectedText (wideDisplay.selectAll ⟨false, ⟨0, 0⟩, ⟨0, 0⟩⟩) = [0x4E2D] ∧
      wideDisplay.selectedText ⟨true, ⟨0, 0⟩, ⟨3, 0⟩⟩ = [0x4E2D, 0x20, 0x61] ∧
      ¬ ∀ (d : Display) (s : Selection) (anchor head : Point),
        d.selectedText ⟨true, anchor, head⟩ =
            d.selectedGlyphs (ordered anchor head).1 (ordered anchor head).2 ∧
          d.selectedText (d.selectAll s) = d.allGlyphs := by
  have hall : wideDisplay.selectedText (wideDisplay.selectAll ⟨false, ⟨0, 0⟩, ⟨0, 0⟩⟩) =
      [0x4E2D] := by decide
  have hglyphs : wideDisplay.allGlyphs = [0x4E2D, 0x61] := by decide
  refine ⟨hall, by decide, fun h => ?_⟩
  have hexact := (h wideDisplay ⟨false, ⟨0, 0⟩, ⟨0, 0⟩⟩ ⟨0, 0⟩ ⟨3, 0⟩).2
  rw [hall, hglyphs] at hexact
  cases hexact

end Ui
