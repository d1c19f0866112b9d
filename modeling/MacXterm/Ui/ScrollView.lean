import MacXterm.Lib.Mealy
import MacXterm.Term.LineSearch
import MacXterm.Term.PrivateModes
import MacXterm.Ui.Selection

namespace Ui

open Term

-- A display and the size of its cells in pixels.
structure Screen extends Display where
  cols_pos : 0 < cols
  cellW : Nat
  cellH : Nat
  cellW_pos : 0 < cellW
  cellH_pos : 0 < cellH

inductive MouseButton where
  | left | middle | right | other
deriving DecidableEq

-- pos() and position() are in pixels, and may lie outside of the widget.
structure MouseEvent where
  button : MouseButton
  pos : Int × Int
  position : Int × Int
  shift : Bool
  alt : Bool
  control : Bool

inductive ReportKind where
  | press | motion | release | wheel
deriving DecidableEq

structure Report where
  kind : ReportKind
  cb : Nat
  cell : Nat × Nat
deriving DecidableEq

structure ScrollView where
  screen : Screen
  mouseTracking : MouseTracking := .none
  scrollOffset : Int := 0
  selecting : Bool := false
  selection : Selection := ⟨false, ⟨0, 0⟩, ⟨0, 0⟩⟩
  mouseBtn : Option Nat := none
  lastMouseCell : Option (Nat × Nat) := none
  findMatches : List (Nat × Nat) := []
  findLen : Nat := 0
  findIndex : Int := -1

inductive ViewOutput where
  | report (r : Report)
  | openUrl (url : List UInt16)
  | copy (text : List UInt16)
  | paste
deriving DecidableEq

inductive ViewEvent where
  | page (up : Bool)
  | typed
  | paste
  | wheel (delta : Int) (e : MouseEvent)
  | press (e : MouseEvent) (pastes : Bool)
  | move (e : MouseEvent)
  | release (e : MouseEvent)
  | selectAll
  | clearScrollback
  | find (query : List UInt16)
  | findStep (forward : Bool)
  | closeFind
  | engine (screen : Screen) (mouseTracking : MouseTracking)

def cellUnit (ch : UInt32) : UInt16 := if ch ≤ 0xFFFF then UInt16.ofNat ch.toNat else 0xFFFD

def clampCell (p : Int) (size cells : Nat) : Nat := (max 0 (min (p.tdiv size) (cells - 1))).toNat

def buttonBaseCode : MouseButton → Nat
  | .left => 0
  | .middle => 1
  | .right => 2
  | .other => 0

namespace Display

def lineText (d : Display) (absLine : Nat) : List UInt16 :=
  (List.range d.cols).map fun c =>
    match d.cellAt absLine c with
    | some cell => if cell.ch ≠ 0 then cellUnit cell.ch else 0x20
    | none => 0x20

def lineTexts (d : Display) : List (List UInt16) := (List.range d.totalLines).map d.lineText

end Display

namespace ScrollView

variable (f : CaseFold) (s : ScrollView)

def topLine : Nat :=
  (max 0 ((s.screen.totalLines : Int) - s.screen.rows - s.scrollOffset)).toNat

def cellForPos (pos : Int × Int) : Point :=
  ⟨clampCell pos.1 s.screen.cellW s.screen.cols,
    s.topLine + clampCell pos.2 s.screen.cellH s.screen.rows⟩

def clampOffset (offset : Int) : Int := max 0 (min offset s.screen.scrollback.length)

def scrollTo (offset : Int) : ScrollView := { s with scrollOffset := s.clampOffset offset }

def toBottom : ScrollView := { s with scrollOffset := 0 }

def urlAt (cell : Point) : List UInt16 := f.detectUrlAt (s.screen.lineText cell.y) cell.x

def mouseCell (e : MouseEvent) : Nat × Nat :=
  (clampCell e.position.1 s.screen.cellW s.screen.cols + 1,
    clampCell e.position.2 s.screen.cellH s.screen.rows + 1)

def reportsMotion : Bool :=
  s.mouseTracking = .anyMotion || s.mouseTracking = .buttonEvent && s.mouseBtn.isSome

def modifierBits (e : MouseEvent) : Nat :=
  (if e.shift then 4 else 0) + (if e.alt then 8 else 0) + if e.control then 16 else 0

def reportMouseIfEnabled (e : MouseEvent) (cbBase : Nat) (kind : ReportKind) :
    Option (ScrollView × List ViewOutput) :=
  if s.mouseTracking = .none || e.shift then none
  else if kind = .motion && !s.reportsMotion then none
  else if kind = .motion && s.lastMouseCell = some (s.mouseCell e) then some (s, [])
  else
    let cb := cbBase + (if kind = .motion then 32 else 0) + modifierBits e
    some ({ s with
        lastMouseCell := if kind = .motion then some (s.mouseCell e) else s.lastMouseCell },
      [.report ⟨kind, cb, s.mouseCell e⟩])

def mousePressEvent (e : MouseEvent) (pastes : Bool) : ScrollView × List ViewOutput :=
  if e.button = .left && e.control && !(s.urlAt f (s.cellForPos e.pos)).isEmpty then
    (s, [.openUrl (s.urlAt f (s.cellForPos e.pos))])
  else
    match s.reportMouseIfEnabled e (buttonBaseCode e.button) .press with
    | some (s, out) =>
        ({ s with mouseBtn := some (buttonBaseCode e.button), lastMouseCell := none }, out)
    | none =>
        match e.button with
        | .left =>
            ({ s with
                selecting := true
                selection := ⟨false, s.cellForPos e.pos, s.cellForPos e.pos⟩ }, [])
        | .middle => (if pastes then s.toBottom else s, [.paste])
        | _ => (s, [])

def drag (e : MouseEvent) : ScrollView :=
  if s.selecting then
    let head := s.cellForPos e.pos
    { s with selection := ⟨head ≠ s.selection.selAnchor, s.selection.selAnchor, head⟩ }
  else s

def mouseMoveEvent (e : MouseEvent) : ScrollView × List ViewOutput :=
  if s.mouseTracking ≠ .none && !s.selecting then
    match s.reportMouseIfEnabled e (s.mouseBtn.getD 3) .motion with
    | some r => r
    | none => (s.drag e, [])
  else (s.drag e, [])

def copySelection : List ViewOutput :=
  if (s.screen.selectedText s.selection).isEmpty then []
  else [.copy (s.screen.selectedText s.selection)]

def mouseReleaseEvent (e : MouseEvent) : ScrollView × List ViewOutput :=
  if s.mouseBtn.isSome && s.mouseTracking ≠ .none then
    match s.reportMouseIfEnabled e (buttonBaseCode e.button) .release with
    | some (s, out) => ({ s with mouseBtn := none }, out)
    | none => ({ s with mouseBtn := none }, [])
  else if e.button = .left then
    ({ s with selecting := false }, if s.selection.hasSelection then s.copySelection else [])
  else (s, [])

def wheelEvent (delta : Int) (e : MouseEvent) : ScrollView × List ViewOutput :=
  let steps := delta.tdiv 120
  if steps = 0 then (s, [])
  else if s.mouseTracking ≠ .none && !e.shift then
    (s, List.replicate steps.natAbs
      (.report ⟨.wheel, if 0 < steps then 64 else 65, s.mouseCell e⟩))
  else (s.scrollTo (s.scrollOffset + steps * 3), [])

def clearScrollback : ScrollView :=
  { s with
    screen := { s.screen with scrollback := [] }
    scrollOffset := 0
    selection := { s.selection with hasSelection := false } }

-- Of an index into the matches; a negative one is none of them.
def findReveal (index : Int) : ScrollView :=
  if index < 0 then s
  else
    match s.findMatches[index.toNat]? with
    | none => s
    | some m =>
        { s with
          selection := ⟨true, ⟨m.1, m.2⟩, ⟨m.1 + s.findLen, m.2⟩⟩
          scrollOffset := s.clampOffset
            ((s.screen.totalLines : Int) - s.screen.rows - m.2 + s.screen.rows / 2) }

def findUpdate (query : List UInt16) : ScrollView :=
  let found := f.findMatches s.screen.lineTexts query
  let s := { s with findIndex := -1, findLen := query.length, findMatches := found }
  if found.isEmpty then { s with selection := { s.selection with hasSelection := false } }
  else { s with findIndex := found.length - 1 }.findReveal (found.length - 1)

def findStep (forward : Bool) : ScrollView :=
  if s.findMatches.isEmpty then s
  else
    let index := (s.findIndex + (if forward then 1 else -1) + s.findMatches.length).tmod
      s.findMatches.length
    { s with findIndex := index }.findReveal index

def step : ViewEvent → ScrollView × List ViewOutput
  | .page up =>
      (s.scrollTo (s.scrollOffset + if up then (s.screen.rows : Int) else -s.screen.rows), [])
  | .typed => (s.toBottom, [])
  | .paste => (s.toBottom, [])
  | .wheel delta e => s.wheelEvent delta e
  | .press e pastes => s.mousePressEvent f e pastes
  | .move e => s.mouseMoveEvent e
  | .release e => s.mouseReleaseEvent e
  | .selectAll => ({ s with selection := s.screen.selectAll s.selection }, [])
  | .clearScrollback => (s.clearScrollback, [])
  | .find query => (s.findUpdate f query, [])
  | .findStep forward => (s.findStep forward, [])
  | .closeFind => ({ s with findMatches := [], findIndex := -1 }, [])
  | .engine screen mouseTracking => ({ s with screen, mouseTracking }, [])

def after (events : List ViewEvent) : ScrollView := Mealy.after (step f) s events

-- What stays the same but for the offset, the selection and the mouse.
structure Frame (s t : ScrollView) : Prop where
  screen : t.screen = s.screen
  findMatches : t.findMatches = s.findMatches
  findLen : t.findLen = s.findLen
  findIndex : t.findIndex = s.findIndex
  offset : 0 ≤ s.scrollOffset → 0 ≤ t.scrollOffset

variable {f : CaseFold} {s t : ScrollView}

theorem Frame.refl (s : ScrollView) : Frame s s := ⟨rfl, rfl, rfl, rfl, id⟩

theorem clampOffset_nonneg (s : ScrollView) (offset : Int) : 0 ≤ s.clampOffset offset :=
  Int.le_max_left 0 _

theorem frame_scrollTo (s : ScrollView) (offset : Int) : Frame s (s.scrollTo offset) :=
  ⟨rfl, rfl, rfl, rfl, fun _ => s.clampOffset_nonneg offset⟩

theorem frame_toBottom (s : ScrollView) : Frame s s.toBottom :=
  ⟨rfl, rfl, rfl, rfl, fun _ => Int.le_refl 0⟩

theorem reportMouse_some {e : MouseEvent} {cb : Nat} {kind : ReportKind}
    {r : ScrollView × List ViewOutput} (h : s.reportMouseIfEnabled e cb kind = some r) :
    kind = .motion ∧ s.lastMouseCell = some (s.mouseCell e) ∧ r = (s, []) ∨
      ∃ report : Report, report.kind = kind ∧ report.cell = s.mouseCell e ∧
        (kind = .motion → s.lastMouseCell ≠ some report.cell) ∧
        r = ({ s with
          lastMouseCell := if kind = .motion then some report.cell else s.lastMouseCell },
            [.report report]) := by
  rw [reportMouseIfEnabled] at h
  split at h
  · cases h
  · split at h
    · cases h
    · split at h
      · next hsame =>
        rw [Bool.and_eq_true, decide_eq_true_eq, decide_eq_true_eq] at hsame
        exact .inl ⟨hsame.1, hsame.2, (Option.some.inj h).symm⟩
      · next hnew =>
        rw [Bool.and_eq_true, decide_eq_true_eq, decide_eq_true_eq] at hnew
        obtain rfl := Option.some.inj h
        exact .inr ⟨⟨kind, _, s.mouseCell e⟩, rfl, rfl,
          fun hmotion hlast => hnew ⟨hmotion, hlast⟩, rfl⟩

theorem frame_reportMouse {e : MouseEvent} {cb : Nat} {kind : ReportKind}
    {r : ScrollView × List ViewOutput} (h : s.reportMouseIfEnabled e cb kind = some r) :
    Frame s r.1 := by
  rcases reportMouse_some h with ⟨-, -, rfl⟩ | ⟨report, -, -, -, rfl⟩
  · exact Frame.refl s
  · exact ⟨rfl, rfl, rfl, rfl, id⟩

theorem frame_drag (s : ScrollView) (e : MouseEvent) : Frame s (s.drag e) := by
  rw [drag]
  split
  · exact ⟨rfl, rfl, rfl, rfl, id⟩
  · exact Frame.refl s

theorem frame_mousePressEvent (f : CaseFold) (s : ScrollView) (e : MouseEvent) (pastes : Bool) :
    Frame s (s.mousePressEvent f e pastes).1 := by
  rw [mousePressEvent]
  split
  · exact Frame.refl s
  · split
    · next h =>
      obtain ⟨hscreen, hmatches, hlen, hindex, hoffset⟩ := frame_reportMouse h
      exact ⟨hscreen, hmatches, hlen, hindex, hoffset⟩
    · split
      · exact ⟨rfl, rfl, rfl, rfl, id⟩
      · split
        · exact frame_toBottom s
        · exact Frame.refl s
      · exact Frame.refl s

theorem frame_mouseMoveEvent (s : ScrollView) (e : MouseEvent) :
    Frame s (s.mouseMoveEvent e).1 := by
  rw [mouseMoveEvent]
  split
  · split
    · next h => exact frame_reportMouse h
    · exact frame_drag s e
  · exact frame_drag s e

theorem frame_mouseReleaseEvent (s : ScrollView) (e : MouseEvent) :
    Frame s (s.mouseReleaseEvent e).1 := by
  rw [mouseReleaseEvent]
  split
  · split
    · next h =>
      obtain ⟨hscreen, hmatches, hlen, hindex, hoffset⟩ := frame_reportMouse h
      exact ⟨hscreen, hmatches, hlen, hindex, hoffset⟩
    · exact ⟨rfl, rfl, rfl, rfl, id⟩
  · split
    · exact ⟨rfl, rfl, rfl, rfl, id⟩
    · exact Frame.refl s

theorem frame_wheelEvent (s : ScrollView) (delta : Int) (e : MouseEvent) :
    Frame s (s.wheelEvent delta e).1 := by
  unfold wheelEvent
  dsimp only
  split
  · exact Frame.refl s
  · split
    · exact Frame.refl s
    · exact frame_scrollTo s _

end ScrollView

-- What one does while looking through what was found: everything but a new search or a new text.
def ViewEvent.Browses : ViewEvent → Prop
  | .find _ | .closeFind | .clearScrollback | .engine _ _ => False
  | _ => True

def ViewEvent.turn : ViewEvent → Int
  | .findStep true => 1
  | .findStep false => -1
  | _ => 0

namespace ScrollView

variable {f : CaseFold} {s t : ScrollView}

theorem frame_step {e : ViewEvent} (h : e.Browses) (hstep : ∀ forward, e ≠ .findStep forward) :
    Frame s (s.step f e).1 := by
  cases e with
  | page up => exact frame_scrollTo s _
  | typed => exact frame_toBottom s
  | paste => exact frame_toBottom s
  | wheel delta e => exact frame_wheelEvent s delta e
  | press e pastes => exact frame_mousePressEvent f s e pastes
  | move e => exact frame_mouseMoveEvent s e
  | release e => exact frame_mouseReleaseEvent s e
  | selectAll => exact ⟨rfl, rfl, rfl, rfl, id⟩
  | clearScrollback => exact h.elim
  | find query => exact h.elim
  | findStep forward => exact absurd rfl (hstep forward)
  | closeFind => exact h.elim
  | engine screen mouseTracking => exact h.elim

theorem offset_findReveal (h : 0 ≤ s.scrollOffset) (index : Int) :
    0 ≤ (s.findReveal index).scrollOffset := by
  rw [findReveal]
  split
  · exact h
  · split
    · exact h
    · exact s.clampOffset_nonneg _

theorem offset_step (h : 0 ≤ s.scrollOffset) (e : ViewEvent) :
    0 ≤ (s.step f e).1.scrollOffset := by
  cases e with
  | page up => exact s.clampOffset_nonneg _
  | typed => exact Int.le_refl 0
  | paste => exact Int.le_refl 0
  | wheel delta e => exact (frame_wheelEvent s delta e).offset h
  | press e pastes => exact (frame_mousePressEvent f s e pastes).offset h
  | move e => exact (frame_mouseMoveEvent s e).offset h
  | release e => exact (frame_mouseReleaseEvent s e).offset h
  | selectAll => exact h
  | clearScrollback => exact Int.le_refl 0
  | find query =>
    rw [step, findUpdate]
    dsimp only
    split
    · exact h
    · exact offset_findReveal (by exact h) _
  | findStep forward =>
    rw [step, findStep]
    dsimp only
    split
    · exact h
    · exact offset_findReveal (by exact h) _
  | closeFind => exact h
  | engine screen mouseTracking => exact h

theorem offset_after (h : 0 ≤ s.scrollOffset) (events : List ViewEvent) :
    0 ≤ (s.after f events).scrollOffset := by
  induction events generalizing s with
  | nil => exact h
  | cons e events ih => exact ih (offset_step h e)

theorem topLine_add_rows_le (h : 0 ≤ s.scrollOffset) :
    s.topLine + s.screen.rows ≤ s.screen.totalLines := by
  rw [topLine, Display.totalLines]
  omega

end ScrollView

theorem clampCell_lt (p : Int) (size : Nat) {cells : Nat} (h : 0 < cells) :
    clampCell p size cells < cells := by
  rw [clampCell]
  omega

namespace ScrollView

variable {f : CaseFold} {s : ScrollView} {query : List UInt16}

-- The match that the index points at is the one selected, and its line is in view.
structure Shows (s : ScrollView) (m : Nat × Nat) (len : Nat) : Prop where
  selection : s.selection = ⟨true, ⟨m.1, m.2⟩, ⟨m.1 + len, m.2⟩⟩
  topLine_le : s.topLine ≤ m.2
  lt_rows : m.2 < s.topLine + s.screen.rows

theorem shows_findReveal {m : Nat × Nat} {index : Int} (hindex : 0 ≤ index)
    (hm : s.findMatches[index.toNat]? = some m) (hline : m.2 < s.screen.totalLines) :
    (s.findReveal index).Shows m s.findLen := by
  have hrows := s.screen.rows_pos
  rw [Display.totalLines] at hline
  rw [findReveal, if_neg (by omega), hm]
  refine ⟨rfl, ?_, ?_⟩
  · simp only [topLine, clampOffset, Display.totalLines]
    omega
  · simp only [topLine, clampOffset, Display.totalLines]
    omega

theorem length_lineTexts (d : Display) : d.lineTexts.length = d.totalLines := by
  rw [Display.lineTexts, List.length_map, List.length_range]

theorem findMatches_occurs {d : Display} {m : Nat × Nat}
    (h : m ∈ f.findMatches d.lineTexts query) :
    m.2 < d.totalLines ∧ OccursAt f (d.lineText m.2) query m.1 := by
  obtain ⟨-, text, htext, hoccurs⟩ := (mem_findMatches_iff d.lineTexts).mp h
  obtain ⟨hlt, hget⟩ := List.getElem?_eq_some_iff.mp htext
  rw [length_lineTexts] at hlt
  refine ⟨hlt, ?_⟩
  simp only [Display.lineTexts, List.getElem_map, List.getElem_range] at hget
  exact hget ▸ hoccurs

variable (f query) in
def found (d : Display) : List (Nat × Nat) := f.findMatches d.lineTexts query

-- After a search, and so many steps forward as `turns` says.
structure Searching (f : CaseFold) (query : List UInt16) (screen : Screen) (turns : Int)
    (s : ScrollView) : Prop where
  screen_eq : s.screen = screen
  findMatches_eq : s.findMatches = found f query screen.toDisplay
  findLen_eq : s.findLen = query.length
  findIndex_eq : s.findIndex =
    (((found f query screen.toDisplay).length : Int) - 1 + turns) %
      (found f query screen.toDisplay).length

theorem findReveal_eq (s : ScrollView) (index : Int) :
    (s.findReveal index).screen = s.screen ∧ (s.findReveal index).findMatches = s.findMatches ∧
      (s.findReveal index).findLen = s.findLen ∧
      (s.findReveal index).findIndex = s.findIndex := by
  rw [findReveal]
  split
  · exact ⟨rfl, rfl, rfl, rfl⟩
  · split
    · exact ⟨rfl, rfl, rfl, rfl⟩
    · exact ⟨rfl, rfl, rfl, rfl⟩

theorem Searching.findReveal {screen : Screen} {turns : Int} (h : Searching f query screen turns s)
    (index : Int) : Searching f query screen turns (s.findReveal index) := by
  obtain ⟨hscreen, hmatches, hlen, hindex⟩ := findReveal_eq s index
  exact ⟨hscreen.trans h.screen_eq, hmatches.trans h.findMatches_eq, hlen.trans h.findLen_eq,
    hindex.trans h.findIndex_eq⟩

-- The match with the number that the search has come to.
def Chosen (f : CaseFold) (query : List UInt16) (d : Display) (turns : Int) (m : Nat × Nat) :
    Prop :=
  (found f query d)[((((found f query d).length : Int) - 1 + turns) %
    (found f query d).length).toNat]? = some m

theorem exists_chosen {d : Display} (hfound : found f query d ≠ []) (turns : Int) :
    ∃ m, Chosen f query d turns m := by
  have hpos := List.length_pos_iff.mpr hfound
  have hnonneg := Int.emod_nonneg (((found f query d).length : Int) - 1 + turns)
    (b := (found f query d).length) (by omega)
  have hlt := Int.emod_lt_of_pos (((found f query d).length : Int) - 1 + turns)
    (b := (found f query d).length) (by omega)
  exact ⟨_, List.getElem?_eq_getElem (by omega)⟩

theorem Searching.shows {screen : Screen} {turns : Int} {m : Nat × Nat}
    (h : Searching f query screen turns s) (hfound : found f query screen.toDisplay ≠ [])
    (hm : Chosen f query screen.toDisplay turns m) :
    (s.findReveal s.findIndex).Shows m query.length := by
  have hpos := List.length_pos_iff.mpr hfound
  have hnonneg := Int.emod_nonneg (((found f query screen.toDisplay).length : Int) - 1 + turns)
    (b := (found f query screen.toDisplay).length) (by omega)
  have hline := (findMatches_occurs (List.mem_of_getElem? hm)).1
  rw [← h.findLen_eq]
  refine shows_findReveal (h.findIndex_eq ▸ hnonneg) ?_ (h.screen_eq ▸ hline)
  rw [h.findMatches_eq, h.findIndex_eq]
  exact hm

theorem searching_findUpdate (s : ScrollView)
    (hfound : found f query s.screen.toDisplay ≠ []) :
    ∃ t : ScrollView, Searching f query s.screen 0 t ∧
      s.findUpdate f query = t.findReveal t.findIndex := by
  have hpos := List.length_pos_iff.mpr hfound
  have hnonempty : (f.findMatches s.screen.lineTexts query).isEmpty = false := by
    simpa [found] using hfound
  refine ⟨{ s with
    findIndex := ((found f query s.screen.toDisplay).length : Int) - 1
    findLen := query.length
    findMatches := found f query s.screen.toDisplay }, ⟨rfl, rfl, rfl, ?_⟩, ?_⟩
  · rw [Int.add_zero, Int.emod_eq_of_lt (by omega) (by omega)]
  · rw [findUpdate]
    dsimp only
    rw [hnonempty]
    rfl

theorem searching_findStep {screen : Screen} {turns : Int}
    (h : Searching f query screen turns s) (hfound : found f query screen.toDisplay ≠ [])
    (forward : Bool) :
    ∃ t : ScrollView, Searching f query screen (turns + ViewEvent.turn (.findStep forward)) t ∧
      s.findStep forward = t.findReveal t.findIndex := by
  have hpos := List.length_pos_iff.mpr hfound
  have hnonneg := Int.emod_nonneg (((found f query screen.toDisplay).length : Int) - 1 + turns)
    (b := (found f query screen.toDisplay).length) (by omega)
  have hturn : (if forward then (1 : Int) else -1) = ViewEvent.turn (.findStep forward) := by
    cases forward with
    | true => rfl
    | false => rfl
  have hbound : -1 ≤ ViewEvent.turn (.findStep forward) := by
    cases forward with
    | true => decide
    | false => decide
  rw [findStep, if_neg (by simpa [h.findMatches_eq] using hfound), hturn]
  refine ⟨{ s with findIndex := (s.findIndex + ViewEvent.turn (.findStep forward) +
    s.findMatches.length).tmod s.findMatches.length },
    ⟨h.screen_eq, h.findMatches_eq, h.findLen_eq, ?_⟩, rfl⟩
  dsimp only
  rw [h.findMatches_eq, h.findIndex_eq, Int.tmod_eq_emod_of_nonneg (by omega),
    Int.add_emod_right, Int.emod_add_emod, Int.add_assoc]

def turns (nav : List ViewEvent) : Int := nav.foldr (fun e k => e.turn + k) 0

theorem searching_after {screen : Screen} {k : Int} {nav : List ViewEvent}
    (h : Searching f query screen k s) (hfound : found f query screen.toDisplay ≠ [])
    (hnav : ∀ e ∈ nav, e.Browses) :
    Searching f query screen (k + turns nav) (s.after f nav) := by
  induction nav generalizing s k with
  | nil => exact (Int.add_zero k).symm ▸ h
  | cons e nav ih =>
    obtain ⟨he, hrest⟩ := List.forall_mem_cons.mp hnav
    have hsum : k + turns (e :: nav) = k + e.turn + turns nav := by
      rw [turns, List.foldr_cons, ← Int.add_assoc]
      rfl
    rw [hsum]
    refine ih ?_ hrest
    by_cases hstep : ∃ forward, e = .findStep forward
    · obtain ⟨forward, rfl⟩ := hstep
      obtain ⟨t, ht, heq⟩ := searching_findStep h hfound forward
      change Searching f query screen _ (s.findStep forward)
      exact heq ▸ ht.findReveal _
    · have hframe := frame_step (f := f) (s := s) he fun forward heq => hstep ⟨forward, heq⟩
      have hzero : e.turn = 0 := by
        cases e with
        | findStep forward => exact absurd ⟨forward, rfl⟩ hstep
        | _ => rfl
      rw [hzero, Int.add_zero]
      exact ⟨hframe.screen.trans h.screen_eq, hframe.findMatches.trans h.findMatches_eq,
        hframe.findLen.trans h.findLen_eq, hframe.findIndex.trans h.findIndex_eq⟩

theorem turns_append (nav nav' : List ViewEvent) :
    turns (nav ++ nav') = turns nav + turns nav' := by
  induction nav with
  | nil => exact (Int.zero_add _).symm
  | cons e nav ih => exact (congrArg (e.turn + ·) ih).trans (Int.add_assoc _ _ _).symm

theorem turns_singleton (e : ViewEvent) : turns [e] = e.turn := Int.add_zero _

theorem turns_replicate (k : Nat) : turns (List.replicate k (.findStep true)) = k := by
  induction k with
  | zero => rfl
  | succ k ih =>
    rw [List.replicate_succ', turns_append, ih, turns_singleton]
    rfl

theorem after_append (s : ScrollView) (f : CaseFold) (events more : List ViewEvent) :
    s.after f (events ++ more) = (s.after f events).after f more := List.foldl_append

theorem shows_walk {nav : List ViewEvent} (s : ScrollView)
    (hfound : found f query s.screen.toDisplay ≠ []) (hnav : ∀ e ∈ nav, e.Browses)
    (hlast : nav = [] ∨ ∃ start forward, nav = start ++ [.findStep forward]) {m : Nat × Nat}
    (hm : Chosen f query s.screen.toDisplay (turns nav) m) :
    (s.after f (.find query :: nav)).Shows m query.length := by
  obtain ⟨t, ht, hupdate⟩ := searching_findUpdate s hfound
  rcases hlast with rfl | ⟨start, forward, rfl⟩
  · change (s.findUpdate f query).Shows m query.length
    exact hupdate ▸ ht.shows hfound hm
  · have hstart : Searching f query s.screen (0 + turns start)
        (s.after f (.find query :: start)) := by
      refine searching_after ?_ hfound fun e he => hnav e (List.mem_append_left _ he)
      change Searching f query s.screen 0 (s.findUpdate f query)
      exact hupdate ▸ ht.findReveal _
    obtain ⟨u, hu, hstep⟩ := searching_findStep hstart hfound forward
    rw [Int.zero_add] at hu
    rw [turns_append, turns_singleton] at hm
    rw [← List.cons_append, after_append]
    change ((s.after f (.find query :: start)).findStep forward).Shows m query.length
    rw [hstep]
    exact hu.shows hfound hm

end ScrollView

-- One row of two letters, compared as they are.
def letterScreen : Screen where
  scrollback := []
  rows := 1
  cols := 2
  screen := [[{ ch := 0x61 }, { ch := 0x62 }]]
  screen_rows := rfl
  screen_cols := fun row hrow => by rw [List.mem_singleton.mp hrow]; rfl
  rows_pos := Nat.one_pos
  cols_pos := Nat.two_pos
  cellW := 8
  cellH := 16
  cellW_pos := Nat.succ_pos 7
  cellH_pos := Nat.succ_pos 15

def exactFold : CaseFold := ⟨id, fun _ _ _ _ h => h⟩

theorem letter_found : (1, 0) ∈ ScrollView.found exactFold [0x62] letterScreen.toDisplay :=
  (mem_findMatches_iff _).mpr
    ⟨List.cons_ne_nil _ _, [0x61, 0x62], rfl, [0x61], [0x62], [], rfl, rfl, rfl⟩

-- Whatever has happened, the rows in view and the cell under the mouse are in the buffer.
theorem view_inside (f : CaseFold) (screen : Screen) (events : List ViewEvent) (pos : Int × Int) :
    let s := ({ screen } : ScrollView).after f events
    s.topLine + s.screen.rows ≤ s.screen.totalLines ∧
      (s.cellForPos pos).x < s.screen.cols ∧
      s.topLine ≤ (s.cellForPos pos).y ∧ (s.cellForPos pos).y < s.topLine + s.screen.rows := by
  intro s
  have hoffset : 0 ≤ s.scrollOffset := ScrollView.offset_after (Int.le_refl 0) events
  refine ⟨ScrollView.topLine_add_rows_le hoffset, clampCell_lt _ _ s.screen.cols_pos,
    Nat.le_add_right _ _, ?_⟩
  exact Nat.add_lt_add_left (clampCell_lt _ _ s.screen.rows_pos) _

-- A button has been reported as pressed, and since then none as released.
def Held (log : List ViewOutput) : Prop :=
  ∃ a p b, log = a ++ .report p :: b ∧ p.kind = .press ∧
    ∀ q, .report q ∈ b → q.kind ≠ .release

-- The last motion since the last press was reported in this cell.
def MovedTo (log : List ViewOutput) (cell : Nat × Nat) : Prop :=
  ∃ a p b, log = a ++ .report p :: b ∧ p.kind = .motion ∧ p.cell = cell ∧
    ∀ q, .report q ∈ b → q.kind ≠ .press ∧ q.kind ≠ .motion

inductive Emits (s t : ScrollView) : List ViewOutput → Prop where
  | quiet {out} (hout : ∀ q, .report q ∈ out → q.kind = .wheel)
      (hbtn : t.mouseBtn.isSome → s.mouseBtn.isSome)
      (hcell : t.lastMouseCell = s.lastMouseCell) : Emits s t out
  | press {r : Report} (hkind : r.kind = .press) (hcell : t.lastMouseCell = none) :
      Emits s t [.report r]
  | motion {r : Report} (hkind : r.kind = .motion) (hnew : s.lastMouseCell ≠ some r.cell)
      (hcell : t.lastMouseCell = some r.cell) (hbtn : t.mouseBtn = s.mouseBtn) :
      Emits s t [.report r]
  | release {r : Report} (hkind : r.kind = .release) (hheld : s.mouseBtn.isSome)
      (hbtn : t.mouseBtn = none) (hcell : t.lastMouseCell = s.lastMouseCell) :
      Emits s t [.report r]

section Log

variable {log out : List ViewOutput} {r : Report} {cell : Nat × Nat}

theorem Held.append (h : Held log) (hout : ∀ q, .report q ∈ out → q.kind ≠ .release) :
    Held (log ++ out) := by
  obtain ⟨a, p, b, rfl, hkind, hnone⟩ := h
  refine ⟨a, p, b ++ out, by rw [List.append_assoc, List.cons_append], hkind, fun q hq => ?_⟩
  exact (List.mem_append.mp hq).elim (hnone q) (hout q)

theorem MovedTo.of_append (h : MovedTo (log ++ out) cell)
    (hout : ∀ q, .report q ∈ out → q.kind ≠ .motion) : MovedTo log cell := by
  obtain ⟨a, p, b, heq, hkind, hcell, hnone⟩ := h
  rcases List.append_eq_append_iff.mp heq with ⟨early, rfl, hearly⟩ | ⟨late, rfl, hlate⟩
  · exact absurd hkind (hout p (hearly ▸ by simp))
  · cases late with
    | nil => exact absurd hkind (hout p (by rw [← List.nil_append out, ← hlate]; simp))
    | cons q late =>
      obtain ⟨rfl, rfl⟩ := List.cons.inj hlate
      exact ⟨a, p, late, rfl, hkind, hcell, fun q hq => hnone q (List.mem_append_left _ hq)⟩

theorem MovedTo.last (h : MovedTo (log ++ [.report r]) cell) :
    r.kind = .motion ∧ r.cell = cell ∨ r.kind ≠ .press ∧ r.kind ≠ .motion := by
  obtain ⟨a, p, b, heq, hkind, hcell, hnone⟩ := h
  rcases List.eq_nil_or_concat b with rfl | ⟨b, o, rfl⟩
  · obtain ⟨-, hlast⟩ := List.append_inj' heq rfl
    obtain rfl := ViewOutput.report.inj (List.singleton_inj.mp hlast)
    exact .inl ⟨hkind, hcell⟩
  · rw [List.concat_eq_append, ← List.cons_append, ← List.append_assoc] at heq
    obtain ⟨-, hlast⟩ := List.append_inj' heq rfl
    exact .inr (hnone r (by rw [List.singleton_inj.mp hlast]; simp))

end Log

namespace ScrollView

variable {f : CaseFold} {s : ScrollView}

theorem emits_nil {t : ScrollView} (hbtn : t.mouseBtn = s.mouseBtn)
    (hcell : t.lastMouseCell = s.lastMouseCell) : Emits s t [] :=
  .quiet (fun _ hq => absurd hq List.not_mem_nil) (hbtn ▸ id) hcell

theorem emits_copySelection {t : ScrollView} (hbtn : t.mouseBtn = s.mouseBtn)
    (hcell : t.lastMouseCell = s.lastMouseCell) : Emits s t s.copySelection := by
  refine .quiet (fun q hq => ?_) (hbtn ▸ id) hcell
  rw [copySelection] at hq
  split at hq
  · exact absurd hq List.not_mem_nil
  · cases List.mem_singleton.mp hq

theorem emits_findReveal (s : ScrollView) (index : Int) :
    (s.findReveal index).mouseBtn = s.mouseBtn ∧
      (s.findReveal index).lastMouseCell = s.lastMouseCell := by
  rw [findReveal]
  split
  · exact ⟨rfl, rfl⟩
  · split
    · exact ⟨rfl, rfl⟩
    · exact ⟨rfl, rfl⟩

theorem emits_mousePressEvent (f : CaseFold) (s : ScrollView) (e : MouseEvent) (pastes : Bool) :
    Emits s (s.mousePressEvent f e pastes).1 (s.mousePressEvent f e pastes).2 := by
  rw [mousePressEvent]
  split
  · exact .quiet (fun q hq => by cases List.mem_singleton.mp hq) id rfl
  · split
    · next h =>
      rcases reportMouse_some h with ⟨hkind, -, -⟩ | ⟨r, hkind, -, -, heq⟩
      · cases hkind
      · obtain ⟨rfl, rfl⟩ := Prod.mk.inj heq
        exact .press hkind rfl
    · split
      · exact emits_nil rfl rfl
      · refine .quiet (fun q hq => by cases List.mem_singleton.mp hq) ?_ ?_
        · split
          · exact id
          · exact id
        · split
          · rfl
          · rfl
      · exact emits_nil rfl rfl

theorem emits_drag (s : ScrollView) (e : MouseEvent) : Emits s (s.drag e) [] := by
  rw [drag]
  split
  · exact emits_nil rfl rfl
  · exact emits_nil rfl rfl

theorem emits_mouseMoveEvent (s : ScrollView) (e : MouseEvent) :
    Emits s (s.mouseMoveEvent e).1 (s.mouseMoveEvent e).2 := by
  rw [mouseMoveEvent]
  split
  · split
    · next h =>
      rcases reportMouse_some h with ⟨-, -, rfl⟩ | ⟨r, hkind, -, hnew, rfl⟩
      · exact emits_nil rfl rfl
      · exact .motion hkind (hnew rfl) rfl rfl
    · exact emits_drag s e
  · exact emits_drag s e

theorem emits_mouseReleaseEvent (s : ScrollView) (e : MouseEvent) :
    Emits s (s.mouseReleaseEvent e).1 (s.mouseReleaseEvent e).2 := by
  rw [mouseReleaseEvent]
  split
  · next hheld =>
    rw [Bool.and_eq_true] at hheld
    split
    · next h =>
      rcases reportMouse_some h with ⟨hkind, -, -⟩ | ⟨r, hkind, -, -, heq⟩
      · cases hkind
      · obtain ⟨rfl, rfl⟩ := Prod.mk.inj heq
        exact .release hkind hheld.1 rfl rfl
    · exact .quiet (fun _ hq => absurd hq List.not_mem_nil) (fun h => nomatch h) rfl
  · split
    · split
      · exact emits_copySelection rfl rfl
      · exact emits_nil rfl rfl
    · exact emits_nil rfl rfl

theorem emits_wheelEvent (s : ScrollView) (delta : Int) (e : MouseEvent) :
    Emits s (s.wheelEvent delta e).1 (s.wheelEvent delta e).2 := by
  unfold wheelEvent
  dsimp only
  split
  · exact emits_nil rfl rfl
  · split
    · refine .quiet (fun q hq => ?_) id rfl
      obtain rfl := ViewOutput.report.inj (List.eq_of_mem_replicate hq)
      rfl
    · exact emits_nil rfl rfl

theorem emits_step (f : CaseFold) (s : ScrollView) (e : ViewEvent) :
    Emits s (s.step f e).1 (s.step f e).2 := by
  cases e with
  | wheel delta e => exact emits_wheelEvent s delta e
  | press e pastes => exact emits_mousePressEvent f s e pastes
  | move e => exact emits_mouseMoveEvent s e
  | release e => exact emits_mouseReleaseEvent s e
  | find query =>
    rw [step, findUpdate]
    dsimp only
    split
    · exact emits_nil rfl rfl
    · exact emits_nil (emits_findReveal _ _).1 (emits_findReveal _ _).2
  | findStep forward =>
    rw [step, findStep]
    dsimp only
    split
    · exact emits_nil rfl rfl
    · exact emits_nil (emits_findReveal _ _).1 (emits_findReveal _ _).2
  | _ => exact emits_nil rfl rfl

end ScrollView

-- What the log of the reports allows to come next.
def Reportable (log : List ViewOutput) (o : ViewOutput) : Prop :=
  ∀ r, o = .report r → (r.kind = .release → Held log) ∧ (r.kind = .motion → ¬MovedTo log r.cell)

structure Tracks (s : ScrollView) (log : List ViewOutput) : Prop where
  held : s.mouseBtn.isSome → Held log
  moved : ∀ cell, MovedTo log cell → s.lastMouseCell = some cell

theorem reportable_singleton {log before rest : List ViewOutput} {r : Report} {o : ViewOutput}
    (h : [.report r] = before ++ o :: rest)
    (hrelease : r.kind = .release → Held log) (hmotion : r.kind = .motion → ¬MovedTo log r.cell) :
    Reportable (log ++ before) o := by
  obtain ⟨rfl, rfl, -⟩ : before = [] ∧ o = .report r ∧ rest = [] := by
    cases before with
    | nil => exact ⟨rfl, (List.cons.inj h).1.symm, (List.cons.inj h).2.symm⟩
    | cons p before => simp at h
  rintro q hq
  obtain rfl := ViewOutput.report.inj hq
  rw [List.append_nil]
  exact ⟨hrelease, hmotion⟩

theorem tracks_emits {s t : ScrollView} {log out : List ViewOutput} (h : Tracks s log)
    (hemits : Emits s t out) :
    Tracks t (log ++ out) ∧
      ∀ before o rest, out = before ++ o :: rest → Reportable (log ++ before) o := by
  cases hemits with
  | quiet hout hbtn hcell =>
    have hne (q : Report) (hq : .report q ∈ out) (kind : ReportKind) (hkind : kind ≠ .wheel) :
        q.kind ≠ kind := fun heq => hkind (heq ▸ hout q hq)
    refine ⟨⟨fun hsome => (h.held (hbtn hsome)).append fun q hq => hne q hq _ (by decide), ?_⟩, ?_⟩
    · exact fun cell hmoved => hcell.trans
        (h.moved cell (hmoved.of_append fun q hq => hne q hq _ (by decide)))
    · rintro before o rest rfl r rfl
      have hmem : ViewOutput.report r ∈ before ++ .report r :: rest := by simp
      exact ⟨fun hkind => absurd hkind (hne r hmem _ (by decide)),
        fun hkind => absurd hkind (hne r hmem _ (by decide))⟩
  | @press r hkind hcell =>
    refine ⟨⟨fun _ => ⟨log, r, [], rfl, hkind, fun _ hq => absurd hq List.not_mem_nil⟩, ?_⟩, ?_⟩
    · intro cell hmoved
      rcases hmoved.last with ⟨hmotion, -⟩ | ⟨hpress, -⟩
      · rw [hkind] at hmotion
        cases hmotion
      · exact absurd hkind hpress
    · intro before o rest hsplit
      refine reportable_singleton hsplit (fun hrelease => ?_) fun hmotion => ?_
      · rw [hkind] at hrelease
        cases hrelease
      · rw [hkind] at hmotion
        cases hmotion
  | @motion r hkind hnew hcell hbtn =>
    refine ⟨⟨fun hsome => (h.held (hbtn ▸ hsome)).append fun q hq => ?_, ?_⟩, ?_⟩
    · rw [ViewOutput.report.inj (List.mem_singleton.mp hq), hkind]
      decide
    · intro cell hmoved
      rcases hmoved.last with ⟨-, rfl⟩ | ⟨-, hmotion⟩
      · exact hcell
      · exact absurd hkind hmotion
    · intro before o rest hsplit
      refine reportable_singleton hsplit (fun hrelease => ?_) fun _ hmoved => ?_
      · rw [hkind] at hrelease
        cases hrelease
      · exact hnew (h.moved r.cell hmoved)
  | @release r hkind hheld hbtn hcell =>
    refine ⟨⟨fun hsome => ?_, fun cell hmoved => hcell.trans (h.moved cell ?_)⟩, ?_⟩
    · rw [hbtn] at hsome
      cases hsome
    · refine hmoved.of_append fun q hq => ?_
      rw [ViewOutput.report.inj (List.mem_singleton.mp hq), hkind]
      decide
    · intro before o rest hsplit
      refine reportable_singleton hsplit (fun _ => h.held hheld) fun hmotion => ?_
      rw [hkind] at hmotion
      cases hmotion

def leftClick : MouseEvent where
  button := .left
  pos := (9, 3)
  position := (9, 3)
  shift := false
  alt := false
  control := false

end Ui
