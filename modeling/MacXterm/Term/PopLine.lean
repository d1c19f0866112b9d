import MacXterm.Term.VtEngine

namespace Term

namespace Scrollback

def popBack (s : Scrollback) : Scrollback :=
  ⟨s.lines.dropLast, s.wrapped.dropLast, by simp [s.length_eq]⟩

end Scrollback

-- What of a cell of the caller's buffer is set from the line; the rest of it stays.
def fromLine (line : List Cell) (c : Nat) (cell : VTermScreenCell) : VTermScreenCell :=
  { cell with
    ch := if h : c < line.length then (line)[c].ch else 0
    width := if h : c < line.length then (if (line)[c].wide then 2 else 1) else 1 }

namespace VtEngine

def sbPopline (e : VtEngine) (cells : List VTermScreenCell) :
    Option (VtEngine × List VTermScreenCell) :=
  match e.scrollback.lines.getLast? with
  | none => none
  | some line =>
      some ({ e with scrollback := e.scrollback.popBack }, cells.mapIdx (fromLine line))

end VtEngine

-- The cell survives being stored, and what is not stored stands in the buffer already.
def Restored (pushed buffer : VTermScreenCell) : Prop :=
  (pushed.ch ≠ 0 ∧ pushed.ch ≠ 0xFFFFFFFF) ∧ (pushed.width = 1 ∨ pushed.width = 2) ∧
    buffer.bold = pushed.bold ∧ buffer.reverse = pushed.reverse ∧ buffer.fg = pushed.fg ∧
    buffer.bg = pushed.bg

section Pop

variable {cells buffer : List VTermScreenCell}

theorem getLast_sbPushline (e : VtEngine) (cells : List VTermScreenCell)
    (hmax : 0 < e.scrollbackMax) :
    (e.sbPushline cells).scrollback.lines.getLast? = some (cells.map toCell) := by
  have hlt : e.scrollback.lines.length + 1 - e.scrollbackMax ≤ e.scrollback.lines.length := by
    omega
  simp only [VtEngine.sbPushline, Scrollback.cap, Scrollback.pushBack, List.length_append,
    List.length_singleton]
  rw [List.drop_append_of_le_length hlt, List.getLast?_concat]
  rfl

theorem ch_toCell_eq_iff (c : VTermScreenCell) :
    (toCell c).ch = c.ch ↔ c.ch ≠ 0 ∧ c.ch ≠ 0xFFFFFFFF := by
  rw [toCell]
  dsimp only
  split
  · next h => exact iff_of_true rfl h
  · next h =>
    refine iff_of_false (fun heq => h ?_) h
    rw [← heq]
    decide

theorem width_toCell_eq_iff (c : VTermScreenCell) :
    (if (toCell c).wide then 2 else 1) = c.width ↔ c.width = 1 ∨ c.width = 2 := by
  rw [toCell]
  dsimp only
  split
  · next h => exact iff_of_true (beq_iff_eq.mp h).symm (.inr (beq_iff_eq.mp h))
  · next h =>
    have hne : c.width ≠ 2 := fun heq => h (beq_iff_eq.mpr heq)
    omega

theorem fromLine_eq_iff {i : Nat} {pushed cell : VTermScreenCell} (h : cells[i]? = some pushed) :
    fromLine (cells.map toCell) i cell = pushed ↔ Restored pushed cell := by
  obtain ⟨hi, hget⟩ := List.getElem?_eq_some_iff.mp h
  have hline : i < (cells.map toCell).length := by rwa [List.length_map]
  have hcell : (cells.map toCell)[i] = toCell pushed := by rw [List.getElem_map, hget]
  rw [fromLine, dif_pos hline, dif_pos hline, hcell, VTermScreenCell.mk.injEq, ch_toCell_eq_iff,
    width_toCell_eq_iff]
  rfl

theorem mapIdx_fromLine_eq_iff (hlen : buffer.length = cells.length) :
    buffer.mapIdx (fromLine (cells.map toCell)) = cells ↔
      ∀ (i : Nat) c b, cells[i]? = some c → buffer[i]? = some b → Restored c b := by
  rw [List.ext_getElem?_iff]
  refine forall_congr' fun i => ?_
  rw [List.getElem?_mapIdx]
  by_cases hi : i < cells.length
  · have hc := List.getElem?_eq_getElem hi
    have hb := List.getElem?_eq_getElem (hlen ▸ hi : i < buffer.length)
    rw [hc, hb, Option.map_some, Option.some.injEq, fromLine_eq_iff hc]
    constructor
    · rintro h c b hc hb
      cases hc
      cases hb
      exact h
    · intro h
      exact h _ _ rfl rfl
  · rw [List.getElem?_eq_none (by omega), List.getElem?_eq_none (by omega)]
    exact iff_of_true rfl fun c b hc => absurd hc nofun

end Pop

theorem pop_restores_iff (e : VtEngine) (cells buffer : List VTermScreenCell)
    (hmax : 0 < e.scrollbackMax) (hlen : buffer.length = cells.length) :
    (∃ e', (e.sbPushline cells).sbPopline buffer = some (e', cells)) ↔
      ∀ (i : Nat) c b, cells[i]? = some c → buffer[i]? = some b → Restored c b := by
  rw [← mapIdx_fromLine_eq_iff hlen, VtEngine.sbPopline, getLast_sbPushline e cells hmax]
  constructor
  · rintro ⟨e', heq⟩
    exact (Prod.ext_iff.mp (Option.some.inj heq)).2
  · intro heq
    dsimp only
    rw [heq]
    exact ⟨_, rfl⟩

theorem pop_restores_iff_plain :
    (∃ e', (VtEngine.sbPushline { cols := 1 } [{ ch := 0x61 }]).sbPopline [{}] =
        some (e', [{ ch := 0x61 }])) ↔
      ∀ (i : Nat) c b, [({ ch := 0x61 } : VTermScreenCell)][i]? = some c →
        [({} : VTermScreenCell)][i]? = some b → Restored c b :=
  pop_restores_iff { cols := 1 } [{ ch := 0x61 }] [{}] (by decide) rfl

theorem bold_lost :
    ¬ ∀ (e : VtEngine) (cells buffer : List VTermScreenCell), 0 < e.scrollbackMax →
      buffer.length = cells.length →
      ∃ e', (e.sbPushline cells).sbPopline buffer = some (e', cells) := by
  intro h
  obtain ⟨e', he⟩ := h { cols := 1 } [{ ch := 0x61, bold := true }] [{}] (by decide) rfl
  have hbold : [false] = [true] :=
    congrArg (List.map VTermScreenCell.bold) (Prod.ext_iff.mp (Option.some.inj he)).2
  exact absurd hbold (by decide)

end Term
