import MacXterm.Term.VtEngine

namespace Term

open Wrap

namespace VtEngine

def rowsBeforeCap (e : VtEngine) : Event → List (Row Cell)
  | .push cells => e.scrollback.rows ++ [pushedRow cells]
  | .resize cols =>
      if 0 < cols ∧ cols ≠ e.cols then rewrap cols e.scrollback.rows else e.scrollback.rows

def UnderCap (e : VtEngine) : List Event → Prop
  | [] => True
  | event :: events =>
      (e.rowsBeforeCap event).length ≤ e.scrollbackMax ∧ UnderCap (e.step event) events

def pushedRows : List Event → List (Row Cell)
  | [] => []
  | .push cells :: events => pushedRow cells :: pushedRows events
  | .resize _ :: events => pushedRows events

def pushedLines (events : List Event) : List (List Cell) :=
  (Joined.join isBlank .empty (pushedRows events)).lines isBlank

def colsAfter (cols : Int) : Int := if 0 < cols then cols else 1

-- continues: the last pushed row is flagged; rewrapped: the width changed after that push
def NeverCut (cols : Int) (continues rewrapped : Bool) : List Event → Prop
  | [] => True
  | .push cells :: events =>
      ¬(continues = true ∧ rewrapped = true) ∧
        NeverCut cols (pushedRow cells).wrapped false events
  | .resize cols' :: events =>
      NeverCut (colsAfter cols') continues (rewrapped || decide (0 < cols' ∧ cols' ≠ cols))
        events

theorem run_cons (e : VtEngine) (event : Event) (events : List Event) :
    e.run (event :: events) = (e.step event).run events := rfl

theorem rewrap_nil (newCols : Int) : rewrap newCols [] = [] := rfl

theorem rows_step (e : VtEngine) (event : Event)
    (h : (e.rowsBeforeCap event).length ≤ e.scrollbackMax) :
    (e.step event).scrollback.rows = e.rowsBeforeCap event := by
  cases event with
  | push cells =>
    simp only [step, sbPushline, rowsBeforeCap] at h ⊢
    rw [Scrollback.cap_of_le (by simpa using h), Scrollback.rows_pushBack]
  | resize cols =>
    simp only [step, resize, reflowScrollback, rowsBeforeCap] at h ⊢
    by_cases hne : cols = e.cols
    · simp [hne]
    · by_cases hpos : 0 < cols
      · have hle : ¬cols ≤ 0 := by omega
        simp only [hne, hpos, hle, ne_eq, not_false_eq_true, and_self, if_true, decide_false,
          Bool.false_or] at h ⊢
        cases hl : e.scrollback.lines with
        | nil =>
          have hrows : e.scrollback.rows = [] := by
            rw [← List.length_eq_zero_iff, Scrollback.length_rows, hl]
            rfl
          simp [hrows, rewrap_nil]
        | cons line lines =>
          simp only [List.isEmpty_cons, Bool.false_eq_true, if_false]
          rw [Scrollback.cap_of_le (by simpa using h), Scrollback.rows_ofRows]
      · simp [hne, hpos, show cols ≤ 0 by omega]

theorem joined_step (e : VtEngine) (event : Event)
    (h : (e.rowsBeforeCap event).length ≤ e.scrollbackMax) :
    Joined.join isBlank .empty (e.step event).scrollback.rows =
      match event with
      | .push cells =>
          (Joined.join isBlank .empty e.scrollback.rows).feed isBlank (pushedRow cells)
      | .resize cols =>
          if 0 < cols ∧ cols ≠ e.cols then
            (Joined.join isBlank .empty e.scrollback.rows).settle isBlank
          else Joined.join isBlank .empty e.scrollback.rows := by
  rw [rows_step e event h]
  cases event with
  | push cells => exact Joined.join_concat isBlank .empty e.scrollback.rows (pushedRow cells)
  | resize cols =>
    by_cases hc : 0 < cols ∧ cols ≠ e.cols
    · simp only [rowsBeforeCap, if_pos hc]
      exact join_rewrap e.scrollback.rows hc.1
    · simp only [rowsBeforeCap, if_neg hc]

-- Once a row has lost its continuation, the history keeps at least one line too many.
theorem run_lines_lt (events : List Event) (e : VtEngine) (s : Joined Cell)
    (hcap : e.UnderCap events)
    (hlt : (s.lines isBlank).length < e.logicalLines.length)
    (hopen : s.pending = [] →
      (Joined.join isBlank .empty e.scrollback.rows).pending = []) :
    ((Joined.join isBlank s (pushedRows events)).lines isBlank).length <
      (e.run events).logicalLines.length := by
  induction events generalizing e s with
  | nil => exact hlt
  | cons event events ih =>
    have hjoin := joined_step e event hcap.1
    rw [run_cons]
    cases event with
    | push cells =>
      have hrow := pushedRow_wrapped cells
      refine ih _ _ hcap.2 ?_ ?_
      · rw [logicalLines, hjoin, Joined.length_lines_feed isBlank _ hrow,
          Joined.length_lines_feed isBlank _ hrow]
        by_cases hs : s.pending = []
        · rw [if_pos hs, if_pos (hopen hs)]
          exact Nat.succ_lt_succ hlt
        · rw [if_neg hs]
          exact Nat.lt_of_lt_of_le hlt (Nat.le_add_right _ _)
      · rw [hjoin, Joined.pending_feed_nil_iff isBlank _ hrow,
          Joined.pending_feed_nil_iff isBlank _ hrow]
        exact id
    | resize cols =>
      refine ih _ s hcap.2 ?_ ?_
      · rw [logicalLines, hjoin]
        by_cases hc : 0 < cols ∧ cols ≠ e.cols
        · simp only [if_pos hc, Joined.lines_settle]
          exact hlt
        · simp only [if_neg hc]
          exact hlt
      · rw [hjoin]
        by_cases hc : 0 < cols ∧ cols ≠ e.cols
        · simp only [if_pos hc, Joined.pending_settle, implies_true]
        · simp only [if_neg hc]
          exact hopen

-- A push that goes on after a reflow has closed the open line makes one line too many.
theorem run_lines_cut (cells : List VTermScreenCell) (events : List Event) (e : VtEngine)
    (s : Joined Cell) (hcap : e.UnderCap (.push cells :: events)) (hpending : s.pending ≠ [])
    (hjoined : Joined.join isBlank .empty e.scrollback.rows = s.settle isBlank) :
    ((e.step (.push cells)).run events).logicalLines ≠
      (Joined.join isBlank s (pushedRows (.push cells :: events))).lines isBlank := by
  have hjoin := joined_step e (.push cells) hcap.1
  have hrow := pushedRow_wrapped cells
  have hlt := run_lines_lt events (e.step (.push cells)) (s.feed isBlank (pushedRow cells))
    hcap.2 (by
      rw [logicalLines, hjoin, hjoined, Joined.length_lines_feed isBlank s hrow,
        Joined.length_lines_feed isBlank _ hrow]
      simp [hpending]) (by
      rw [hjoin, Joined.pending_feed_nil_iff isBlank _ hrow,
        Joined.pending_feed_nil_iff isBlank _ hrow]
      exact id)
  intro heq
  rw [heq] at hlt
  exact absurd hlt (Nat.lt_irrefl _)

theorem run_lines_iff (events : List Event) (e : VtEngine) (s : Joined Cell)
    (continues rewrapped : Bool) (hcap : e.UnderCap events)
    (hcontinues : continues = false ↔ s.pending = [])
    (hjoined : Joined.join isBlank .empty e.scrollback.rows =
      if rewrapped then s.settle isBlank else s) :
    (e.run events).logicalLines = (Joined.join isBlank s (pushedRows events)).lines isBlank ↔
      NeverCut e.cols continues rewrapped events := by
  induction events generalizing e s continues rewrapped with
  | nil =>
    have hlines : e.logicalLines = s.lines isBlank := by
      rw [logicalLines, hjoined]
      cases rewrapped with
      | true => exact Joined.lines_settle isBlank s
      | false => rfl
    simpa [run, NeverCut, pushedRows] using hlines
  | cons event events ih =>
    have hjoin := joined_step e event hcap.1
    rw [run_cons]
    cases event with
    | push cells =>
      have hrow := pushedRow_wrapped cells
      have hfeed : (pushedRow cells).wrapped = false ↔
          (s.feed isBlank (pushedRow cells)).pending = [] :=
        (Joined.pending_feed_nil_iff isBlank s hrow).symm
      by_cases hcut : continues = true ∧ rewrapped = true
      · obtain ⟨rfl, rfl⟩ := hcut
        have hpending : s.pending ≠ [] := fun hnil => absurd (hcontinues.mpr hnil) (by decide)
        exact iff_of_false (run_lines_cut cells events e s hcap hpending hjoined)
          fun hnever => hnever.1 ⟨rfl, rfl⟩
      · have hsame : (if rewrapped then s.settle isBlank else s) = s := by
          cases rewrapped with
          | false => rfl
          | true =>
            have hclosed : continues = false := by simpa using hcut
            exact Joined.settle_of_pending_nil isBlank (hcontinues.mp hclosed)
        rw [hsame] at hjoined
        have h := ih (e.step (.push cells)) (s.feed isBlank (pushedRow cells))
          (pushedRow cells).wrapped false hcap.2 hfeed (by rw [hjoin, hjoined]; rfl)
        simp only [NeverCut, hcut, not_false_eq_true, true_and]
        exact h
    | resize cols =>
      refine ih (e.step (.resize cols)) s continues _ hcap.2 hcontinues ?_
      rw [hjoin, hjoined]
      by_cases hc : 0 < cols ∧ cols ≠ e.cols
      · cases rewrapped with
        | true => simp [hc, Joined.settle_settle]
        | false => simp [hc]
      · cases rewrapped with
        | true => simp [hc]
        | false => simp [hc]

theorem reflow_preserves_iff (cols : Int) (scrollbackMax : Nat) (events : List Event)
    (hcap : VtEngine.UnderCap { cols, scrollbackMax } events) :
    (VtEngine.run { cols, scrollbackMax } events).logicalLines = pushedLines events ↔
      NeverCut cols false false events := by
  refine run_lines_iff events { cols, scrollbackMax } .empty false false hcap ?_ rfl
  exact iff_of_true rfl rfl

theorem reflow_preserves_between_lines :
    let events : List Event :=
      [.push [{ ch := 0x61 }, { ch := 0x62 }], .push [{ ch := 0x63 }, {}], .resize 3,
        .push [{ ch := 0x64 }, {}, {}]]
    (VtEngine.run { cols := 2, scrollbackMax := 100 } events).logicalLines =
      pushedLines events := by
  intro events
  exact (reflow_preserves_iff 2 100 events
    ⟨by decide, by decide, by decide, by decide, trivial⟩).mpr
      ⟨by decide, by decide, by decide, trivial⟩

theorem reflow_cuts_continuation :
    let events : List Event :=
      [.push [{ ch := 0x61 }, { ch := 0x62 }], .resize 3, .push [{ ch := 0x63 }, {}, {}]]
    VtEngine.UnderCap { cols := 2, scrollbackMax := 100 } events ∧
      (VtEngine.run { cols := 2, scrollbackMax := 100 } events).logicalLines ≠
        pushedLines events :=
  ⟨⟨by decide, by decide, by decide, trivial⟩, by decide⟩

end VtEngine

end Term
