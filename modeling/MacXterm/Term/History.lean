import MacXterm.Lib.Paragraphs
import MacXterm.Term.VtEngine

namespace Term

open Wrap

-- m_scrollback and m_sbWrapped as two lists, which every operation updates on its own.
structure History where
  scrollback : List (List Cell) := []
  sbWrapped : List Bool := []
  scrollbackMax : Nat := 10000
deriving DecidableEq

namespace History

-- while (scrollback.size() > max) removeFirst() on both
def trim (max : Nat) : List (List Cell) → List Bool → List (List Cell) × List Bool
  | [], wrapped => ([], wrapped)
  | line :: lines, wrapped =>
      if max < lines.length + 1 then trim max lines wrapped.tail else (line :: lines, wrapped)

def trimmed (h : History) : History :=
  let r := trim h.scrollbackMax h.scrollback h.sbWrapped
  { h with scrollback := r.1, sbWrapped := r.2 }

def sbPushline (h : History) (cells : List VTermScreenCell) : History :=
  let row := pushedRow cells
  trimmed { h with
    scrollback := h.scrollback ++ [row.cells], sbWrapped := h.sbWrapped ++ [row.wrapped] }

def sbPopline (h : History) : History :=
  if h.scrollback.isEmpty then h
  else { h with scrollback := h.scrollback.dropLast, sbWrapped := h.sbWrapped.dropLast }

def rejoinLoop (sbWrapped : List Bool) (i : Nat) (s : List (List Cell) × List Cell) :
    List (List Cell) → List (List Cell)
  | [] => if s.2.isEmpty then s.1 else s.1 ++ [s.2]
  | line :: lines =>
      let wrapped := decide (i < sbWrapped.length) && sbWrapped.getD i false
      let cur := s.2 ++ if wrapped then line else line.rdropWhile isBlank
      rejoinLoop sbWrapped (i + 1) (if wrapped then (s.1, cur) else (s.1 ++ [cur], [])) lines

def reflowScrollback (h : History) (newCols : Int) : History :=
  if newCols ≤ 0 || h.scrollback.isEmpty then h
  else
    let logical := rejoinLoop h.sbWrapped 0 ([], []) h.scrollback
    let out := logical.flatMap (wrapAt newCols.toNat)
    trimmed { h with scrollback := out.map Row.cells, sbWrapped := out.map Row.wrapped }

def clearScrollback (h : History) : History := { h with scrollback := [], sbWrapped := [] }

def setScrollbackMax (h : History) (lines : Int) : History :=
  trimmed { h with scrollbackMax := if lines < 0 then 0 else lines.toNat }

inductive Op where
  | pushline (cells : List VTermScreenCell)
  | popline
  | reflow (newCols : Int)
  | clear
  | setMax (lines : Int)

def step (h : History) : Op → History
  | .pushline cells => h.sbPushline cells
  | .popline => h.sbPopline
  | .reflow newCols => h.reflowScrollback newCols
  | .clear => h.clearScrollback
  | .setMax lines => h.setScrollbackMax lines

def run (h : History) (ops : List Op) : History := ops.foldl step h

def rows (h : History) : List (Row Cell) := h.scrollback.zipWith Row.mk h.sbWrapped

structure Aligned (h : History) : Prop where
  length_eq : h.sbWrapped.length = h.scrollback.length
  le_max : h.scrollback.length ≤ h.scrollbackMax

-- All lines there have been, for want of room none dropped; the last `kept` are those retained.
def Op.record (kept : Nat) (seen : List (Row Cell)) : Op → List (Row Cell)
  | .pushline cells => seen ++ [pushedRow cells]
  | .popline => if kept = 0 then seen else seen.dropLast
  | .reflow newCols =>
      if 0 < newCols then seen.rdrop kept ++ rewrap newCols (seen.rtake kept) else seen
  | .clear => seen.rdrop kept
  | .setMax _ => seen

def recordFrom (h : History) (seen : List (Row Cell)) : List Op → List (Row Cell)
  | [] => seen
  | op :: ops => recordFrom (h.step op) (op.record h.scrollback.length seen) ops

section Trim

theorem trim_eq (max : Nat) (lines : List (List Cell)) (wrapped : List Bool) :
    trim max lines wrapped =
      (lines.drop (lines.length - max), wrapped.drop (lines.length - max)) := by
  induction lines generalizing wrapped with
  | nil => rw [trim, List.length_nil, Nat.zero_sub, List.drop_zero, List.drop_zero]
  | cons line lines ih =>
    rw [trim]
    split
    · next h =>
      have hsub : (line :: lines).length - max = lines.length - max + 1 := by
        rw [List.length_cons]
        omega
      rw [ih, hsub, List.drop_succ_cons, List.drop_tail, Nat.add_comm]
    · next h =>
      have hsub : (line :: lines).length - max = 0 := by
        rw [List.length_cons]
        omega
      rw [hsub, List.drop_zero, List.drop_zero]

variable {h : History}

theorem length_rows (hlen : h.sbWrapped.length = h.scrollback.length) :
    h.rows.length = h.scrollback.length := by
  rw [rows, List.length_zipWith, hlen, Nat.min_self]

theorem rows_trimmed (hlen : h.sbWrapped.length = h.scrollback.length) :
    h.trimmed.rows = h.rows.rtake h.scrollbackMax := by
  rw [List.rtake, length_rows hlen]
  simp only [trimmed, trim_eq, rows, List.drop_zipWith]

theorem aligned_trimmed (hlen : h.sbWrapped.length = h.scrollback.length) :
    h.trimmed.Aligned where
  length_eq := by simp only [trimmed, trim_eq, List.length_drop, hlen]
  le_max := by
    simp only [trimmed, trim_eq, List.length_drop]
    omega

theorem trimmed_of_le (hmax : h.scrollback.length ≤ h.scrollbackMax) : h.trimmed = h := by
  simp only [trimmed, trim_eq, Nat.sub_eq_zero_of_le hmax, List.drop_zero]

end Trim

theorem rejoinLoop_eq (flags : List Bool) (s : List (List Cell) × List Cell)
    (lines : List (List Cell)) (rest : List Bool) (hlen : rest.length = lines.length) :
    rejoinLoop (flags ++ rest) flags.length s lines =
      s.1 ++ paragraphs isBlank s.2 (lines.zipWith Row.mk rest) := by
  induction lines generalizing flags s rest with
  | nil =>
    obtain ⟨logical, cur⟩ := s
    cases cur with
    | nil => exact (List.append_nil logical).symm
    | cons c cs => rfl
  | cons line lines ih =>
    cases rest with
    | nil => exact absurd hlen (Nat.zero_ne_add_one _)
    | cons wrapped rest =>
      have hrest : rest.length = lines.length := Nat.succ.inj hlen
      have hget : (flags ++ wrapped :: rest).getD flags.length false = wrapped := by
        rw [List.getD_eq_getElem?_getD, List.getElem?_append_right (Nat.le_refl _), Nat.sub_self,
          List.getElem?_cons_zero, Option.getD_some]
      have hlt : flags.length < (flags ++ wrapped :: rest).length := by
        rw [List.length_append, List.length_cons]
        omega
      have happ : flags ++ wrapped :: rest = (flags ++ [wrapped]) ++ rest := by simp
      have hnext := fun s => ih (flags ++ [wrapped]) s rest hrest
      rw [List.length_append, List.length_singleton, ← happ] at hnext
      rw [rejoinLoop, hget, decide_eq_true hlt, Bool.true_and, List.zipWith_cons_cons]
      cases wrapped with
      | true =>
        rw [paragraphs_wrapped isBlank _ _ rfl]
        exact hnext _
      | false =>
        rw [paragraphs_hard isBlank _ _ rfl]
        exact (hnext _).trans (List.append_assoc ..)

theorem rejoin_eq (rows : List (Row Cell)) : rejoin rows = paragraphs isBlank [] rows := by
  suffices h : ∀ s : List (List Cell) × List Cell,
      (if (rows.foldl rejoinStep s).2.isEmpty then (rows.foldl rejoinStep s).1
        else (rows.foldl rejoinStep s).1 ++ [(rows.foldl rejoinStep s).2]) =
        s.1 ++ paragraphs isBlank s.2 rows from h ([], [])
  induction rows with
  | nil =>
    intro s
    obtain ⟨logical, cur⟩ := s
    cases cur with
    | nil => exact (List.append_nil logical).symm
    | cons c cs => rfl
  | cons row rows ih =>
    intro s
    rw [List.foldl_cons, ih, rejoinStep]
    cases hw : row.wrapped with
    | true => rw [paragraphs_wrapped isBlank _ _ hw]
    | false =>
      rw [paragraphs_hard isBlank _ _ hw]
      exact List.append_assoc ..

theorem rows_sbPushline {h : History} (hlen : h.sbWrapped.length = h.scrollback.length)
    (cells : List VTermScreenCell) :
    (h.sbPushline cells).rows = (h.rows ++ [pushedRow cells]).rtake h.scrollbackMax := by
  rw [sbPushline, rows_trimmed (by simp [hlen]), rows, List.zipWith_append hlen.symm]
  rfl

theorem aligned_sbPushline {h : History} (hlen : h.sbWrapped.length = h.scrollback.length)
    (cells : List VTermScreenCell) : (h.sbPushline cells).Aligned :=
  aligned_trimmed (by simp [hlen])

theorem reflowScrollback_eq {h : History} (hlen : h.sbWrapped.length = h.scrollback.length)
    {newCols : Int} (hpos : 0 < newCols) :
    h.reflowScrollback newCols =
      trimmed { h with
        scrollback := (rewrap newCols h.rows).map Row.cells
        sbWrapped := (rewrap newCols h.rows).map Row.wrapped } := by
  have hlogical : rejoinLoop h.sbWrapped 0 ([], []) h.scrollback = rejoin h.rows := by
    rw [rejoin_eq]
    exact rejoinLoop_eq [] ([], []) h.scrollback h.sbWrapped hlen
  rw [reflowScrollback, decide_eq_false (by omega), Bool.false_or]
  cases hlines : h.scrollback with
  | nil =>
    have hflags : h.sbWrapped = [] := List.length_eq_zero_iff.mp (by rw [hlen, hlines]; rfl)
    have hrows : h.rows = [] := by rw [rows, hlines]; rfl
    rw [hrows]
    obtain ⟨lines, flags, max⟩ := h
    subst hlines hflags
    rfl
  | cons line lines =>
    rw [List.isEmpty_cons, if_neg Bool.false_ne_true, ← hlines, hlogical]
    rfl

theorem rows_map (rows : List (Row Cell)) :
    (rows.map Row.cells).zipWith Row.mk (rows.map Row.wrapped) = rows :=
  Scrollback.rows_ofRows rows

theorem rows_reflowScrollback {h : History} (hlen : h.sbWrapped.length = h.scrollback.length)
    {newCols : Int} (hpos : 0 < newCols) :
    (h.reflowScrollback newCols).rows = (rewrap newCols h.rows).rtake h.scrollbackMax := by
  rw [reflowScrollback_eq hlen hpos, rows_trimmed (by simp), rows, rows_map]

theorem rtake_suffix {α : Type} (xs : List α) (n : Nat) : xs.rtake n <:+ xs :=
  List.drop_suffix ..

theorem rtake_of_suffix {α : Type} {xs ys : List α} (h : xs <:+ ys) : ys.rtake xs.length = xs :=
  (List.suffix_iff_eq_drop.mp h).symm

theorem dropLast_suffix_dropLast {α : Type} {xs ys : List α} (hne : xs ≠ []) (h : xs <:+ ys) :
    xs.dropLast <:+ ys.dropLast := by
  obtain ⟨front, rfl⟩ := h
  rw [List.dropLast_append_of_ne_nil hne]
  exact List.suffix_append ..

theorem aligned_step {h : History} (ha : h.Aligned) (op : Op) : (h.step op).Aligned := by
  obtain ⟨hlen, hmax⟩ := ha
  cases op with
  | pushline cells => exact aligned_sbPushline hlen cells
  | popline =>
    rw [step, sbPopline]
    split
    · exact ⟨hlen, hmax⟩
    · refine ⟨?_, ?_⟩
      · rw [List.length_dropLast, List.length_dropLast, hlen]
      · rw [List.length_dropLast]
        exact Nat.le_trans (Nat.sub_le ..) hmax
  | reflow newCols =>
    by_cases hpos : 0 < newCols
    · rw [step, reflowScrollback_eq hlen hpos]
      exact aligned_trimmed (by simp)
    · rw [step, reflowScrollback, decide_eq_true (by omega), Bool.true_or, if_pos rfl]
      exact ⟨hlen, hmax⟩
  | clear => exact ⟨rfl, Nat.zero_le _⟩
  | setMax lines => exact aligned_trimmed hlen

theorem rows_sbPopline {h : History} (hlen : h.sbWrapped.length = h.scrollback.length) :
    h.sbPopline.rows = h.rows.dropLast := by
  rw [sbPopline]
  split
  · next hnil =>
    rw [rows, List.isEmpty_iff.mp hnil]
    rfl
  · rw [h.rows.dropLast_eq_take, length_rows hlen, rows, rows, List.take_zipWith,
      List.dropLast_eq_take, List.dropLast_eq_take, hlen]

theorem rows_setScrollbackMax {h : History} (hlen : h.sbWrapped.length = h.scrollback.length)
    (lines : Int) :
    (h.setScrollbackMax lines).rows = h.rows.rtake (if lines < 0 then 0 else lines.toNat) :=
  rows_trimmed (h := { h with scrollbackMax := if lines < 0 then 0 else lines.toNat }) hlen

theorem rtake_of_le {α : Type} {xs : List α} {n : Nat} (h : xs.length ≤ n) : xs.rtake n = xs := by
  rw [List.rtake, Nat.sub_eq_zero_of_le h, List.drop_zero]

theorem max_step (h : History) (op : Op) :
    (h.step op).scrollbackMax = match op with
      | .setMax lines => if lines < 0 then 0 else lines.toNat
      | _ => h.scrollbackMax := by
  cases op with
  | pushline cells => rfl
  | popline =>
    rw [step, sbPopline]
    split <;> rfl
  | reflow newCols =>
    rw [step, reflowScrollback]
    split <;> rfl
  | clear => rfl
  | setMax lines => rfl

-- After every operation, the last lines of what it makes of those retained.
theorem rows_step {h : History} (ha : h.Aligned) (op : Op) :
    (h.step op).rows =
      (op.record h.scrollback.length h.rows).rtake (h.step op).scrollbackMax := by
  obtain ⟨hlen, hle⟩ := ha
  have hrows : h.rows.length ≤ h.scrollbackMax := (length_rows hlen).trans_le hle
  rw [max_step, ← length_rows hlen]
  cases op with
  | pushline cells => exact rows_sbPushline hlen cells
  | popline =>
    rw [step, rows_sbPopline hlen, Op.record, rtake_of_le]
    · split
      · next hnil => rw [List.length_eq_zero_iff.mp hnil, List.dropLast_nil]
      · rfl
    · split
      · exact hrows
      · rw [List.length_dropLast]
        exact Nat.le_trans (Nat.sub_le ..) hrows
  | reflow newCols =>
    rw [step, Op.record]
    by_cases hpos : 0 < newCols
    · rw [if_pos hpos, rows_reflowScrollback hlen hpos, rtake_of_suffix List.suffix_rfl,
        List.rdrop, Nat.sub_self, List.take_zero, List.nil_append]
    · rw [if_neg hpos, reflowScrollback, decide_eq_true (by omega), Bool.true_or, if_pos rfl,
        rtake_of_le hrows]
  | clear =>
    rw [Op.record, List.rdrop, Nat.sub_self, List.take_zero, List.rtake_nil]
    rfl
  | setMax lines => exact rows_setScrollbackMax hlen lines

theorem record_suffix {rows seen : List (Row Cell)} (h : rows <:+ seen) (op : Op) :
    op.record rows.length rows <:+ op.record rows.length seen := by
  cases op with
  | pushline cells =>
    obtain ⟨front, rfl⟩ := h
    exact ⟨front, (List.append_assoc ..).symm⟩
  | popline =>
    rw [Op.record, Op.record]
    split
    · exact h
    · next hne => exact dropLast_suffix_dropLast (fun hnil => hne (hnil ▸ rfl)) h
  | reflow newCols =>
    rw [Op.record, Op.record]
    split
    · rw [rtake_of_suffix h, rtake_of_suffix List.suffix_rfl, List.rdrop, Nat.sub_self,
        List.take_zero, List.nil_append]
      exact List.suffix_append ..
    · exact h
  | clear =>
    rw [Op.record, List.rdrop, Nat.sub_self, List.take_zero]
    exact List.nil_suffix
  | setMax lines => exact h

theorem rows_suffix_step {h : History} {seen : List (Row Cell)} (ha : h.Aligned)
    (hsuffix : h.rows <:+ seen) (op : Op) :
    (h.step op).rows <:+ op.record h.scrollback.length seen := by
  rw [rows_step ha op, ← length_rows ha.length_eq]
  exact (rtake_suffix ..).trans (record_suffix hsuffix op)

theorem run_cons (h : History) (op : Op) (ops : List Op) :
    h.run (op :: ops) = (h.step op).run ops := rfl

theorem run_recorded (ops : List Op) {h : History} {seen : List (Row Cell)} (ha : h.Aligned)
    (hsuffix : h.rows <:+ seen) :
    (h.run ops).Aligned ∧ (h.run ops).rows <:+ recordFrom h seen ops := by
  induction ops generalizing h seen with
  | nil => exact ⟨ha, hsuffix⟩
  | cons op ops ih => exact ih (aligned_step ha op) (rows_suffix_step ha hsuffix op)

section Engine

-- The engine whose history keeps its two lists equally long by construction.
def engine (h : History) (hlen : h.sbWrapped.length = h.scrollback.length) (cols : Int) :
    VtEngine where
  cols := cols
  scrollback := ⟨h.scrollback, h.sbWrapped, hlen⟩
  scrollbackMax := h.scrollbackMax

variable {h : History} (hlen : h.sbWrapped.length = h.scrollback.length) (cols : Int)

theorem engine_trimmed :
    h.trimmed.engine (aligned_trimmed hlen).length_eq cols =
      { h.engine hlen cols with
        scrollback := (h.engine hlen cols).scrollback.cap h.scrollbackMax } := by
  simp only [engine, trimmed, trim_eq, Scrollback.cap]

theorem engine_sbPushline (cells : List VTermScreenCell) :
    (h.sbPushline cells).engine (aligned_sbPushline hlen cells).length_eq cols =
      (h.engine hlen cols).sbPushline cells :=
  engine_trimmed (by simp [hlen]) cols

theorem engine_reflowScrollback (ha : h.Aligned) {newCols : Int} (hpos : 0 < newCols) :
    (h.reflowScrollback newCols).engine (aligned_step ha (.reflow newCols)).length_eq cols =
      (h.engine ha.length_eq cols).reflowScrollback newCols := by
  rw [VtEngine.reflowScrollback, decide_eq_false (by omega), Bool.false_or]
  split
  · next hnil =>
    simp only [engine, reflowScrollback] at hnil ⊢
    simp only [hnil, Bool.or_true, if_true]
  · simp only [reflowScrollback_eq ha.length_eq hpos]
    exact engine_trimmed (by simp) cols

end Engine

section Canonical

def Op.Keeps : Op → Prop
  | .popline => False
  | _ => True

def SoftEnds (h : History) : Prop := AllTight isBlank h.rows

theorem pushedRow_tight (cells : List VTermScreenCell) (hw : (pushedRow cells).wrapped = true) :
    (pushedRow cells).cells ≠ [] ∧ Tight isBlank (pushedRow cells).cells := by
  refine ⟨pushedRow_wrapped cells hw, ?_⟩
  rw [pushedRow] at hw ⊢
  generalize cells.map toCell = line at hw ⊢
  induction line using List.reverseRecOn with
  | nil => exact tight_nil
  | append_singleton xs x _ =>
    rw [tight_concat]
    simp only [List.getLast?_concat, Bool.and_eq_true, bne_iff_ne] at hw
    simpa [isBlank] using hw

theorem allTight_rewrap {rows : List (Row Cell)} {n : Int} (hn : 0 < n)
    (h : AllTight isBlank rows) : rejoin (rewrap n rows) = rejoin rows := by
  rw [rewrap, rejoin_eq, rejoin_eq]
  exact paragraphs_flatMap_wrapAt (by omega) h

theorem softEnds_step {h : History} (ha : h.Aligned) (hs : h.SoftEnds) {op : Op}
    (hop : op.Keeps) : (h.step op).SoftEnds := by
  obtain ⟨hlen, -⟩ := ha
  cases op with
  | pushline cells =>
    rw [SoftEnds, step, rows_sbPushline hlen]
    exact AllTight.drop (tight_paragraphs_concat h.rows (pushedRow_tight cells) hs) _
  | popline => exact hop.elim
  | reflow newCols =>
    by_cases hpos : 0 < newCols
    · rw [SoftEnds, step, rows_reflowScrollback hlen hpos]
      refine AllTight.drop (fun line hline => ?_) _
      rw [← rejoin_eq, allTight_rewrap hpos hs, rejoin_eq] at hline
      exact hs line hline
    · rw [step, reflowScrollback, decide_eq_true (by omega), Bool.true_or, if_pos rfl]
      exact hs
  | clear => exact fun line hline => absurd hline List.not_mem_nil
  | setMax lines =>
    rw [SoftEnds, step, rows_setScrollbackMax hlen]
    exact AllTight.drop hs _

theorem run_softEnds (ops : List Op) {h : History} (ha : h.Aligned) (hs : h.SoftEnds)
    (hops : ∀ op ∈ ops, op.Keeps) : (h.run ops).SoftEnds := by
  induction ops generalizing h with
  | nil => exact hs
  | cons op ops ih =>
    exact ih (aligned_step ha op) (softEnds_step ha hs (hops op List.mem_cons_self))
      fun op hop => hops op (List.mem_cons_of_mem _ hop)

theorem reflow_reflow {h : History} (ha : h.Aligned) (hs : h.SoftEnds) {m n : Int} (hm : 0 < m)
    (hn : 0 < n) (hcap : (rewrap m h.rows).length ≤ h.scrollbackMax) :
    (h.reflowScrollback m).reflowScrollback n = h.reflowScrollback n := by
  have hrows : (h.reflowScrollback m).rows = rewrap m h.rows := by
    rw [rows_reflowScrollback ha.length_eq hm, rtake_of_le hcap]
  have hmax : (h.reflowScrollback m).scrollbackMax = h.scrollbackMax := max_step h (.reflow m)
  have hlen : (h.reflowScrollback m).sbWrapped.length = (h.reflowScrollback m).scrollback.length :=
    (aligned_step ha (.reflow m)).length_eq
  have hsame : rewrap n (rewrap m h.rows) = rewrap n h.rows := by
    rw [rewrap, allTight_rewrap hm hs, rewrap]
  rw [reflowScrollback_eq hlen hn, reflowScrollback_eq ha.length_eq hn, hrows, hsame, trimmed,
    trimmed]
  simp only [hmax]

end Canonical

theorem history_canonical (ops : List Op) :
    (run {} ops).Aligned ∧
      (run {} ops).rows <:+ recordFrom {} [] ops ∧
      (∀ op, ((run {} ops).step op).rows =
        (op.record (run {} ops).scrollback.length (run {} ops).rows).rtake
          ((run {} ops).step op).scrollbackMax) ∧
      ((∀ op ∈ ops, op.Keeps) → ∀ m n : Int, 0 < m → 0 < n →
        (rewrap m (run {} ops).rows).length ≤ (run {} ops).scrollbackMax →
        ((run {} ops).reflowScrollback m).reflowScrollback n =
          (run {} ops).reflowScrollback n) := by
  have hstart : Aligned {} := ⟨rfl, Nat.zero_le _⟩
  obtain ⟨ha, hrecord⟩ := run_recorded ops hstart List.nil_suffix
  have hempty : SoftEnds {} := fun line hline => absurd hline List.not_mem_nil
  refine ⟨ha, hrecord, rows_step ha, ?_⟩
  intro hops m n hm hn hcap
  exact reflow_reflow ha (run_softEnds ops hstart hempty hops) hm hn hcap

theorem history_canonical_pushed :
    let ops : List Op := [.pushline [{ ch := 0x61 }, {}, { ch := 0x62 }], .pushline [{ ch := 0x63 }]]
    ((run {} ops).reflowScrollback 2).reflowScrollback 1 = (run {} ops).reflowScrollback 1 :=
  (history_canonical [.pushline [{ ch := 0x61 }, {}, { ch := 0x62 }],
    .pushline [{ ch := 0x63 }]]).2.2.2 (by simp [Op.Keeps]) 2 1 (by decide) (by decide) (by decide)

end History

end Term
