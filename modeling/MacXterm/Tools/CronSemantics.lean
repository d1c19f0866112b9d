import Mathlib.Order.Interval.Set.Basic
import MacXterm.Tools.CronItems

namespace Tools.Cron

open Qt Checked

structure Field where
  text : QString
  lo : Int
  hi : Int
  low : 0 ≤ lo
  high : hi < 64

namespace Field

def minutes (text : QString) : Field := ⟨text, 0, 59, by decide, by decide⟩

def hours (text : QString) : Field := ⟨text, 0, 23, by decide, by decide⟩

def days (text : QString) : Field := ⟨text, 1, 31, by decide, by decide⟩

def months (text : QString) : Field := ⟨text, 1, 12, by decide, by decide⟩

def weekdays (text : QString) : Field := ⟨text, 0, 7, by decide, by decide⟩

def parts (f : Field) : List QString := splitSkip ',' f.text

def WellFormed (f : Field) : Prop :=
  f.parts ≠ [] ∧ ∀ part ∈ f.parts, ∃ s, Item f.lo f.hi part s

def set (f : Field) : Set Int := {v | ∃ part ∈ f.parts, ∃ s, Item f.lo f.hi part s ∧ v ∈ s.values}

def Fine (f : Field) (part : QString) : Prop :=
  ¬ Signed part ∧ ∃ s, Item f.lo f.hi part s ∧ ¬ s.Overflows

def Over (f : Field) (part : QString) : Prop :=
  ¬ Signed part ∧ ∃ s, Item f.lo f.hi part s ∧ s.Overflows

def AllFine (f : Field) : Prop := f.parts ≠ [] ∧ ∀ part ∈ f.parts, f.Fine part

-- An item that goes past int, with all items before it read.
def Overflows (f : Field) : Prop := First f.Fine f.Over f.parts

variable {f : Field} {part : QString} {s : Span}

theorem item_bounds (h : Item f.lo f.hi part s) :
    0 ≤ s.a ∧ f.lo ≤ s.a ∧ s.a ≤ s.b ∧ s.b ≤ f.hi ∧ s.b < 64 ∧ 1 ≤ s.step := by
  have hlow := f.low
  have hhigh := f.high
  cases h with
  | plain _ hlo hab hhi => exact ⟨hlow.trans hlo, hlo, hab, hhi, hhi.trans_lt hhigh, Int.le_refl 1⟩
  | stepped _ hlo hab hhi _ hstep =>
    exact ⟨hlow.trans hlo, hlo, hab, hhi, hhi.trans_lt hhigh, hstep⟩

theorem mem_values_bounds (h : Item f.lo f.hi part s) {v : Int} (hv : v ∈ s.values) :
    f.lo ≤ v ∧ v ≤ f.hi := by
  obtain ⟨-, hlo, -, hhi, -, hstep⟩ := item_bounds h
  obtain ⟨k, hk, hb⟩ := hv
  have hnonneg : 0 ≤ (k : Int) * s.step := by positivity
  omega

theorem set_bounds {v : Int} (hv : v ∈ f.set) : f.lo ≤ v ∧ v ≤ f.hi := by
  obtain ⟨part, -, s, hs, hv⟩ := hv
  exact mem_values_bounds hs hv

theorem item_unique {t : Span} (hspace : NoSpace part) (hsigned : ¬ Signed part)
    (hs : Item f.lo f.hi part s) (ht : Item f.lo f.hi part t) : s = t := by
  have hread := parsePart_of_item hspace hs hsigned
  rw [parsePart_of_item hspace ht hsigned] at hread
  exact (Except.ok.inj hread).symm

theorem addPart_fine (hspace : NoSpace part) (h : f.Fine part) (mask : BitVec 64) :
    ∃ m, addPart f.lo f.hi mask part = .ok m ∧ ∀ i < 64, (m.getLsbD i = true ↔
      mask.getLsbD i = true ∨ ∃ s, Item f.lo f.hi part s ∧ (i : Int) ∈ s.values) := by
  obtain ⟨hsigned, s, hs, hno⟩ := h
  obtain ⟨ha, -, hab, -, hb, hstep⟩ := item_bounds hs
  have hturns : s.b - s.a < ((s.b - s.a).toNat + 1 : Nat) := by
    push_cast
    omega
  obtain ⟨m, hm, hbits⟩ := setEvery_ok hb hstep ha hturns hno mask
  refine ⟨m, ?_, fun i hi => ?_⟩
  · simp only [addPart, parsePart_of_item hspace hs hsigned, bind, Except.bind, hm]
  · rw [hbits i hi]
    refine or_congr Iff.rfl ⟨fun hv => ⟨s, hs, hv⟩, ?_⟩
    rintro ⟨t, ht, hv⟩
    rwa [item_unique hspace hsigned hs ht]

theorem addPart_over (hspace : NoSpace part) (h : f.Over part) (mask : BitVec 64) :
    addPart f.lo f.hi mask part = .error .overflow := by
  obtain ⟨hsigned, s, hs, hover⟩ := h
  obtain ⟨ha, -, hab, -, hb, hstep⟩ := item_bounds hs
  have hturns : s.b - s.a < ((s.b - s.a).toNat + 1 : Nat) := by
    push_cast
    omega
  have hrun := setEvery_overflow hstep ha hturns hover mask
  simp only [addPart, parsePart_of_item hspace hs hsigned, bind, Except.bind, hrun]

theorem addPart_fail (hfine : ¬ f.Fine part) (hover : ¬ f.Over part) (mask : BitVec 64) :
    addPart f.lo f.hi mask part = .error .malformed := by
  rcases parsePart_cases f.lo f.hi part with ⟨s, hs⟩ | hs
  · obtain ⟨hitem, hsigned⟩ := item_of_parsePart hs
    by_cases hno : s.Overflows
    · exact absurd ⟨hsigned, s, hitem, hno⟩ hover
    · exact absurd ⟨hsigned, s, hitem, hno⟩ hfine
  · simp only [addPart, hs, bind, Except.bind]

theorem foldlM_fine {parts : List QString} (hspace : ∀ part ∈ parts, NoSpace part)
    (h : ∀ part ∈ parts, f.Fine part) (mask : BitVec 64) :
    ∃ m, parts.foldlM (addPart f.lo f.hi) mask = .ok m ∧ ∀ i < 64, (m.getLsbD i = true ↔
      mask.getLsbD i = true ∨ ∃ part ∈ parts, ∃ s, Item f.lo f.hi part s ∧ (i : Int) ∈ s.values) := by
  induction parts generalizing mask with
  | nil => exact ⟨mask, rfl, fun i _ => by simp⟩
  | cons part parts ih =>
    obtain ⟨hpart, hparts⟩ := List.forall_mem_cons.mp h
    obtain ⟨hs, hss⟩ := List.forall_mem_cons.mp hspace
    obtain ⟨m, hm, hbits⟩ := addPart_fine hs hpart mask
    obtain ⟨m', hm', hbits'⟩ := ih hss hparts m
    refine ⟨m', ?_, fun i hi => ?_⟩
    · rw [List.foldlM_cons, hm]
      exact hm'
    · rw [hbits' i hi, hbits i hi, or_assoc, List.exists_mem_cons_iff]

theorem noSpace_parts (hspace : NoSpace f.text) : ∀ part ∈ f.parts, NoSpace part := by
  intro part hpart c hc
  exact hspace c ((mem_splitOn (List.mem_filter.mp hpart).1).2 hc)

theorem parseField_fine (hspace : NoSpace f.text) (h : f.AllFine) :
    ∃ m, parseField f.text f.lo f.hi = .ok m ∧ Mask.Denotes m f.set := by
  obtain ⟨m, hm, hbits⟩ := foldlM_fine (noSpace_parts hspace) h.2 0#64
  refine ⟨m, ?_, fun i hi => ?_, fun v hv => ?_⟩
  · have hne : ¬ splitSkip ',' f.text = [] := h.1
    rw [parseField, if_neg hne]
    exact hm
  · rw [hbits i hi, BitVec.getLsbD_zero]
    simp [set]
  · have hbounds := set_bounds hv
    have hlow := f.low
    have hhigh := f.high
    push_cast
    omega

theorem parseField_overflow (hspace : NoSpace f.text) (h : f.Overflows) :
    parseField f.text f.lo f.hi = .error .overflow := by
  have hne : ¬ splitSkip ',' f.text = [] := by
    intro hnil
    rw [Overflows, parts, hnil] at h
    exact not_first_nil h
  rw [parseField, if_neg hne]
  refine foldlM_first ?_ ?_ h 0#64
  · intro mask part hpart hfine
    obtain ⟨m, hm, -⟩ := addPart_fine (noSpace_parts hspace part hpart) hfine mask
    exact ⟨m, hm⟩
  · intro mask part hpart hover
    exact addPart_over (noSpace_parts hspace part hpart) hover mask

theorem parseField_fail (hspace : NoSpace f.text) (hfine : ¬ f.AllFine) (hover : ¬ f.Overflows) :
    parseField f.text f.lo f.hi = .error .malformed := by
  by_cases hnil : splitSkip ',' f.text = []
  · rw [parseField, if_pos hnil]
  · rw [parseField, if_neg hnil]
    refine foldlM_fail ?_ ?_ (fun h => hfine ⟨hnil, h⟩) hover 0#64
    · intro mask part hpart hfine
      obtain ⟨m, hm, -⟩ := addPart_fine (noSpace_parts hspace part hpart) hfine mask
      exact ⟨m, hm⟩
    · intro mask part _ hfine hover
      exact addPart_fail hfine hover mask

-- An unsigned field that is well formed is read or goes past int.
theorem fine_or_overflows (h : f.WellFormed) (hsigned : ∀ part ∈ f.parts, ¬ Signed part) :
    f.AllFine ∨ f.Overflows := by
  have heach : ∀ part ∈ f.parts, f.Fine part ∨ f.Over part := by
    intro part hpart
    obtain ⟨s, hs⟩ := h.2 part hpart
    by_cases hno : s.Overflows
    · exact .inr ⟨hsigned part hpart, s, hs, hno⟩
    · exact .inl ⟨hsigned part hpart, s, hs, hno⟩
  rcases all_or_first heach with hall | hfirst
  · exact .inl ⟨h.1, hall⟩
  · exact .inr hfirst

theorem AllFine.wellFormed (h : f.AllFine) : f.WellFormed := by
  refine ⟨h.1, fun part hpart => ?_⟩
  obtain ⟨-, s, hs, -⟩ := h.2 part hpart
  exact ⟨s, hs⟩

end Field

def fields (expr : QString) : Option (List Field) :=
  match words expr with
  | [f0, f1, f2, f3, f4] => some [.minutes f0, .hours f1, .days f2, .months f3, .weekdays f4]
  | _ => none

def WellFormed (expr : QString) : Prop :=
  ∃ fs, fields expr = some fs ∧ ∀ f ∈ fs, f.WellFormed

def HasSigned (expr : QString) : Prop :=
  ∃ fs, fields expr = some fs ∧ ∃ f ∈ fs, ∃ part ∈ f.parts, Signed part

-- Some field goes past int, with all fields before it read.
def Overflows (expr : QString) : Prop :=
  ∃ fs, fields expr = some fs ∧ First Field.AllFine Field.Overflows fs

def sundayFolded (weekdays : Set Int) : Set Int :=
  {d | 0 ≤ d ∧ d ≤ 6 ∧ (d ∈ weekdays ∨ d = 0 ∧ 7 ∈ weekdays)}

def DayRule (days weekdays : Set Int) (day weekday : Int) : Prop :=
  (days ≠ Set.Icc 1 31 ∧ weekdays ≠ Set.Icc 0 6 → day ∈ days ∨ weekday ∈ weekdays) ∧
    (¬ (days ≠ Set.Icc 1 31 ∧ weekdays ≠ Set.Icc 0 6) → day ∈ days ∧ weekday ∈ weekdays)

def Due (expr : QString) (when : DateTime) : Prop :=
  ∃ f0 f1 f2 f3 f4, words expr = [f0, f1, f2, f3, f4] ∧
    (when.minute : Int) ∈ (Field.minutes f0).set ∧ (when.hour : Int) ∈ (Field.hours f1).set ∧
    (when.month : Int) ∈ (Field.months f3).set ∧
    DayRule (Field.days f2).set (sundayFolded (Field.weekdays f4).set) when.day
      (when.dayOfWeek % 7 : Nat)

structure Meets (expr : QString) (c : CronExpr) : Prop where
  accepted : c.valid = true ↔ WellFormed expr
  due : c.valid = true → ∀ when, c.matches when = true ↔ Due expr when

section Masks

theorem fullMask_denotes {lo hi : Nat} (h : hi < 64) :
    Mask.Denotes (fullMask lo hi) (Set.Icc lo hi) := by
  have hfold (n : Nat) (m : BitVec 64) {i : Nat} (hi : i < 64) :
      ((List.range n).foldl (fun m k => m ||| 1#64 <<< (lo + k)) m).getLsbD i = true ↔
        m.getLsbD i = true ∨ lo ≤ i ∧ i < lo + n := by
    induction n with
    | zero => simp
    | succ n ih =>
      rw [List.range_succ, List.foldl_append, List.foldl_cons, List.foldl_nil,
        Mask.getLsbD_add _ hi, Bool.or_eq_true, ih, decide_eq_true_eq, or_assoc]
      refine or_congr Iff.rfl ?_
      omega
  refine ⟨fun i hi => ?_, fun v hv => ?_⟩
  · rw [fullMask, hfold _ _ hi, BitVec.getLsbD_zero]
    simp only [Bool.false_eq_true, false_or, Set.mem_Icc]
    omega
  · rw [Set.mem_Icc] at hv
    push_cast
    omega

theorem foldSunday_denotes {d : BitVec 64} {S : Set Int} (h : Mask.Denotes d S) :
    Mask.Denotes (CronExpr.foldSunday d) (sundayFolded S) := by
  refine ⟨fun i hi => ?_, fun v hv => ?_⟩
  · have hmask : (0x7F#64).getLsbD i = true ↔ i ≤ 6 := by
      have hfull : (0x7F#64) = fullMask 0 6 := by decide
      rw [hfull, (fullMask_denotes (by decide)).bits i hi, Set.mem_Icc]
      omega
    have hone : (1#64 : BitVec 64) = 1#64 <<< 0 := by decide
    have hseven := h.test (k := 7) (by decide)
    have hset : (i : Int) ∈ sundayFolded S ↔ i ≤ 6 ∧ ((i : Int) ∈ S ∨ i = 0 ∧ (7 : Int) ∈ S) := by
      constructor
      · rintro ⟨-, hle, hor⟩
        exact ⟨by omega, hor.imp id fun hsun => ⟨by omega, hsun.2⟩⟩
      · rintro ⟨hle, hor⟩
        exact ⟨by omega, by omega, hor.imp id fun hsun => ⟨by omega, hsun.2⟩⟩
    rw [hset, CronExpr.foldSunday, BitVec.getLsbD_and, Bool.and_eq_true, hmask, and_comm]
    refine and_congr Iff.rfl ?_
    by_cases hday : d &&& 1#64 <<< 7 ≠ 0#64
    · rw [if_pos hday, hone, Mask.getLsbD_add _ hi, Bool.or_eq_true, decide_eq_true_eq, h.bits i hi]
      exact or_congr Iff.rfl ⟨fun hi => ⟨hi, hseven.mp hday⟩, And.left⟩
    · rw [if_neg hday, h.bits i hi]
      exact ⟨.inl, fun hor => hor.elim id fun hsun => absurd (hseven.mpr hsun.2) hday⟩
  · obtain ⟨h0, h6, -⟩ := hv
    push_cast
    omega

end Masks

section Expression

variable {expr : QString}

theorem fields_eq_some {fs : List Field} : fields expr = some fs ↔
    ∃ f0 f1 f2 f3 f4, words expr = [f0, f1, f2, f3, f4] ∧
      fs = [.minutes f0, .hours f1, .days f2, .months f3, .weekdays f4] := by
  constructor
  · intro h
    unfold fields at h
    split at h
    · rename_i f0 f1 f2 f3 f4 hwords
      exact ⟨f0, f1, f2, f3, f4, hwords, (Option.some.inj h).symm⟩
    · cases h
  · rintro ⟨f0, f1, f2, f3, f4, hwords, rfl⟩
    simp only [fields, hwords]

theorem parse_words {f0 f1 f2 f3 f4 : QString} (hwords : words expr = [f0, f1, f2, f3, f4]) :
    CronExpr.parse expr = (do
      let m ← parseField f0 0 59
      let h ← parseField f1 0 23
      let dom ← parseField f2 1 31
      let mon ← parseField f3 1 12
      let d ← parseField f4 0 7
      pure ⟨true, m, h.setWidth 32, dom.setWidth 32, mon.setWidth 16,
        (CronExpr.foldSunday d).setWidth 8⟩) := by
  simp only [CronExpr.parse, splitSkip_simplified, hwords]

theorem parse_not_five (h : fields expr = none) : CronExpr.parse expr = .error .malformed := by
  unfold fields at h
  split at h
  · cases h
  · rename_i hwords
    unfold CronExpr.parse
    rw [splitSkip_simplified]
    split
    · rename_i f0 f1 f2 f3 f4 heq
      exact absurd heq (hwords f0 f1 f2 f3 f4)
    · rfl

theorem noSpace_words {w : QString} (hw : w ∈ words expr) : NoSpace w := (mem_words hw).2

def readAll (fs : List Field) : Except Stop (List (BitVec 64)) :=
  fs.foldlM (fun ms f => do
    let m ← parseField f.text f.lo f.hi
    pure (m :: ms)) []

def build : List (BitVec 64) → Except Stop CronExpr
  | [d, mon, dom, h, m] =>
      pure ⟨true, m, h.setWidth 32, dom.setWidth 32, mon.setWidth 16,
        (CronExpr.foldSunday d).setWidth 8⟩
  | _ => .error .malformed

theorem parse_fields {fs : List Field} (h : fields expr = some fs) :
    CronExpr.parse expr = readAll fs >>= build := by
  obtain ⟨f0, f1, f2, f3, f4, hwords, rfl⟩ := fields_eq_some.mp h
  rw [parse_words hwords]
  simp only [readAll, List.foldlM_cons, List.foldlM_nil, bind_assoc, pure_bind, build]
  rfl

theorem noSpace_fields {fs : List Field} (h : fields expr = some fs) :
    ∀ f ∈ fs, NoSpace f.text := by
  obtain ⟨f0, f1, f2, f3, f4, hwords, rfl⟩ := fields_eq_some.mp h
  have hall : ∀ w ∈ [f0, f1, f2, f3, f4], NoSpace w := by
    rw [← hwords]
    exact fun w hw => noSpace_words hw
  simpa [Field.minutes, Field.hours, Field.days, Field.months, Field.weekdays] using hall

theorem readField_fine {f : Field} (hspace : NoSpace f.text) (h : f.AllFine)
    (ms : List (BitVec 64)) : ∃ ns, (do
      let m ← parseField f.text f.lo f.hi
      pure (m :: ms) : Except Stop (List (BitVec 64))) = .ok ns := by
  obtain ⟨m, hm, -⟩ := f.parseField_fine hspace h
  rw [hm]
  exact ⟨m :: ms, rfl⟩

theorem parse_overflow {fs : List Field} (h : fields expr = some fs)
    (hover : First Field.AllFine Field.Overflows fs) : CronExpr.parse expr = .error .overflow := by
  have hspace := noSpace_fields h
  have hread : readAll fs = .error .overflow := by
    refine foldlM_first (fun ms f hf hfine => readField_fine (hspace f hf) hfine ms) ?_ hover []
    intro ms f hf hover
    rw [f.parseField_overflow (hspace f hf) hover]
    rfl
  rw [parse_fields h, hread]
  rfl

theorem parse_fail {fs : List Field} (h : fields expr = some fs)
    (hfine : ¬ ∀ f ∈ fs, f.AllFine) (hover : ¬ First Field.AllFine Field.Overflows fs) :
    CronExpr.parse expr = .error .malformed := by
  have hspace := noSpace_fields h
  have hread : readAll fs = .error .malformed := by
    refine foldlM_fail (fun ms f hf hfine => readField_fine (hspace f hf) hfine ms) ?_ hfine
      hover []
    intro ms f hf hfine hover
    rw [f.parseField_fail (hspace f hf) hfine hover]
    rfl
  rw [parse_fields h, hread]
  rfl

theorem matches_iff {c : CronExpr} (hvalid : c.valid = true) {days weekdays : Set Int}
    (hdom : Mask.Denotes c.dom days) (hdow : Mask.Denotes c.dow weekdays) (when : DateTime) :
    c.matches when = true ↔ c.min &&& 1#64 <<< when.minute ≠ 0#64 ∧
      c.hour &&& 1#32 <<< when.hour ≠ 0#32 ∧ c.month &&& 1#16 <<< when.month ≠ 0#16 ∧
      DayRule days weekdays when.day (when.dayOfWeek % 7 : Nat) := by
  have hday := when.day_le
  have hweekday := Nat.mod_lt when.dayOfWeek (by decide : 7 > 0)
  have hdomMatch := hdom.test (k := when.day) (by omega)
  have hdowMatch := hdow.test (k := when.dayOfWeek % 7) (by omega)
  have hdomFull : c.dom.setWidth 64 = fullMask 1 31 ↔ days = Set.Icc 1 31 :=
    (hdom.widen (by decide)).eq_iff (fullMask_denotes (by decide))
  have hdowFull : c.dow = 0x7F#8 ↔ weekdays = Set.Icc 0 6 := by
    have hfull : (0x7F#8) = (fullMask 0 6).setWidth 8 := by decide
    rw [hfull]
    refine hdow.eq_iff ((fullMask_denotes (by decide)).setWidth (by decide) fun v hv => ?_)
    rw [Set.mem_Icc] at hv
    push_cast
    omega
  simp only [CronExpr.matches, hvalid, Bool.not_true, Bool.false_eq_true, if_false]
  by_cases hmin : c.min &&& 1#64 <<< when.minute = 0#64
  · simp [hmin]
  by_cases hhour : c.hour &&& 1#32 <<< when.hour = 0#32
  · simp [hmin, hhour]
  by_cases hmonth : c.month &&& 1#16 <<< when.month = 0#16
  · simp [hmin, hhour, hmonth]
  rw [if_neg hmin, if_neg hhour, if_neg hmonth]
  simp only [hmin, hhour, hmonth, ne_eq, not_false_eq_true, true_and, DayRule, hdomFull, hdowFull,
    ← hdomMatch, ← hdowMatch]
  by_cases hrestricted : ¬ days = Set.Icc 1 31 ∧ ¬ weekdays = Set.Icc 0 6
  · simp [hrestricted]
  · simp [hrestricted]

theorem due_words {f0 f1 f2 f3 f4 : QString} (hwords : words expr = [f0, f1, f2, f3, f4])
    (when : DateTime) : Due expr when ↔
      (when.minute : Int) ∈ (Field.minutes f0).set ∧ (when.hour : Int) ∈ (Field.hours f1).set ∧
        (when.month : Int) ∈ (Field.months f3).set ∧
        DayRule (Field.days f2).set (sundayFolded (Field.weekdays f4).set) when.day
          (when.dayOfWeek % 7 : Nat) := by
  constructor
  · rintro ⟨g0, g1, g2, g3, g4, hwords', h⟩
    rw [hwords] at hwords'
    obtain ⟨rfl, rfl, rfl, rfl, rfl⟩ : f0 = g0 ∧ f1 = g1 ∧ f2 = g2 ∧ f3 = g3 ∧ f4 = g4 := by
      simpa using hwords'
    exact h
  · exact fun h => ⟨f0, f1, f2, f3, f4, hwords, h⟩

theorem set_lt {f : Field} {u : Nat} (h : f.hi < u) : ∀ v ∈ f.set, v < u := by
  intro v hv
  have hbounds := Field.set_bounds hv
  omega

theorem parse_fine {fs : List Field} (h : fields expr = some fs) (hfine : ∀ f ∈ fs, f.AllFine) :
    ∃ c, CronExpr.parse expr = .ok c ∧ c.valid = true ∧
      ∀ when, c.matches when = true ↔ Due expr when := by
  have hspace := noSpace_fields h
  obtain ⟨f0, f1, f2, f3, f4, hwords, rfl⟩ := fields_eq_some.mp h
  have hread (f : Field) (hf : f ∈ [Field.minutes f0, .hours f1, .days f2, .months f3,
      .weekdays f4]) := f.parseField_fine (hspace f hf) (hfine f hf)
  obtain ⟨m, hm, hmin⟩ := hread (.minutes f0) (by simp)
  obtain ⟨h, hh, hhour⟩ := hread (.hours f1) (by simp)
  obtain ⟨dom, hd, hdom⟩ := hread (.days f2) (by simp)
  obtain ⟨mon, hn, hmon⟩ := hread (.months f3) (by simp)
  obtain ⟨d, hw, hdow⟩ := hread (.weekdays f4) (by simp)
  have hparse : CronExpr.parse expr = .ok ⟨true, m, h.setWidth 32, dom.setWidth 32,
      mon.setWidth 16, (CronExpr.foldSunday d).setWidth 8⟩ := by
    rw [parse_words hwords]
    simp only [Field.minutes, Field.hours, Field.days, Field.months, Field.weekdays]
      at hm hh hd hn hw
    simp only [hm, hh, hd, hn, hw, bind, Except.bind]
    rfl
  refine ⟨_, hparse, rfl, fun when => ?_⟩
  have hdow' : Mask.Denotes ((CronExpr.foldSunday d).setWidth 8)
      (sundayFolded (Field.weekdays f4).set) := by
    refine (foldSunday_denotes hdow).setWidth (by decide) fun v hv => ?_
    have hle : v ≤ 6 := hv.2.1
    push_cast
    omega
  have hmonth := when.month_le
  have hminute := when.minute_lt
  have hhourLt := when.hour_lt
  rw [due_words hwords,
    matches_iff rfl (hdom.setWidth (by decide) (set_lt (by simp [Field.days]))) hdow']
  refine and_congr (hmin.test (by omega)) (and_congr ?_ (and_congr ?_ Iff.rfl))
  · exact (hhour.setWidth (by decide) (set_lt (by simp [Field.hours]))).test (by omega)
  · exact (hmon.setWidth (by decide) (set_lt (by simp [Field.months]))).test (by omega)

theorem wellFormed_of_fine {fs : List Field} (h : fields expr = some fs)
    (hfine : ∀ f ∈ fs, f.AllFine) : WellFormed expr :=
  ⟨fs, h, fun f hf => (hfine f hf).wellFormed⟩

theorem ofString_ok {c : CronExpr} (h : CronExpr.parse expr = .ok c) :
    CronExpr.ofString expr = some c := by
  simp only [CronExpr.ofString, h]

theorem ofString_malformed (h : CronExpr.parse expr = .error .malformed) :
    CronExpr.ofString expr = some .invalid := by
  simp only [CronExpr.ofString, h]

theorem ofString_overflow (h : CronExpr.parse expr = .error .overflow) :
    CronExpr.ofString expr = none := by
  simp only [CronExpr.ofString, h]

theorem cron_semantics_iff (expr : QString) :
    (∃ c, CronExpr.ofString expr = some c ∧ Meets expr c) ↔
      ¬ Overflows expr ∧ ¬ (WellFormed expr ∧ HasSigned expr) := by
  constructor
  · rintro ⟨c, hc, hmeets⟩
    refine ⟨?_, ?_⟩
    · rintro ⟨fs, hfs, hover⟩
      rw [ofString_overflow (parse_overflow hfs hover)] at hc
      cases hc
    · rintro ⟨hformed, fs, hfs, f, hf, part, hpart, hsigned⟩
      have hvalid := hmeets.accepted.mpr hformed
      by_cases hfine : ∀ f ∈ fs, f.AllFine
      · exact ((hfine f hf).2 part hpart).1 hsigned
      · by_cases hover : First Field.AllFine Field.Overflows fs
        · rw [ofString_overflow (parse_overflow hfs hover)] at hc
          cases hc
        · rw [ofString_malformed (parse_fail hfs hfine hover)] at hc
          obtain rfl := Option.some.inj hc
          exact Bool.false_ne_true hvalid
  · rintro ⟨hover, hsigned⟩
    cases hfs : fields expr with
    | none =>
      refine ⟨.invalid, ofString_malformed (parse_not_five hfs), ?_, nofun⟩
      refine iff_of_false Bool.false_ne_true ?_
      rintro ⟨fs, hsome, -⟩
      rw [hfs] at hsome
      cases hsome
    | some fs =>
      have hnever : ¬ First Field.AllFine Field.Overflows fs := fun h => hover ⟨fs, hfs, h⟩
      by_cases hfine : ∀ f ∈ fs, f.AllFine
      · obtain ⟨c, hc, hvalid, hdue⟩ := parse_fine hfs hfine
        exact ⟨c, ofString_ok hc, iff_of_true hvalid (wellFormed_of_fine hfs hfine),
          fun _ => hdue⟩
      · refine ⟨.invalid, ofString_malformed (parse_fail hfs hfine hnever), ?_, nofun⟩
        refine iff_of_false Bool.false_ne_true fun hformed => ?_
        obtain ⟨gs, hgs, hall⟩ := hformed
        obtain rfl : fs = gs := Option.some.inj (hfs.symm.trans hgs)
        have hunsigned : ∀ f ∈ fs, ∀ part ∈ f.parts, ¬ Signed part := by
          intro f hf part hpart hs
          exact hsigned ⟨⟨fs, hfs, hall⟩, fs, hfs, f, hf, part, hpart, hs⟩
        rcases all_or_first fun f hf => Field.fine_or_overflows (hall f hf) (hunsigned f hf) with
          hall | hfirst
        · exact hfine hall
        · exact hnever hfirst

theorem huge_step_undefined :
    ¬ ∃ c, CronExpr.ofString ("5/2147483647 * * * *" : String) = some c ∧
      Meets ("5/2147483647 * * * *" : String) c := by
  have hnone : CronExpr.ofString ("5/2147483647 * * * *" : String) = none := by decide
  rintro ⟨c, hc, -⟩
  rw [hnone] at hc
  cases hc

end Expression

end Tools.Cron
