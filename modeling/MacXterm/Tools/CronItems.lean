import Mathlib.Data.Int.ConditionallyCompleteOrder
import Mathlib.Tactic.Positivity
import Mathlib.Tactic.Ring
import MacXterm.Lib.Checked
import MacXterm.Qt.Number
import MacXterm.Tools.CronExpr

namespace Tools.Cron

open Qt Checked

inductive Ends (lo hi : Int) : QString → Int → Int → Prop
  | all : Ends lo hi ['*'] lo hi
  | value {t : QString} {n : Int} : toInt t = some n → Ends lo hi t n n
  | range {x y : QString} {a b : Int} : toInt x = some a → toInt y = some b →
      Ends lo hi (x ++ '-' :: y) a b

inductive Item (lo hi : Int) : QString → Span → Prop
  | plain {t : QString} {a b : Int} : Ends lo hi t a b → lo ≤ a → a ≤ b → b ≤ hi →
      Item lo hi t ⟨a, b, 1⟩
  | stepped {t u : QString} {a b step : Int} : Ends lo hi t a b → lo ≤ a → a ≤ b → b ≤ hi →
      toInt u = some step → 1 ≤ step → Item lo hi (t ++ '/' :: u) ⟨a, b, step⟩

def Span.values (s : Span) : Set Int := {v | ∃ k : Nat, v = s.a + k * s.step ∧ v ≤ s.b}

def Span.Overflows (s : Span) : Prop := ∃ v ∈ s.values, 2 ^ 31 ≤ v + s.step

-- A number with a minus sign, which only zero can have in a field.
def Signed (part : QString) : Prop := part.head? = some '-'

def NoSpace (s : QString) : Prop := ∀ c ∈ s, isSpace c = false

section Numbers

theorem not_mem_digits {cs : QString} {n : Int} {f : Int → Int}
    (h : ((digits cs).bind fun m => some (m : Int)).map f = some n) : '-' ∉ cs ∧ '/' ∉ cs := by
  obtain ⟨i, hi, -⟩ := Option.map_eq_some_iff.mp h
  obtain ⟨m, hm, -⟩ := Option.bind_eq_some_iff.mp hi
  have hall := digit_of_digits hm
  refine ⟨fun hmem => ?_, fun hmem => ?_⟩
  · exact absurd (hall _ hmem) (by decide)
  · exact absurd (hall _ hmem) (by decide)

theorem not_mem_number {s : QString} {n : Int} (hs : NoSpace s) (h : toInt s = some n) :
    '/' ∉ s ∧ ('-' ∈ s → Signed s) := by
  have hdecimal : decimal s = some n := by
    rw [toInt_eq, Option.filter_eq_some_iff] at h
    exact h.1
  rw [decimal, trimmed_of_no_space hs] at hdecimal
  split at hdecimal
  · obtain ⟨-, hslash⟩ := not_mem_digits hdecimal
    exact ⟨List.not_mem_cons_of_ne_of_not_mem (by decide) hslash, fun _ => rfl⟩
  · obtain ⟨hminus, hslash⟩ := not_mem_digits hdecimal
    refine ⟨List.not_mem_cons_of_ne_of_not_mem (by decide) hslash, fun hmem => ?_⟩
    exact absurd hmem (List.not_mem_cons_of_ne_of_not_mem (by decide) hminus)
  · obtain ⟨hminus, hslash⟩ := not_mem_digits hdecimal
    exact ⟨hslash, fun hmem => absurd hmem hminus⟩

theorem readInt_eq_ok {s : QString} {n : Int} : readInt s = .ok n ↔ toInt s = some n := by
  unfold readInt
  cases toInt s <;> simp

theorem readInt_cases (s : QString) : (∃ n, readInt s = .ok n) ∨ readInt s = .error .malformed := by
  unfold readInt
  cases toInt s with
  | none => exact .inr rfl
  | some n => exact .inl ⟨n, rfl⟩

end Numbers

section Reading

variable {lo hi : Int}

theorem readEnds_cases (lo hi : Int) (part : QString) :
    (∃ e, readEnds lo hi part = .ok e) ∨ readEnds lo hi part = .error .malformed := by
  unfold readEnds
  split
  · exact .inl ⟨_, rfl⟩
  · split
    · rename_i left right _
      rcases readInt_cases left with ⟨a, ha⟩ | ha
      · rcases readInt_cases right with ⟨b, hb⟩ | hb
        · exact .inl ⟨(a, b), by rw [ha, hb]; rfl⟩
        · exact .inr (by rw [ha, hb]; rfl)
      · exact .inr (by rw [ha]; rfl)
    · rcases readInt_cases part with ⟨a, ha⟩ | ha
      · exact .inl ⟨(a, a), by rw [ha]; rfl⟩
      · exact .inr (by rw [ha]; rfl)

theorem readEnds_of_ends {t : QString} {a b : Int} (ht : NoSpace t) (h : Ends lo hi t a b)
    (hsigned : ¬ Signed t) : '/' ∉ t ∧ readEnds lo hi t = .ok (a, b) := by
  cases h with
  | all => exact ⟨by decide, if_pos rfl⟩
  | value hn =>
    obtain ⟨hslash, hminus⟩ := not_mem_number ht hn
    have hstar : t ≠ ['*'] := by
      rintro rfl
      have hnone : toInt ['*'] = none := by decide
      rw [hnone] at hn
      cases hn
    have hcut : cutAt '-' t = none := cutAt_eq_none.mpr fun hmem => hsigned (hminus hmem)
    refine ⟨hslash, ?_⟩
    simp only [readEnds, if_neg hstar, hcut, readInt_eq_ok.mpr hn]
    rfl
  | @range x y a b ha hb =>
    have hx : NoSpace x := fun c hc => ht c (List.mem_append_left _ hc)
    have hy : NoSpace y := fun c hc => ht c (List.mem_append_right _ (List.mem_cons_of_mem _ hc))
    obtain ⟨hslash, hminus⟩ := not_mem_number hx ha
    obtain ⟨hslash', -⟩ := not_mem_number hy hb
    have hleft : '-' ∉ x := by
      intro hmem
      apply hsigned
      rw [Signed, List.head?_append, hminus hmem]
      rfl
    have hstar : x ++ '-' :: y ≠ ['*'] := by
      intro heq
      have hmem : '-' ∈ x ++ '-' :: y := List.mem_append_right _ List.mem_cons_self
      rw [heq] at hmem
      exact absurd hmem (by decide)
    refine ⟨?_, ?_⟩
    · intro hmem
      rcases List.mem_append.mp hmem with hmem | hmem
      · exact hslash hmem
      · exact (List.not_mem_cons_of_ne_of_not_mem (by decide) hslash') hmem
    · simp only [readEnds, if_neg hstar, cutAt_eq_some.mpr ⟨hleft, rfl⟩, readInt_eq_ok.mpr ha,
        readInt_eq_ok.mpr hb]
      rfl

theorem ends_of_readEnds {t : QString} {a b : Int} (h : readEnds lo hi t = .ok (a, b)) :
    Ends lo hi t a b ∧ ¬ Signed t := by
  unfold readEnds at h
  split at h
  · rename_i hstar
    obtain ⟨rfl, rfl⟩ := Prod.mk.inj (Except.ok.inj h)
    subst hstar
    exact ⟨.all, nofun⟩
  · split at h
    · rename_i left right hcut
      obtain ⟨hleft, rfl⟩ := cutAt_eq_some.mp hcut
      rcases readInt_cases left with ⟨n, hn⟩ | hn
      · rcases readInt_cases right with ⟨m, hm⟩ | hm
        · rw [hn, hm] at h
          obtain ⟨rfl, rfl⟩ := Prod.mk.inj (Except.ok.inj h)
          refine ⟨.range (readInt_eq_ok.mp hn) (readInt_eq_ok.mp hm), ?_⟩
          cases left with
          | nil =>
            rw [readInt_eq_ok, toInt_nil] at hn
            cases hn
          | cons c left =>
            intro hsigned
            obtain rfl : c = '-' := Option.some.inj hsigned
            exact hleft List.mem_cons_self
        · rw [hn, hm] at h
          cases h
      · rw [hn] at h
        cases h
    · rename_i hcut
      rcases readInt_cases t with ⟨n, hn⟩ | hn
      · rw [hn] at h
        obtain ⟨rfl, rfl⟩ := Prod.mk.inj (Except.ok.inj h)
        refine ⟨.value (readInt_eq_ok.mp hn), fun hsigned => ?_⟩
        exact cutAt_eq_none.mp hcut (List.mem_of_mem_head? hsigned)
      · rw [hn] at h
        cases h

theorem signed_append {t u : QString} : Signed (t ++ '/' :: u) ↔ Signed t := by
  cases t with
  | nil => exact iff_of_false nofun nofun
  | cons c t => exact Iff.rfl

theorem readStep_cases (part : QString) :
    (∃ e, readStep part = .ok e) ∨ readStep part = .error .malformed := by
  unfold readStep
  split
  · rename_i left right _
    rcases readInt_cases right with ⟨step, hstep⟩ | hstep
    · rw [hstep]
      by_cases hpos : step ≤ 0
      · exact .inr (if_pos hpos)
      · exact .inl ⟨(left, step), if_neg hpos⟩
    · exact .inr (by rw [hstep]; rfl)
  · exact .inl ⟨(part, 1), rfl⟩

theorem parsePart_cases (lo hi : Int) (part : QString) :
    (∃ s, parsePart lo hi part = .ok s) ∨ parsePart lo hi part = .error .malformed := by
  unfold parsePart
  rcases readStep_cases part with ⟨⟨t, step⟩, hstep⟩ | hstep
  · rcases readEnds_cases lo hi t with ⟨⟨a, b⟩, hends⟩ | hends
    · by_cases hout : a < lo ∨ hi < b ∨ b < a
      · exact .inr (by simp only [hstep, bind, Except.bind, hends, if_pos hout])
      · exact .inl ⟨⟨a, b, step⟩, by simp only [hstep, bind, Except.bind, hends, if_neg hout]; rfl⟩
    · exact .inr (by simp only [hstep, bind, Except.bind, hends])
  · exact .inr (by simp only [hstep, bind, Except.bind])

theorem parsePart_of_parts {part t : QString} {a b step : Int}
    (hstep : readStep part = .ok (t, step)) (hends : readEnds lo hi t = .ok (a, b))
    (hlo : lo ≤ a) (hab : a ≤ b) (hhi : b ≤ hi) : parsePart lo hi part = .ok ⟨a, b, step⟩ := by
  have hin : ¬ (a < lo ∨ hi < b ∨ b < a) := by omega
  simp only [parsePart, hstep, bind, Except.bind, hends, if_neg hin]
  rfl

theorem parsePart_of_item {part : QString} {s : Span} (hspace : NoSpace part)
    (h : Item lo hi part s) (hsigned : ¬ Signed part) : parsePart lo hi part = .ok s := by
  cases h with
  | plain hends hlo hab hhi =>
    obtain ⟨hslash, hread⟩ := readEnds_of_ends hspace hends hsigned
    have hstep : readStep part = .ok (part, 1) := by
      simp only [readStep, cutAt_eq_none.mpr hslash]
      rfl
    exact parsePart_of_parts hstep hread hlo hab hhi
  | @stepped t u a b step hends hlo hab hhi hu hpos =>
    have ht : NoSpace t := fun c hc => hspace c (List.mem_append_left _ hc)
    obtain ⟨hslash, hread⟩ := readEnds_of_ends ht hends (mt signed_append.mpr hsigned)
    have hstep : readStep (t ++ '/' :: u) = .ok (t, step) := by
      have hle : ¬ step ≤ 0 := by omega
      simp only [readStep, cutAt_eq_some.mpr ⟨hslash, rfl⟩, readInt_eq_ok.mpr hu, bind, Except.bind,
        if_neg hle]
      rfl
    exact parsePart_of_parts hstep hread hlo hab hhi

theorem item_of_parsePart {part : QString} {s : Span} (h : parsePart lo hi part = .ok s) :
    Item lo hi part s ∧ ¬ Signed part := by
  unfold parsePart at h
  rcases readStep_cases part with ⟨⟨t, step⟩, hstep⟩ | hstep
  · rcases readEnds_cases lo hi t with ⟨⟨a, b⟩, hends⟩ | hends
    · simp only [hstep, bind, Except.bind, hends] at h
      split at h
      · cases h
      · rename_i hin
        obtain rfl := Except.ok.inj h
        obtain ⟨hform, hsigned⟩ := ends_of_readEnds hends
        unfold readStep at hstep
        split at hstep
        · rename_i left right hcut
          obtain ⟨-, rfl⟩ := cutAt_eq_some.mp hcut
          rcases readInt_cases right with ⟨n, hn⟩ | hn
          · simp only [hn, bind, Except.bind] at hstep
            split at hstep
            · cases hstep
            · rename_i hpos
              obtain ⟨rfl, rfl⟩ := Prod.mk.inj (Except.ok.inj hstep)
              exact ⟨.stepped hform (by omega) (by omega) (by omega) (readInt_eq_ok.mp hn)
                (by omega), mt signed_append.mp hsigned⟩
          · simp only [hn, bind, Except.bind] at hstep
            cases hstep
        · obtain ⟨rfl, rfl⟩ := Prod.mk.inj (Except.ok.inj hstep)
          exact ⟨.plain hform (by omega) (by omega) (by omega), hsigned⟩
    · simp only [hstep, bind, Except.bind, hends] at h
      cases h
  · simp only [hstep, bind, Except.bind] at h
    cases h

end Reading

section Loop

variable {s : Span}

theorem mem_values_step {v b step x : Int} (hvb : v ≤ b) :
    x ∈ (Span.mk v b step).values ↔ x = v ∨ x ∈ (Span.mk (v + step) b step).values := by
  constructor
  · rintro ⟨k, hx, hxb⟩
    cases k with
    | zero => exact .inl (by simpa using hx)
    | succ k =>
      refine .inr ⟨k, ?_, hxb⟩
      rw [hx]
      push_cast
      ring
  · rintro (rfl | ⟨k, hx, hxb⟩)
    · exact ⟨0, by simp, hvb⟩
    · refine ⟨k + 1, ?_, hxb⟩
      rw [hx]
      push_cast
      ring

theorem not_mem_values {v b step x : Int} (hstep : 1 ≤ step) (hvb : b < v) :
    x ∉ (Span.mk v b step).values := by
  rintro ⟨k, hx, hxb⟩
  have hnonneg : 0 ≤ (k : Int) * step := by positivity
  dsimp only at hx hxb
  omega

theorem addInt_ok {v step : Int} (hv : 0 ≤ v) (hstep : 1 ≤ step) (h : v + step < 2 ^ 31) :
    addInt v step = .ok (v + step) := if_pos ⟨by omega, h⟩

theorem addInt_overflow {v step : Int} (h : 2 ^ 31 ≤ v + step) :
    addInt v step = .error .overflow := if_neg (by omega)

theorem setEvery_ok {b step : Int} (hb : b < 64) (hstep : 1 ≤ step) {turns : Nat} {v : Int}
    (hv : 0 ≤ v) (hturns : b - v < turns) (hno : ¬ (Span.mk v b step).Overflows)
    (mask : BitVec 64) :
    ∃ m, setEvery b step turns v mask = .ok m ∧ ∀ i < 64,
      (m.getLsbD i = true ↔ mask.getLsbD i = true ∨ (i : Int) ∈ (Span.mk v b step).values) := by
  induction turns generalizing v mask with
  | zero =>
    refine ⟨mask, rfl, fun i _ => ?_⟩
    simp [not_mem_values (x := i) hstep (by omega : b < v)]
  | succ turns ih =>
    by_cases hvb : v ≤ b
    · have hlt : v + step < 2 ^ 31 := by
        by_contra hge
        exact hno ⟨v, (mem_values_step hvb).mpr (.inl rfl), not_lt.mp hge⟩
      have hno' : ¬ (Span.mk (v + step) b step).Overflows := by
        rintro ⟨x, hx, hover⟩
        exact hno ⟨x, (mem_values_step hvb).mpr (.inr hx), hover⟩
      obtain ⟨m, hm, hbits⟩ := ih (by omega) (by push_cast at hturns; omega) hno'
        (mask ||| 1#64 <<< v.toNat)
      refine ⟨m, ?_, fun i hi => ?_⟩
      · simp only [setEvery, if_pos hvb, addInt_ok hv hstep hlt]
        exact hm
      · rw [hbits i hi, Mask.getLsbD_add _ hi, mem_values_step hvb, Bool.or_eq_true,
          decide_eq_true_eq, or_assoc]
        have hat : i = v.toNat ↔ (i : Int) = v := by omega
        rw [hat]
    · refine ⟨mask, by simp only [setEvery, if_neg hvb], fun i _ => ?_⟩
      simp [not_mem_values (x := i) hstep (by omega : b < v)]

theorem setEvery_overflow {b step : Int} (hstep : 1 ≤ step) {turns : Nat} {v : Int} (hv : 0 ≤ v)
    (hturns : b - v < turns) (hover : (Span.mk v b step).Overflows) (mask : BitVec 64) :
    setEvery b step turns v mask = .error .overflow := by
  induction turns generalizing v mask with
  | zero =>
    obtain ⟨x, hx, -⟩ := hover
    exact absurd hx (not_mem_values hstep (by omega))
  | succ turns ih =>
    obtain ⟨x, hx, hover⟩ := hover
    by_cases hvb : v ≤ b
    · simp only [setEvery, if_pos hvb]
      by_cases hlt : v + step < 2 ^ 31
      · rw [addInt_ok hv hstep hlt]
        rcases (mem_values_step hvb).mp hx with rfl | hx
        · dsimp only at hover
          omega
        · exact ih (by omega) (by push_cast at hturns; omega) ⟨x, hx, hover⟩ _
      · rw [addInt_overflow (by omega)]
        rfl
    · exact absurd hx (not_mem_values hstep (by omega))

end Loop

end Tools.Cron
