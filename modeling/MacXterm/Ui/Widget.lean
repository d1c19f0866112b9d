import MacXterm.Ui.SetSession

namespace Ui

open Qt Core SessionDialog

namespace Widget

def use : Widget → Use
  | on => .on
  | off => .off
  | keepalive => .keepalive
  | fontSize => .fontSize
  | scrollback => .scrollback
  | backspace => .backspace
  | _ => .text []

def written (label : QString) (s : Session) (k : QString) : Widget → Option QString
  | field => some (lineEdit (s.param k))
  | line => Control.line (lineEdit (s.param k))
  | picker => Control.line (trimmed (lineEdit (s.param k)))
  | icon => Control.line (iconData label (s.param k))
  | on => Control.on (s.params.value k "1" ≠ "0".toList)
  | off => Control.off (s.param k = "1".toList)
  | port => Control.positive (spinBox 65535 ((variantToInt (s.param k)).getD 0)).val
  | keepalive => Control.positive (spinBox 86400 ((toInt (s.param k)).getD 0)).val
  | fontSize => Control.positive (spinBox 72 ((toInt (s.param k)).getD 0)).val
  | scheme => Control.line (schemeItem (s.param k)).val
  | scrollback => Control.natural (scrollbackValue (s.param k)).val
  | backspace => Control.line (backspaceItem (s.param k)).val
  | width => Control.side (setSession label s) (setSession label s).rdpSize.1
  | height => Control.side (setSession label s) (setSession label s).rdpSize.2

-- What a parameter must be for its widget to hold it and for session to write it back the same.
def Keeps (label : QString) (s : Session) (k : QString) : Widget → Prop
  | field | line => Fits (s.param k)
  | picker => Fits (s.param k) ∧ trimmed (s.param k) = s.param k
  | icon => s.param k = [] ∨ s.param k ∈ iconItems ∨ s.param k ≠ label
  | on | off | backspace => True
  | port =>
      if s.type = .serial then
        s.param k = [] ∨ ∃ p : Nat, 0 < p ∧ p ≤ 65535 ∧ s.param k = number p
      else
        match toInt (s.param k) with
        | some p => p = defaultPort s.type ∨ 0 < p ∧ p ≤ 65535
        | none => ∀ p, variantToInt (s.param k) = some p → p ≤ 0 ∨ p = defaultPort s.type
  | keepalive => ∀ n, toInt (s.param k) = some n → n ≤ 86400
  | fontSize => ∀ n, variantToInt (s.param k) = some n → 0 < n →
      toInt (s.param k) = some n ∧ n ≤ 72
  | scheme => s.param k ∈ schemeItems
  | scrollback => s.param k = [] ∨ (∃ n, toInt (s.param k) = some n ∧ n ≤ 1000000) ∨
      toInt (s.param k) = none ∧ variantToInt (s.param k) = some 0
  | width | height => s.desktopSize = none ∨
      s.param "width" ++ '×' :: s.param "height" ∈ resolutionItems

end Widget

theorem getD_line (t : QString) : (Control.line t).getD [] = t := by
  unfold Control.line
  by_cases h : t = [] <;> simp [h]

theorem text_line_iff (t : QString) (v : Option QString) :
    (Use.text []).read (Control.line t) = (Use.text []).read v ↔ t = v.getD [] := by
  simp only [Use.read, getD_line, Reading.text.injEq]

theorem parse_written (parse : QString → Option Int) (hnil : parse [] = none) (p : Prop)
    [Decidable p] (n : Int) (hn : p → parse (number n) = some n) :
    parse ((if p then some (number n) else none).getD []) = if p then some n else none := by
  split
  · rename_i hp
    exact hn hp
  · exact hnil

theorem toInt_positive {n : Int} (hn : n < 2 ^ 31) :
    toInt ((Control.positive n).getD []) = if 0 < n then some n else none :=
  parse_written toInt toInt_nil _ n fun h => toInt_number_int (by omega) hn

theorem variantToInt_positive {n : Int} (hn : n < 2 ^ 31) :
    variantToInt ((Control.positive n).getD []) = if 0 < n then some n else none :=
  parse_written variantToInt variantToInt_nil _ n fun h =>
    variantToInt_of_toInt (toInt_number_int (by omega) hn)

theorem variantToInt_natural {n : Int} (hn : n < 2 ^ 31) :
    variantToInt ((Control.natural n).getD []) = if 0 ≤ n then some n else none :=
  parse_written variantToInt variantToInt_nil _ n fun h =>
    variantToInt_of_toInt (toInt_number_int h hn)

theorem filter_positive (o : Option Int) :
    o.filter (0 < ·) = if 0 < o.getD 0 then some (o.getD 0) else none := by
  cases o with
  | none => rfl
  | some m => simp [Option.filter_some]

theorem filter_natural (o : Option Int) :
    o.filter (0 ≤ ·) = if 0 ≤ o.getD (-1) then some (o.getD (-1)) else none := by
  cases o with
  | none => rfl
  | some m => simp [Option.filter_some]

theorem getD_positive (n : Int) : (if 0 < n then some n else none).getD 0 = max 0 n := by
  split
  · rw [Option.getD_some]
    omega
  · rw [Option.getD_none]
    omega

theorem getD_natural (n : Int) (h : -1 ≤ n) : (if 0 ≤ n then some n else none).getD (-1) = n := by
  split
  · rfl
  · rw [Option.getD_none]
    omega

theorem positive_inj (m n : Int) :
    (if 0 < m then some m else none) = (if 0 < n then some n else none) ↔ max 0 m = max 0 n := by
  split <;> split <;> simp <;> omega

theorem natural_inj (m n : Int) :
    (if 0 ≤ m then some m else none) = (if 0 ≤ n then some n else none) ↔
      max (-1) m = max (-1) n := by
  split <;> split <;> simp <;> omega

theorem keepalive_iff (t : QString) :
    Use.keepalive.read (Control.positive (spinBox 86400 ((toInt t).getD 0)).val) =
      Use.keepalive.read (some t) ↔ ∀ n, toInt t = some n → n ≤ 86400 := by
  rw [Use.read, Use.read, toInt_positive (by omega), spinBox_val, Option.getD_some,
    Reading.override.injEq, filter_positive, filter_positive, getD_positive, positive_inj]
  cases toInt t with
  | none =>
    simp only [Option.getD_none, reduceCtorEq, false_implies, implies_true, iff_true]
    omega
  | some m =>
    simp only [Option.getD_some, Option.some.injEq, forall_eq']
    omega

theorem fontSize_iff (t : QString) :
    Use.fontSize.read (Control.positive (spinBox 72 ((toInt t).getD 0)).val) =
      Use.fontSize.read (some t) ↔
      ∀ n, variantToInt t = some n → 0 < n → toInt t = some n ∧ n ≤ 72 := by
  rw [Use.read, Use.read, variantToInt_positive (by omega), spinBox_val, Option.getD_some,
    Reading.override.injEq, filter_positive, filter_positive, getD_positive, positive_inj]
  cases ht : toInt t with
  | none =>
    cases variantToInt t with
    | none =>
      simp only [Option.getD_none, reduceCtorEq, false_implies, implies_true, iff_true]
      omega
    | some m =>
      simp only [Option.getD_some, Option.getD_none, Option.some.injEq, forall_eq', reduceCtorEq,
        false_and, imp_false]
      omega
  | some m =>
    simp only [variantToInt_of_toInt ht, Option.getD_some, Option.some.injEq, forall_eq',
      true_and]
    omega

theorem scrollbackValue_val {t : QString} (h : t ≠ []) :
    (scrollbackValue t).val = max (-1) (min ((toInt t).getD 0) 1000000) := by
  simp only [scrollbackValue, if_neg h]

theorem scrollback_iff (t : QString) :
    Use.scrollback.read (Control.natural (scrollbackValue t).val) =
      Use.scrollback.read (some t) ↔
      t = [] ∨ (∃ n, toInt t = some n ∧ n ≤ 1000000) ∨
        toInt t = none ∧ variantToInt t = some 0 := by
  have hbounds := (scrollbackValue t).property
  rw [Use.read, Use.read, variantToInt_natural (by omega), Option.getD_some,
    Reading.override.injEq, filter_natural, filter_natural, getD_natural _ hbounds.1, natural_inj]
  by_cases hnil : t = []
  · subst hnil
    simp only [variantToInt_nil, scrollbackValue, if_true, Option.getD_none, true_or, iff_true]
    omega
  · rw [scrollbackValue_val hnil]
    cases ht : toInt t with
    | none =>
      cases variantToInt t with
      | none =>
        simp only [hnil, Option.getD_none, reduceCtorEq, false_and, exists_false, and_false,
          false_or, iff_false]
        omega
      | some m =>
        simp only [hnil, Option.getD_some, Option.getD_none, Option.some.injEq, reduceCtorEq,
          false_and, exists_false, false_or, true_and]
        omega
    | some m =>
      simp only [variantToInt_of_toInt ht, hnil, Option.getD_some, Option.some.injEq, reduceCtorEq,
        false_and, false_or, or_false, exists_eq_left']
      omega

theorem read_on (b : Bool) : Use.on.read (Control.on b) = .flag b := by cases b <;> decide

theorem read_off (b : Bool) : Use.off.read (Control.off b) = .flag b := by cases b <;> decide

theorem read_backspace (t : QString) :
    Use.backspace.read (Control.line (backspaceItem t).val) = Use.backspace.read (some t) := by
  rw [Use.read, Use.read, getD_line, backspaceItem]
  split
  · rename_i h
    rw [h]
    rfl
  · rename_i h
    simp only [Option.getD_some, h, decide_false]
    decide

theorem schemeItem_eq_iff (t : QString) : (schemeItem t).val = t ↔ t ∈ schemeItems := by
  refine ⟨fun h => h ▸ (schemeItem t).property, fun h => ?_⟩
  rw [schemeItem, dif_pos h]

theorem iconData_eq_iff (label t : QString) :
    iconData label t = t ↔ t = [] ∨ t ∈ iconItems ∨ t ≠ label := by
  unfold iconData
  by_cases hitem : t = [] ∨ t ∈ iconItems
  · simp only [if_pos hitem, true_iff]
    exact hitem.imp_right .inl
  · obtain ⟨hnil, hicon⟩ := not_or.mp hitem
    rw [if_neg hitem]
    by_cases hlabel : t = label
    · rw [if_pos hlabel]
      exact iff_of_false (Ne.symm hnil) fun h => h.elim hnil fun h => h.elim hicon (· hlabel)
    · rw [if_neg hlabel]
      exact iff_of_true rfl (.inr (.inr hlabel))

theorem read_written_iff (label : QString) (s : Session) (k : QString) {w : Widget}
    (hport : w ≠ .port) (hwidth : w ≠ .width) (hheight : w ≠ .height) :
    w.use.read (w.written label s k) = w.use.read (s.params.find k) ↔ w.Keeps label s k := by
  cases w with
  | field =>
    change Reading.text (lineEdit (s.param k)) = Reading.text (s.param k) ↔ Fits (s.param k)
    rw [Reading.text.injEq, lineEdit_eq_iff]
  | line => exact (text_line_iff (lineEdit (s.param k)) _).trans (lineEdit_eq_iff _)
  | picker => exact (text_line_iff _ _).trans (trimmed_lineEdit_eq_iff _)
  | icon => exact (text_line_iff _ _).trans (iconData_eq_iff label _)
  | on => exact iff_of_true (read_on _) trivial
  | off => exact iff_of_true (read_off _) trivial
  | port => exact absurd rfl hport
  | keepalive => exact keepalive_iff (s.param k)
  | fontSize => exact fontSize_iff (s.param k)
  | scheme => exact (text_line_iff _ _).trans (schemeItem_eq_iff _)
  | scrollback => exact scrollback_iff (s.param k)
  | backspace => exact iff_of_true (read_backspace (s.param k)) trivial
  | width => exact absurd rfl hwidth
  | height => exact absurd rfl hheight

theorem port_text_iff (t : QString) :
    (Control.positive (spinBox 65535 ((variantToInt t).getD 0)).val).getD [] = t ↔
      t = [] ∨ ∃ p : Nat, 0 < p ∧ p ≤ 65535 ∧ t = number p := by
  constructor
  · intro h
    rw [Control.positive] at h
    split at h
    · rename_i hpos
      exact .inr ⟨_, by omega, by omega, h.symm⟩
    · exact .inl h.symm
  · rintro (rfl | ⟨p, hpos, hmax, rfl⟩)
    · rfl
    · have hvalue : ((spinBox 65535 p).val : Int) = p := by
        rw [spinBox_val]
        omega
      rw [variantToInt_of_toInt (toInt_number (by omega)), Option.getD_some, hvalue,
        Control.positive, if_pos (by omega), Option.getD_some]

theorem port_number_iff (t : QString) (standard : Int) (h0 : 0 ≤ standard)
    (hmax : standard < 65535) :
    (toInt ((Control.positive (spinBox 65535 ((variantToInt t).getD 0)).val).getD [])).getD
        standard = (toInt t).getD standard ↔
      match toInt t with
      | some p => p = standard ∨ 0 < p ∧ p ≤ 65535
      | none => ∀ p, variantToInt t = some p → p ≤ 0 ∨ p = standard := by
  have hset (n : Int) : (if 0 < n then some n else none).getD standard =
      if 0 < n then n else standard := by split <;> rfl
  rw [toInt_positive (by omega), spinBox_val, hset]
  cases ht : toInt t with
  | some p =>
    simp only [variantToInt_of_toInt ht, Option.getD_some]
    split <;> omega
  | none =>
    cases variantToInt t with
    | none =>
      simp only [Option.getD_none, reduceCtorEq, false_implies, implies_true, iff_true]
      split <;> omega
    | some p =>
      simp only [Option.getD_none, Option.getD_some, Option.some.injEq, forall_eq']
      split <;> omega

end Ui
