import MacXterm.Qt.Text

namespace Qt

-- A cut inside a surrogate pair drops the whole character; a QString would keep a lone surrogate.
def left : Nat → QString → QString
  | _, [] => []
  | n, c :: s => if (utf16 c).length ≤ n then c :: left (n - (utf16 c).length) s else []

def maxLength : Nat := 32767

def lineEdit (text : QString) : QString := left maxLength text

def Fits (text : QString) : Prop := (units text).length ≤ maxLength

instance (text : QString) : Decidable (Fits text) := inferInstanceAs (Decidable (_ ≤ _))

def spinBox (maximum : Nat) (value : Int) : Fin (maximum + 1) :=
  ⟨min value.toNat maximum, by omega⟩

theorem spinBox_val (maximum : Nat) (value : Int) :
    ((spinBox maximum value).val : Int) = max 0 (min value maximum) := by
  simp only [spinBox]
  omega

theorem units_cons (c : Char) (s : QString) : units (c :: s) = utf16 c ++ units s :=
  List.flatMap_cons

theorem utf16_length (c : Char) : 0 < (utf16 c).length ∧ (utf16 c).length ≤ 2 := by
  unfold utf16
  split <;> simp

theorem left_eq_self_iff (n : Nat) (s : QString) : left n s = s ↔ (units s).length ≤ n := by
  induction s generalizing n with
  | nil => simp [left, units]
  | cons c s ih =>
    rw [left, units_cons, List.length_append]
    split
    · rw [List.cons_inj_right, ih]
      omega
    · simp only [List.nil_eq, reduceCtorEq, false_iff]
      omega

theorem left_eq_of_length {n : Nat} {s : QString} (h : s.length ≤ (left n s).length) :
    left n s = s := by
  induction s generalizing n with
  | nil => rfl
  | cons c s ih =>
    rw [left] at h ⊢
    split at h
    · rename_i hc
      rw [if_pos hc, ih (Nat.le_of_succ_le_succ h)]
    · simp at h

theorem lineEdit_eq_iff (s : QString) : lineEdit s = s ↔ Fits s := left_eq_self_iff maxLength s

theorem lineEdit_eq_nil_iff (s : QString) : lineEdit s = [] ↔ s = [] := by
  cases s with
  | nil => simp [lineEdit, left]
  | cons c s =>
    have hc := (utf16_length c).2
    rw [lineEdit, left, if_pos (by rw [maxLength]; omega)]
    simp

theorem trimmed_lineEdit_eq_iff (s : QString) :
    trimmed (lineEdit s) = s ↔ Fits s ∧ trimmed s = s := by
  constructor
  · intro h
    have hlen : s.length ≤ (lineEdit s).length := by
      simpa only [h] using (trimmed_sublist (lineEdit s)).length_le
    have hself : lineEdit s = s := left_eq_of_length hlen
    rw [hself] at h
    exact ⟨(lineEdit_eq_iff s).mp hself, h⟩
  · rintro ⟨hfits, htrimmed⟩
    rw [(lineEdit_eq_iff s).mpr hfits, htrimmed]

end Qt
