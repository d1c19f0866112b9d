import MacXterm.Lib.Wrap

namespace Wrap

variable {α : Type}

def Tight (blank : α → Bool) (line : List α) : Prop := line.rdropWhile blank = line

-- The lines that a list of rows is the wrapping of; `cur` is what the rows before it left open.
def paragraphs (blank : α → Bool) (cur : List α) : List (Row α) → List (List α)
  | [] =>
      match cur with
      | [] => []
      | _ :: _ => [cur]
  | row :: rows =>
      match row.wrapped with
      | true => paragraphs blank (cur ++ row.cells) rows
      | false => (cur ++ row.cells.rdropWhile blank) :: paragraphs blank [] rows

section Tight

variable {blank : α → Bool} {line : List α}

theorem tight_nil : Tight blank [] := List.rdropWhile_nil blank

theorem tight_concat (xs : List α) (x : α) : Tight blank (xs ++ [x]) ↔ blank x = false := by
  rw [Tight, List.rdropWhile_concat]
  cases hx : blank x with
  | false => simp
  | true =>
    refine iff_of_false (fun h => ?_) nofun
    have hle := (List.rdropWhile_prefix blank (l := xs)).length_le
    rw [if_pos rfl] at h
    rw [h, List.length_append, List.length_singleton] at hle
    omega

theorem tight_rdropWhile (blank : α → Bool) (line : List α) :
    Tight blank (line.rdropWhile blank) := List.rdropWhile_idempotent ..

theorem Tight.append {cur : List α} (hcur : Tight blank cur) (hline : Tight blank line) :
    Tight blank (cur ++ line) := by
  induction line using List.reverseRecOn with
  | nil => rwa [List.append_nil]
  | append_singleton xs x _ =>
    rw [← List.append_assoc, tight_concat]
    exact (tight_concat xs x).mp hline

theorem Tight.of_suffix {part : List α} (h : Tight blank line) (hpart : part <:+ line) :
    Tight blank part := by
  induction part using List.reverseRecOn with
  | nil => exact tight_nil
  | append_singleton xs x _ =>
    obtain ⟨front, rfl⟩ := hpart
    rw [← List.append_assoc, tight_concat] at h
    exact (tight_concat xs x).mpr h

end Tight

def AllTight (blank : α → Bool) (rows : List (Row α)) : Prop :=
  ∀ line ∈ paragraphs blank [] rows, Tight blank line

section Paragraphs

variable (blank : α → Bool)

theorem paragraphs_nil {cur : List α} (h : cur ≠ []) : paragraphs blank cur [] = [cur] := by
  obtain ⟨c, cs, rfl⟩ := List.exists_cons_of_ne_nil h
  rfl

theorem paragraphs_wrapped (cur : List α) {row : Row α} (rows : List (Row α))
    (h : row.wrapped = true) :
    paragraphs blank cur (row :: rows) = paragraphs blank (cur ++ row.cells) rows := by
  rw [paragraphs, h]

theorem paragraphs_hard (cur : List α) {row : Row α} (rows : List (Row α))
    (h : row.wrapped = false) :
    paragraphs blank cur (row :: rows) =
      (cur ++ row.cells.rdropWhile blank) :: paragraphs blank [] rows := by
  rw [paragraphs, h]

theorem paragraphs_suffix (rows : List (Row α)) {c p : List α} (h : c <:+ p) :
    ∀ line ∈ paragraphs blank c rows, ∃ whole ∈ paragraphs blank p rows, line <:+ whole := by
  induction rows generalizing c p with
  | nil =>
    intro line hline
    by_cases hc : c = []
    · subst hc
      exact absurd hline List.not_mem_nil
    · have hp : p ≠ [] := fun hp => hc (List.suffix_nil.mp (hp ▸ h))
      rw [paragraphs_nil blank hc, List.mem_singleton] at hline
      rw [paragraphs_nil blank hp, hline]
      exact ⟨p, List.mem_singleton_self p, h⟩
  | cons row rows ih =>
    obtain ⟨front, rfl⟩ := h
    cases hw : row.wrapped with
    | true =>
      rw [paragraphs_wrapped blank _ _ hw, paragraphs_wrapped blank _ _ hw]
      exact ih ⟨front, (List.append_assoc ..).symm⟩
    | false =>
      rw [paragraphs_hard blank _ _ hw, paragraphs_hard blank _ _ hw]
      intro line hline
      rcases List.mem_cons.mp hline with rfl | hline
      · exact ⟨_, List.mem_cons_self, ⟨front, (List.append_assoc ..).symm⟩⟩
      · exact ⟨line, List.mem_cons_of_mem _ hline, List.suffix_refl line⟩

variable {blank}

theorem AllTight.tail {row : Row α} {rows : List (Row α)} (h : AllTight blank (row :: rows)) :
    AllTight blank rows := by
  intro line hline
  cases hw : row.wrapped with
  | true =>
    obtain ⟨whole, hwhole, hsuffix⟩ :=
      paragraphs_suffix blank rows (List.nil_suffix (l := [] ++ row.cells)) line hline
    rw [← paragraphs_wrapped blank [] rows hw] at hwhole
    exact (h whole hwhole).of_suffix hsuffix
  | false =>
    refine h line ?_
    rw [paragraphs_hard blank _ _ hw]
    exact List.mem_cons_of_mem _ hline

theorem AllTight.drop {rows : List (Row α)} (h : AllTight blank rows) (k : Nat) :
    AllTight blank (rows.drop k) := by
  induction k generalizing rows with
  | zero => exact h
  | succ k ih =>
    cases rows with
    | nil => exact h
    | cons row rows => exact ih h.tail

theorem tight_paragraphs_concat (rows : List (Row α)) {row : Row α} {cur : List α}
    (hrow : row.wrapped = true → row.cells ≠ [] ∧ Tight blank row.cells)
    (h : ∀ line ∈ paragraphs blank cur rows, Tight blank line) :
    ∀ line ∈ paragraphs blank cur (rows ++ [row]), Tight blank line := by
  induction rows generalizing cur with
  | nil =>
    have hcur : Tight blank cur := by
      by_cases hne : cur = []
      · exact hne ▸ tight_nil
      · rw [paragraphs_nil blank hne] at h
        exact h cur (List.mem_singleton_self cur)
    intro line hline
    rw [List.nil_append] at hline
    cases hw : row.wrapped with
    | true =>
      obtain ⟨hne, htight⟩ := hrow hw
      rw [paragraphs_wrapped blank _ _ hw,
        paragraphs_nil blank (List.append_ne_nil_of_right_ne_nil _ hne),
        List.mem_singleton] at hline
      exact hline ▸ hcur.append htight
    | false =>
      rw [paragraphs_hard blank _ _ hw] at hline
      rcases List.mem_cons.mp hline with rfl | hline
      · exact hcur.append (tight_rdropWhile blank row.cells)
      · exact absurd hline List.not_mem_nil
  | cons first rows ih =>
    rw [List.cons_append]
    cases hw : first.wrapped with
    | true =>
      rw [paragraphs_wrapped blank _ _ hw] at h ⊢
      exact ih h
    | false =>
      rw [paragraphs_hard blank _ _ hw] at h ⊢
      intro line hline
      rcases List.mem_cons.mp hline with rfl | hline
      · exact h _ List.mem_cons_self
      · exact ih (fun line hline => h line (List.mem_cons_of_mem _ hline)) line hline

end Paragraphs

section WrapAt

variable {blank : α → Bool} {width : Nat} {line : List α}

theorem wrapAt_of_length_le (h : line.length ≤ width) : wrapAt width line = [⟨line, false⟩] := by
  cases hline : line with
  | nil => rfl
  | cons c cs =>
    have hpos : 0 < line.length := by simp [hline]
    have hone : (line.length + width - 1) / width = 1 := by
      rw [Nat.div_eq_iff (by omega)]
      omega
    rw [wrapAt, ← hline, hone, List.range_one, List.map_singleton, Blocks.block, Nat.zero_mul,
      List.drop_zero, List.take_of_length_le h, Nat.zero_add, decide_eq_false (by omega)]

theorem wrapAt_of_lt (hwidth : 0 < width) (h : width < line.length) :
    wrapAt width line = ⟨line.take width, true⟩ :: wrapAt width (line.drop width) := by
  have hdrop : (line.drop width).length = line.length - width := List.length_drop
  have hcount : (line.length + width - 1) / width =
      ((line.drop width).length + width - 1) / width + 1 := by
    rw [hdrop, ← Nat.add_div_right _ hwidth]
    congr 1
    omega
  have hcons {xs : List α} (hpos : 0 < xs.length) : wrapAt width xs =
      (List.range ((xs.length + width - 1) / width)).map fun i =>
        ⟨Blocks.block width xs i, decide (i * width + width < xs.length)⟩ := by
    cases xs with
    | nil => exact absurd hpos (Nat.lt_irrefl 0)
    | cons x xs => rfl
  rw [hcons (by omega), hcons (by omega), hcount, List.range_succ_eq_map, List.map_cons,
    List.map_map]
  congr 1
  · rw [Blocks.block, Nat.zero_mul, List.drop_zero, Nat.zero_add, decide_eq_true h]
  · refine List.map_congr_left fun i _ => ?_
    have hend : (i + 1) * width + width < line.length ↔
        i * width + width < (line.drop width).length := by
      rw [hdrop, Nat.succ_mul]
      omega
    have hblock : Blocks.block width line (i + 1) = Blocks.block width (line.drop width) i := by
      rw [Blocks.block, Blocks.block, List.drop_drop, Nat.succ_mul, Nat.add_comm width]
    simp only [Function.comp_apply, Nat.succ_eq_add_one, hblock, hend]

theorem paragraphs_wrapAt (hwidth : 0 < width) (hline : Tight blank line) (cur : List α)
    (rows : List (Row α)) :
    paragraphs blank cur (wrapAt width line ++ rows) =
      (cur ++ line) :: paragraphs blank [] rows := by
  induction hn : line.length using Nat.strong_induction_on generalizing line cur with
  | _ n ih =>
    by_cases hle : line.length ≤ width
    · rw [wrapAt_of_length_le hle, List.singleton_append, paragraphs_hard blank _ _ rfl, hline]
    · have hdrop : (line.drop width).length = line.length - width := List.length_drop
      rw [wrapAt_of_lt hwidth (by omega), List.cons_append, paragraphs_wrapped blank _ _ rfl,
        ih (line.length - width) (by omega) (hline.of_suffix (List.drop_suffix width line)) _ hdrop,
        List.append_assoc, List.take_append_drop]

theorem paragraphs_flatMap_wrapAt (hwidth : 0 < width) {lines : List (List α)}
    (h : ∀ line ∈ lines, Tight blank line) :
    paragraphs blank [] (lines.flatMap (wrapAt width)) = lines := by
  induction lines with
  | nil => rfl
  | cons line lines ih =>
    rw [List.flatMap_cons, paragraphs_wrapAt hwidth (h line List.mem_cons_self), List.nil_append,
      ih fun line hline => h line (List.mem_cons_of_mem _ hline)]

end WrapAt

end Wrap
