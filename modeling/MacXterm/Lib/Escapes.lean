import Mathlib.Data.List.TakeWhile
import Mathlib.Data.Nat.Init

namespace Escapes

variable {α : Type}

theorem last_escape {esc : α} {bs : List α} (h : esc ∈ bs) :
    ∃ q seq, bs = q ++ esc :: seq ∧ esc ∉ seq := by
  obtain ⟨front, back, hsplit, hfront⟩ := List.eq_append_cons_of_mem (List.mem_reverse.mpr h)
  refine ⟨back.reverse, front.reverse, ?_, fun hmem => hfront (List.mem_reverse.mp hmem)⟩
  rw [← List.reverse_reverse bs, hsplit, List.reverse_append, List.reverse_cons,
    List.append_assoc, List.singleton_append]

variable [DecidableEq α] (esc : α)

-- What follows each escape, up to the next one.
def sequences : List α → List (List α)
  | [] => []
  | b :: bs => if b = esc then (bs.takeWhile (· ≠ esc)) :: sequences bs else sequences bs

variable {esc}

theorem takeWhile_of_not_mem {bs : List α} (h : esc ∉ bs) : bs.takeWhile (· ≠ esc) = bs :=
  List.takeWhile_eq_self_iff.mpr fun _ hb => decide_eq_true fun heq => h (heq ▸ hb)

theorem sequences_of_not_mem {bs : List α} (h : esc ∉ bs) : sequences esc bs = [] := by
  induction bs with
  | nil => rfl
  | cons b bs ih =>
    rw [List.mem_cons, not_or] at h
    rw [sequences, if_neg (Ne.symm h.1), ih h.2]

theorem not_mem_takeWhile (bs : List α) : esc ∉ bs.takeWhile (· ≠ esc) :=
  fun h => absurd (List.mem_takeWhile_imp h) (by simp)

theorem dropWhile_cases (bs : List α) :
    bs.dropWhile (· ≠ esc) = [] ∨ ∃ more, bs.dropWhile (· ≠ esc) = esc :: more := by
  induction bs with
  | nil => exact .inl rfl
  | cons b bs ih =>
    rw [List.dropWhile_cons]
    by_cases hb : b = esc
    · rw [if_neg (by simpa using hb), hb]
      exact .inr ⟨bs, rfl⟩
    · rw [if_pos (by simpa using hb)]
      exact ih

theorem takeWhile_append_cons (q r : List α) :
    (q ++ esc :: r).takeWhile (· ≠ esc) = q.takeWhile (· ≠ esc) := by
  induction q with
  | nil => simp
  | cons b q ih =>
    rw [List.cons_append, List.takeWhile_cons, List.takeWhile_cons, ih]

theorem sequences_append_cons (q r : List α) :
    sequences esc (q ++ esc :: r) =
      sequences esc q ++ r.takeWhile (· ≠ esc) :: sequences esc r := by
  induction q with
  | nil => simp only [List.nil_append, sequences, if_true]
  | cons b q ih =>
    rw [List.cons_append, sequences, sequences, ih, takeWhile_append_cons]
    split <;> rfl

theorem sequences_concat {seq : List α} (q : List α) (h : esc ∉ seq) :
    sequences esc (q ++ esc :: seq) = sequences esc q ++ [seq] := by
  rw [sequences_append_cons, takeWhile_of_not_mem h, sequences_of_not_mem h]

-- A stream is text without an escape, or one more sequence after a stream.
-- What a buffer that takes no more than `cap` elements holds after one more.
omit [DecidableEq α] in
theorem take_concat (cap : Nat) (bs : List α) (b : α) :
    (if (bs.take cap).length < cap then bs.take cap ++ [b] else bs.take cap) =
      (bs ++ [b]).take cap := by
  rw [List.length_take]
  split
  · next h =>
    rw [List.take_of_length_le (by omega), List.take_of_length_le (by simp; omega)]
  · rw [List.take_append_of_le_length (by omega)]

theorem sequence_induction (esc : α) {motive : List α → Prop}
    (text : ∀ bs, esc ∉ bs → motive bs)
    (sequence : ∀ q seq, esc ∉ seq → motive q → motive (q ++ esc :: seq)) (bs : List α) :
    motive bs := by
  induction hn : bs.length using Nat.strong_induction_on generalizing bs with
  | _ n ih =>
    by_cases h : esc ∈ bs
    · obtain ⟨q, seq, rfl, hseq⟩ := last_escape h
      refine sequence q seq hseq (ih q.length ?_ q rfl)
      rw [← hn, List.length_append, List.length_cons]
      omega
    · exact text bs h

end Escapes

namespace Stuffing

variable {α σ ρ : Type} [DecidableEq α]

def stuff (esc : α) (xs : List α) : List α :=
  xs.flatMap fun x => if x = esc then [esc, esc] else [x]

variable {esc : α}

theorem stuff_cons_self (xs : List α) : stuff esc (esc :: xs) = esc :: esc :: stuff esc xs := by
  rw [stuff, List.flatMap_cons, if_pos rfl]
  rfl

theorem stuff_cons_of_ne {x : α} (h : x ≠ esc) (xs : List α) :
    stuff esc (x :: xs) = x :: stuff esc xs := by
  rw [stuff, List.flatMap_cons, if_neg h]
  rfl

theorem stuff_of_not_mem {xs : List α} (h : esc ∉ xs) : stuff esc xs = xs := by
  induction xs with
  | nil => rfl
  | cons x xs ih =>
    rw [List.mem_cons, not_or] at h
    obtain ⟨hx, hxs⟩ := h
    rw [stuff_cons_of_ne (Ne.symm hx), ih hxs]

-- A reader that takes a plain symbol, or the doubled escape, for one symbol reads the text itself.
theorem foldl_stuff (step : σ → α → σ) (place : ρ → σ) (emit : ρ → α → ρ)
    (hplain : ∀ r x, x ≠ esc → step (place r) x = place (emit r x))
    (hescape : ∀ r, step (step (place r) esc) esc = place (emit r esc)) (r : ρ) (xs : List α) :
    (stuff esc xs).foldl step (place r) = place (xs.foldl emit r) := by
  induction xs generalizing r with
  | nil => rfl
  | cons x xs ih =>
    by_cases hx : x = esc
    · subst hx
      rw [stuff_cons_self, List.foldl_cons, List.foldl_cons, hescape, ih, List.foldl_cons]
    · rw [stuff_cons_of_ne hx, List.foldl_cons, hplain r x hx, ih, List.foldl_cons]

end Stuffing
