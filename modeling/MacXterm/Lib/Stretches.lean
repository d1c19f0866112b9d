import Mathlib.Data.List.Basic
import Mathlib.Data.List.Induction
import Mathlib.Data.List.Infix

-- Pieces of a line, chosen in turn: a piece that covers a column of one chosen before is refused.
structure Stretch where
  start : Nat
  length : Nat
  deriving DecidableEq

namespace Stretch

def Covers (s : Stretch) (i : Nat) : Prop := s.start ≤ i ∧ i < s.start + s.length

instance (s : Stretch) (i : Nat) : Decidable (s.Covers i) :=
  inferInstanceAs (Decidable (s.start ≤ i ∧ i < s.start + s.length))

def Overlap (s t : Stretch) : Prop := ∃ i, s.Covers i ∧ t.Covers i

def Before (s t : Stretch) : Prop := s.start + s.length ≤ t.start

theorem before_of_start {s t : Stretch} (ht : 0 < t.length) (hapart : ¬s.Overlap t)
    (h : s.start ≤ t.start) : s.Before t := by
  by_contra hlt
  rw [Before] at hlt
  exact hapart ⟨t.start, ⟨h, by omega⟩, Nat.le_refl _, by omega⟩

theorem Overlap.symm {s t : Stretch} (h : s.Overlap t) : t.Overlap s := by
  obtain ⟨i, hs, ht⟩ := h
  exact ⟨i, ht, hs⟩

variable {α : Type} (span : α → Stretch)

def Refused (chosen : List α) (a : α) : Prop :=
  (span a).length = 0 ∨ ∃ c ∈ chosen, (span c).Overlap (span a)

inductive Selects : List α → List α → Prop where
  | nil : Selects [] []
  | skip {offered chosen a} : Selects offered chosen → Refused span chosen a →
      Selects (offered ++ [a]) chosen
  | keep {offered chosen a} : Selects offered chosen → ¬Refused span chosen a →
      Selects (offered ++ [a]) (chosen ++ [a])

variable {span} {offered chosen : List α}

theorem Selects.nonempty (h : Selects span offered chosen) : ∀ c ∈ chosen, 0 < (span c).length := by
  induction h with
  | nil => exact nofun
  | skip _ _ ih => exact ih
  | keep _ hkeep ih =>
    intro c hc
    rcases List.mem_append.mp hc with hc | hc
    · exact ih c hc
    · obtain rfl := List.mem_singleton.mp hc
      exact Nat.pos_of_ne_zero fun hzero => hkeep (.inl hzero)

theorem Selects.mem (h : Selects span offered chosen) : ∀ c ∈ chosen, c ∈ offered := by
  induction h with
  | nil => exact nofun
  | skip _ _ ih => exact fun c hc => List.mem_append_left _ (ih c hc)
  | keep _ _ ih =>
    intro c hc
    rcases List.mem_append.mp hc with hc | hc
    · exact List.mem_append_left _ (ih c hc)
    · exact List.mem_append_right _ hc

theorem Selects.apart (h : Selects span offered chosen) :
    chosen.Pairwise fun s t => ¬(span s).Overlap (span t) := by
  induction h with
  | nil => exact .nil
  | skip _ _ ih => exact ih
  | keep _ hkeep ih =>
    refine List.pairwise_append.mpr ⟨ih, List.pairwise_singleton _ _, fun s hs t ht hover => ?_⟩
    obtain rfl := List.mem_singleton.mp ht
    exact hkeep (.inr ⟨s, hs, hover⟩)

theorem Selects.nil_of_empty (h : ∀ a ∈ offered, (span a).length = 0) :
    Selects span offered [] := by
  induction offered using List.reverseRecOn with
  | nil => exact .nil
  | append_singleton offered a ih =>
    have hlast := h a (List.mem_append_right _ (List.mem_singleton_self a))
    exact .skip (ih fun b hb => h b (List.mem_append_left _ hb)) (.inl hlast)

theorem Selects.empty_of_nil (h : Selects span offered []) :
    ∀ a ∈ offered, (span a).length = 0 := by
  generalize hchosen : ([] : List α) = chosen at h
  induction h with
  | nil => exact nofun
  | skip _ hrefused ih =>
    subst hchosen
    intro b hb
    rcases List.mem_append.mp hb with hb | hb
    · exact ih rfl b hb
    · obtain rfl := List.mem_singleton.mp hb
      exact hrefused.resolve_right fun ⟨c, hc, _⟩ => List.not_mem_nil hc
  | keep _ _ _ => exact absurd hchosen (by simp)

theorem Selects.sorted {sorted : List α} (h : Selects span offered chosen)
    (hperm : sorted.Perm chosen)
    (horder : sorted.Pairwise fun s t => (span s).start ≤ (span t).start) :
    sorted.Pairwise fun s t => (span s).Before (span t) := by
  have hapart : sorted.Pairwise fun s t => ¬(span s).Overlap (span t) :=
    (hperm.pairwise_iff fun hst hts => hst hts.symm).mpr h.apart
  refine (horder.and hapart).imp_of_mem fun {s t} _ ht ⟨hle, hst⟩ => ?_
  exact before_of_start (h.nonempty t (hperm.mem_iff.mp ht)) hst hle

end Stretch

-- A search that goes on from `resume i` after it has found something at `i`.
structure Finder where
  found : Nat → Bool
  resume : Nat → Nat
  lt_resume : ∀ i, i < resume i

namespace Finder

variable (s : Finder)

def next (n start : Nat) : Option Nat := (List.range' start (n - start)).find? s.found

variable {s} {n start i : Nat}

theorem next_eq_none (h : s.next n start = none) {j : Nat} (hstart : start ≤ j) (hn : j < n) :
    s.found j = false := by
  have hj := List.find?_eq_none.mp h j (List.mem_range'_1.mpr ⟨hstart, by omega⟩)
  exact Bool.not_eq_true _ ▸ hj

theorem next_eq_some (h : s.next n start = some i) :
    s.found i = true ∧ start ≤ i ∧ i < n ∧ ∀ j, start ≤ j → j < i → s.found j = false := by
  obtain ⟨hfound, k, hk, hi, hbefore⟩ := List.find?_eq_some_iff_getElem.mp h
  rw [List.getElem_range', Nat.one_mul] at hi
  rw [List.length_range'] at hk
  refine ⟨hfound, by omega, by omega, fun j hstart hj => ?_⟩
  have hearlier := hbefore (j - start) (by omega)
  rw [List.getElem_range', Nat.one_mul, Nat.add_sub_cancel' hstart] at hearlier
  exact Bool.not_eq_true' _ ▸ hearlier

def all (s : Finder) (n start : Nat) : List Nat :=
  match _h : s.next n start with
  | none => []
  | some i => i :: all s n (s.resume i)
termination_by n - start
decreasing_by
  have hi := next_eq_some _h
  have hresume := s.lt_resume i
  omega

theorem mem_all (h : i ∈ s.all n start) : s.found i = true ∧ start ≤ i ∧ i < n := by
  induction start using all.induct s n with
  | case1 start hnone =>
    rw [all, hnone] at h
    exact absurd h List.not_mem_nil
  | case2 start k hsome ih =>
    have hk := next_eq_some hsome
    rw [all, hsome] at h
    rcases List.mem_cons.mp h with rfl | h
    · exact ⟨hk.1, hk.2.1, hk.2.2.1⟩
    · have hresume := s.lt_resume k
      obtain ⟨hfound, hstart, hn⟩ := ih h
      exact ⟨hfound, by omega, hn⟩

-- What it finds lies apart.
theorem pairwise_all : (s.all n start).Pairwise fun i j => s.resume i ≤ j := by
  induction start using all.induct s n with
  | case1 start hnone =>
    rw [all, hnone]
    exact .nil
  | case2 start k hsome ih =>
    rw [all, hsome]
    exact .cons (fun j hj => (mem_all hj).2.1) ih

theorem apart_all {k : Nat} (hi : i ∈ s.all n start) (hk : k ∈ s.all n start) :
    i = k ∨ s.resume i ≤ k ∨ s.resume k ≤ i := by
  have hforward : (s.all n start).Pairwise fun i k => i = k ∨ s.resume i ≤ k ∨ s.resume k ≤ i :=
    pairwise_all.imp fun h => .inr (.inl h)
  have hbackward : (s.all n start).Pairwise (flip fun i k =>
      i = k ∨ s.resume i ≤ k ∨ s.resume k ≤ i) := pairwise_all.imp fun h => .inr (.inr h)
  exact hforward.forall_of_forall_of_flip (fun _ _ => .inl rfl) hbackward hi hk

-- What it does not find starts inside something found before.
theorem covered_all {j : Nat} (hfound : s.found j = true) (hstart : start ≤ j) (hn : j < n) :
    ∃ i ∈ s.all n start, i ≤ j ∧ j < s.resume i := by
  induction start using all.induct s n with
  | case1 start hnone =>
    rw [next_eq_none hnone hstart hn] at hfound
    cases hfound
  | case2 start k hsome ih =>
    rw [all, hsome]
    have hk := next_eq_some hsome
    by_cases hresume : s.resume k ≤ j
    · obtain ⟨i, hi, hcover⟩ := ih hresume
      exact ⟨i, List.mem_cons_of_mem _ hi, hcover⟩
    · refine ⟨k, List.mem_cons_self, ?_, by omega⟩
      by_contra hlt
      rw [hk.2.2.2 j hstart (by omega)] at hfound
      cases hfound

theorem mem_all_iff (hstep : ∀ i, s.resume i = i + 1) :
    i ∈ s.all n start ↔ s.found i = true ∧ start ≤ i ∧ i < n := by
  refine ⟨mem_all, fun ⟨hfound, hstart, hn⟩ => ?_⟩
  obtain ⟨k, hk, hle, hlt⟩ := covered_all hfound hstart hn
  rw [hstep] at hlt
  have heq : i = k := by omega
  exact heq ▸ hk

variable (s n start) in
def covering (c : Nat) : Option Nat :=
  (s.all n start).find? fun i => decide (i ≤ c) && decide (c < s.resume i)

theorem covering_eq_some_iff {c : Nat} :
    s.covering n start c = some i ↔ i ∈ s.all n start ∧ i ≤ c ∧ c < s.resume i := by
  constructor
  · intro h
    have hcover := List.find?_some h
    rw [Bool.and_eq_true, decide_eq_true_eq, decide_eq_true_eq] at hcover
    exact ⟨List.mem_of_find?_eq_some h, hcover⟩
  · rintro ⟨hi, hle, hlt⟩
    cases hfind : s.covering n start c with
    | none =>
      have hmiss := List.find?_eq_none.mp hfind i hi
      simp [hle, hlt] at hmiss
    | some k =>
      have hk := List.mem_of_find?_eq_some hfind
      have hcover := List.find?_some hfind
      rw [Bool.and_eq_true, decide_eq_true_eq, decide_eq_true_eq] at hcover
      rcases apart_all hi hk with rfl | hik | hki
      · rfl
      · omega
      · omega

end Finder

namespace Marker

variable {α : Type}

def upTo [DecidableEq α] (marker : List α) : List α → Option (List α)
  | [] => if marker = [] then some [] else none
  | x :: xs => if marker <+: x :: xs then some [] else (upTo marker xs).map (x :: ·)

theorem upTo_of_prefix [DecidableEq α] {marker xs : List α} (h : marker <+: xs) :
    upTo marker xs = some [] := by
  cases xs with
  | nil => simp [upTo, List.prefix_nil.mp h]
  | cons x xs => simp [upTo, h]

theorem prefix_append_marker_iff {c : α} {cs : List α} (hc : c ∉ cs) (t rest : List α)
    (ht : t ≠ []) : c :: cs <+: t ++ (c :: cs ++ rest) ↔ c :: cs <+: t := by
  refine ⟨fun h => ?_, fun h => h.trans (List.prefix_append _ _)⟩
  rcases List.prefix_or_prefix_of_prefix h (List.prefix_append t _) with h' | ⟨u, hu⟩
  · exact h'
  · cases u with
    | nil => exact ⟨[], by rw [← hu, List.append_nil, List.append_nil]⟩
    | cons d us =>
      have htail : t ++ d :: us <+: t ++ c :: (cs ++ rest) := by
        rw [hu]
        exact h
      have hd : d = c :=
        (List.cons_prefix_cons.mp ((List.prefix_append_right_inj t).mp htail)).1
      obtain ⟨y, ys, rfl⟩ := List.exists_cons_of_ne_nil ht
      have hcs : ys ++ d :: us = cs := (List.cons.inj hu).2
      exact absurd (by rw [← hcs, hd]; simp) hc

theorem upTo_marker_iff [DecidableEq α] {c : α} {cs : List α} (hc : c ∉ cs) (text rest : List α) :
    upTo (c :: cs) (text ++ (c :: cs ++ rest)) = some text ↔ ¬c :: cs <:+: text := by
  induction text with
  | nil =>
    have h : upTo (c :: cs) ([] ++ (c :: cs ++ rest)) = some [] :=
      upTo_of_prefix (List.prefix_append (c :: cs) rest)
    exact iff_of_true h (by simp)
  | cons x xs ih =>
    have hp := prefix_append_marker_iff hc (x :: xs) rest (by simp)
    rw [List.infix_cons_iff, not_or, ← hp, ← ih]
    rw [List.cons_append] at hp ⊢
    by_cases hprefix : c :: cs <+: x :: (xs ++ (c :: cs ++ rest))
    · simp only [upTo, hprefix, if_true]
      simp
    · simp only [upTo, hprefix, if_false, not_false_eq_true, true_and]
      constructor
      · intro h
        obtain ⟨before, hbefore, hx⟩ := Option.map_eq_some_iff.mp h
        rw [hbefore, (List.cons.inj hx).2]
      · intro h
        rw [h]
        rfl

end Marker
