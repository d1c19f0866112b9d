import Mathlib.Data.List.Basic

namespace Lines

variable {α σ ρ : Type}

inductive Scan (α σ ρ : Type) where
  | more (state : σ) (buffer : List α)
  | stop (result : ρ) (buffer : List α)

-- A buffer, and what comes in later: a wait that times out is none.
structure Source (α : Type) where
  buffer : List α
  arrivals : List (Option (List α))

namespace Source

def unread (s : Source α) : List α := s.buffer ++ s.arrivals.flatMap (·.getD [])

def Flowing (s : Source α) : Prop := ∀ a ∈ s.arrivals, a ≠ none

end Source

def collect (seen : List (List α)) (line : List α) : List (List α) ⊕ Empty := .inl (seen ++ [line])

section Read

variable [DecidableEq α] (sep : α) (step : σ → List α → σ ⊕ ρ)

def readLine : List α → Option (List α × List α)
  | [] => none
  | x :: xs => if x = sep then some ([x], xs) else (readLine xs).map fun r => (x :: r.1, r.2)

def loop : Nat → σ → List α → Scan α σ ρ
  | 0, s, b => .more s b
  | n + 1, s, b =>
      match readLine sep b with
      | none => .more s b
      | some (line, rest) =>
          match step s line with
          | .inl s' => loop n s' rest
          | .inr r => .stop r rest

def read : σ → List α → List (Option (List α)) → (σ ⊕ ρ) × Source α
  | s, b, [] =>
      match loop sep step b.length s b with
      | .more s' b' => (.inl s', ⟨b', []⟩)
      | .stop r rest => (.inr r, ⟨rest, []⟩)
  | s, b, a :: as =>
      match loop sep step b.length s b with
      | .more s' b' =>
          match a with
          | none => (.inl s', ⟨b', as⟩)
          | some chunk => read s' (b' ++ chunk) as
      | .stop r rest => (.inr r, ⟨rest, a :: as⟩)

-- The lines of a stream one element at a time, with the part of a line that came so far.
def scan : σ → List α → List α → Scan α σ ρ
  | s, part, [] => .more s part
  | s, part, x :: xs =>
      if x = sep then
        match step s (part ++ [x]) with
        | .inl s' => scan s' [] xs
        | .inr r => .stop r xs
      else scan s (part ++ [x]) xs

def Scan.feed (more : List α) : Scan α σ ρ → Scan α σ ρ
  | .more s part => scan sep step s part more
  | .stop r rest => .stop r (rest ++ more)

end Read

variable [DecidableEq α] {sep : α} {step : σ → List α → σ ⊕ ρ}

theorem readLine_eq_none {b : List α} : readLine sep b = none ↔ sep ∉ b := by
  induction b with
  | nil => simp [readLine]
  | cons x xs ih =>
    by_cases hx : x = sep
    · simp [readLine, hx]
    · simp [readLine, hx, ih, Ne.symm hx]

theorem readLine_eq_some {b line rest : List α} :
    readLine sep b = some (line, rest) ↔
      ∃ text, sep ∉ text ∧ line = text ++ [sep] ∧ b = line ++ rest := by
  induction b generalizing line with
  | nil =>
    refine iff_of_false nofun ?_
    rintro ⟨text, -, rfl, h⟩
    simp at h
  | cons x xs ih =>
    rw [readLine]
    split
    · rename_i hx
      subst hx
      constructor
      · rintro ⟨rfl, rfl⟩
        exact ⟨[], List.not_mem_nil, rfl, rfl⟩
      · rintro ⟨text, htext, rfl, h⟩
        cases text with
        | nil => simp_all
        | cons y ys =>
          obtain ⟨rfl, -⟩ := List.cons.inj h
          exact absurd List.mem_cons_self htext
    · rename_i hx
      constructor
      · intro h
        obtain ⟨⟨line', rest'⟩, hread, heq⟩ := Option.map_eq_some_iff.mp h
        obtain ⟨rfl, rfl⟩ := Prod.mk.inj heq
        obtain ⟨text, htext, rfl, rfl⟩ := ih.mp hread
        exact ⟨x :: text, List.not_mem_cons_of_ne_of_not_mem (Ne.symm hx) htext, rfl, rfl⟩
      · rintro ⟨text, htext, rfl, h⟩
        cases text with
        | nil =>
          obtain ⟨rfl, -⟩ := List.cons.inj h
          exact absurd rfl hx
        | cons y ys =>
          obtain ⟨rfl, hrest⟩ := List.cons.inj h
          have htail : sep ∉ ys := fun hmem => htext (List.mem_cons_of_mem _ hmem)
          rw [ih.mpr ⟨ys, htail, rfl, hrest⟩]
          rfl

theorem scan_append (s : σ) (part xs ys : List α) :
    scan sep step s part (xs ++ ys) = (scan sep step s part xs).feed sep step ys := by
  induction xs generalizing s part with
  | nil => rfl
  | cons x xs ih =>
    rw [List.cons_append, scan, scan]
    split
    · cases step s (part ++ [x]) with
      | inl s' => exact ih s' []
      | inr r => rfl
    · exact ih s (part ++ [x])

theorem scan_part {s : σ} {part text : List α} (h : sep ∉ text) :
    scan sep step s part text = .more s (part ++ text) := by
  induction text generalizing part with
  | nil => rw [List.append_nil, scan]
  | cons x xs ih =>
    rw [List.mem_cons, not_or] at h
    rw [scan, if_neg (Ne.symm h.1), ih h.2, List.append_assoc]
    rfl

theorem scan_line {s : σ} {text : List α} (h : sep ∉ text) (rest : List α) :
    scan sep step s [] (text ++ [sep] ++ rest) =
      match step s (text ++ [sep]) with
      | .inl s' => scan sep step s' [] rest
      | .inr r => .stop r rest := by
  rw [List.append_assoc, scan_append, scan_part h, List.nil_append, Scan.feed, List.singleton_append,
    scan, if_pos rfl]

theorem loop_eq_scan {n : Nat} {s : σ} {b : List α} (h : b.length ≤ n) :
    loop sep step n s b = scan sep step s [] b := by
  induction n generalizing s b with
  | zero =>
    obtain rfl := List.eq_nil_of_length_eq_zero (Nat.le_zero.mp h)
    rfl
  | succ n ih =>
    rw [loop]
    cases hread : readLine sep b with
    | none =>
      rw [scan_part (readLine_eq_none.mp hread)]
      rfl
    | some r =>
      obtain ⟨line, rest⟩ := r
      obtain ⟨text, htext, rfl, rfl⟩ := readLine_eq_some.mp hread
      rw [scan_line htext]
      simp only [List.length_append, List.length_cons, List.length_nil] at h
      dsimp only
      cases step s (text ++ [sep]) with
      | inl s' => exact @ih s' rest (by omega)
      | inr r => rfl

theorem scan_more {s s' : σ} {part b b' : List α} (hpart : sep ∉ part)
    (h : scan sep step s part b = .more s' b') : sep ∉ b' := by
  induction b generalizing s part with
  | nil =>
    obtain ⟨-, rfl⟩ := Scan.more.inj h
    exact hpart
  | cons x xs ih =>
    rw [scan] at h
    split at h
    · cases hstep : step s (part ++ [x]) with
      | inl s₁ =>
        rw [hstep] at h
        exact ih List.not_mem_nil h
      | inr r =>
        rw [hstep] at h
        cases h
    · rename_i hx
      exact ih (List.not_mem_append hpart (by simpa using Ne.symm hx)) h

theorem scan_resume {s : σ} {part : List α} (h : sep ∉ part) (b : List α) :
    scan sep step s [] (part ++ b) = scan sep step s part b := by
  rw [scan_append, scan_part h]
  rfl

-- How the stream was cut into arrivals makes no difference.
theorem read_flowing {s : σ} {b : List α} {as : List (Option (List α))}
    (hflow : ∀ a ∈ as, a ≠ none) :
    match scan sep step s [] (Source.unread ⟨b, as⟩) with
    | .more s' b' => read sep step s b as = (.inl s', ⟨b', []⟩)
    | .stop r rest => ∃ src, read sep step s b as = (.inr r, src) ∧ src.unread = rest ∧
        src.Flowing := by
  induction as generalizing s b with
  | nil =>
    rw [Source.unread, List.flatMap_nil, List.append_nil, read, loop_eq_scan (Nat.le_refl _)]
    cases scan sep step s [] b with
    | more s' b' => rfl
    | stop r rest => exact ⟨_, rfl, List.append_nil rest, nofun⟩
  | cons a as ih =>
    obtain ⟨chunk, rfl⟩ := Option.ne_none_iff_exists'.mp (hflow a List.mem_cons_self)
    have hunread : Source.unread ⟨b, some chunk :: as⟩ =
        b ++ Source.unread ⟨chunk, as⟩ := rfl
    rw [hunread, scan_append, read, loop_eq_scan (Nat.le_refl _)]
    cases hscan : scan sep step s [] b with
    | stop r rest => exact ⟨_, rfl, rfl, hflow⟩
    | more s' b' =>
      have hrest := @ih s' (b' ++ chunk) fun a ha => hflow a (List.mem_cons_of_mem _ ha)
      have hresume : scan sep step s' [] (Source.unread ⟨b' ++ chunk, as⟩) =
          scan sep step s' b' (Source.unread ⟨chunk, as⟩) := by
        rw [← scan_resume (scan_more List.not_mem_nil hscan), Source.unread, List.append_assoc]
        rfl
      rw [hresume] at hrest
      exact hrest

omit [DecidableEq α] in
theorem unread_append (ctrl : Source α) (chunks : List (List α)) :
    Source.unread ⟨ctrl.buffer, ctrl.arrivals ++ chunks.map some⟩ =
      ctrl.unread ++ chunks.flatten := by
  simp [Source.unread, List.flatMap_map]

omit [DecidableEq α] in
theorem flowing_append {ctrl : Source α} (h : ctrl.Flowing) (chunks : List (List α)) :
    Source.Flowing ⟨ctrl.buffer, ctrl.arrivals ++ chunks.map some⟩ := by
  intro a ha
  rcases List.mem_append.mp ha with ha | ha
  · exact h a ha
  · obtain ⟨chunk, -, rfl⟩ := List.mem_map.mp ha
    exact nofun

section Drain

-- The lines of a stream that is read until no whole one is left, chunk by chunk.
def drain (sep : α) (chunks : List (List α)) : List (List α) :=
  match (read sep collect [] [] (chunks.map some)).1 with
  | .inl lines => lines

theorem drain_eq_scan {chunks : List (List α)} {lines : List (List α)} {rest : List α}
    (h : scan sep collect [] [] chunks.flatten = .more lines rest) : drain sep chunks = lines := by
  have hflow : ∀ a ∈ chunks.map some, a ≠ none := by simp
  have hread := @read_flowing _ _ _ _ sep collect [] [] (chunks.map some) hflow
  have hunread : Source.unread ⟨[], chunks.map some⟩ = chunks.flatten := by
    simp [Source.unread, List.flatMap_map]
  rw [hunread, h] at hread
  dsimp only at hread
  rw [drain, hread]

theorem scan_collect (seen : List (List α)) (part b : List α) :
    ∃ lines rest, scan sep collect seen part b = .more (seen ++ lines) rest ∧
      lines.length = b.count sep := by
  induction b generalizing seen part with
  | nil => exact ⟨[], part, by rw [List.append_nil, scan], rfl⟩
  | cons x xs ih =>
    by_cases hx : x = sep
    · obtain ⟨lines, rest, hscan, hlength⟩ := ih (seen ++ [part ++ [x]]) []
      refine ⟨(part ++ [x]) :: lines, rest, ?_, ?_⟩
      · rw [scan, if_pos hx, collect]
        dsimp only
        rw [hscan, List.append_assoc, List.singleton_append]
      · rw [List.length_cons, hlength, hx, List.count_cons_self]
    · obtain ⟨lines, rest, hscan, hlength⟩ := ih seen (part ++ [x])
      refine ⟨lines, rest, ?_, ?_⟩
      · rw [scan, if_neg hx, hscan]
      · rw [hlength, List.count_cons_of_ne hx]

theorem length_drain (chunks : List (List α)) :
    (drain sep chunks).length = chunks.flatten.count sep := by
  obtain ⟨lines, rest, hscan, hlength⟩ := @scan_collect _ _ sep [] [] chunks.flatten
  rw [drain_eq_scan hscan, List.nil_append, hlength]

theorem drain_line {chunks : List (List α)} {text : List α} (h : sep ∉ text)
    (hchunks : chunks.flatten = text ++ [sep]) : drain sep chunks = [text ++ [sep]] := by
  have hscan := @scan_line _ _ _ _ sep collect [] text h []
  rw [List.append_nil, ← hchunks] at hscan
  exact hchunks ▸ drain_eq_scan hscan

end Drain

end Lines
