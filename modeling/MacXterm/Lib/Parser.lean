import Mathlib.Data.List.Basic

abbrev Parser (α : Type) := StateT (List UInt8) Option α

namespace Parser

variable {α β : Type}

def take (n : Nat) : Parser (List UInt8) := fun b =>
  if b.length < n then none else some (b.take n, b.drop n)

def when (c : Bool) (p : Parser α) (otherwise : α) : Parser α :=
  if c then p else pure otherwise

def Reads (p : Parser α) (used : List UInt8) (a : α) : Prop :=
  ∀ rest, p (used ++ rest) = some (a, rest)

def Exact (p : Parser α) : Prop :=
  ∀ b a rest, p b = some (a, rest) → ∃ used, b = used ++ rest ∧ Reads p used a

theorem bind_eq (p : Parser α) (f : α → Parser β) (b : List UInt8) :
    (p >>= f) b = (p b).bind fun r => f r.1 r.2 := rfl

theorem reads_pure (a : α) : Reads (pure a : Parser α) [] a := fun _ => rfl

theorem reads_take (used : List UInt8) : Reads (take used.length) used used := by
  intro rest
  simp [take]

theorem Reads.bind {p : Parser α} {f : α → Parser β} {u v : List UInt8} {a : α} {b : β}
    (hp : Reads p u a) (hf : Reads (f a) v b) : Reads (p >>= f) (u ++ v) b := by
  intro rest
  rw [bind_eq, List.append_assoc, hp, Option.bind_some]
  exact hf rest

-- The parser repeats one step; the elements say what each repetition reads, and rep what of the
-- state the parser holds.
theorem reads_repeat {γ : Type} (rep : γ → β) {step : β → Parser β} {next : γ → α → γ}
    {bytes : α → List UInt8} (xs : List α)
    (h : ∀ b, ∀ a ∈ xs, Reads (step (rep b)) (bytes a) (rep (next b a))) (b : γ) :
    Reads ((List.range xs.length).foldlM (fun b _ => step b) (rep b)) (xs.flatMap bytes)
      (rep (xs.foldl next b)) := by
  induction xs generalizing b with
  | nil => exact reads_pure _
  | cons a xs ih =>
    rw [List.length_cons, List.range_succ_eq_map, List.foldlM_cons, List.flatMap_cons,
      List.foldl_cons]
    apply Reads.bind (h b a List.mem_cons_self)
    rw [List.foldlM_map]
    exact ih (fun b a ha => h b a (List.mem_cons_of_mem _ ha)) _

theorem exact_pure (a : α) : Exact (pure a : Parser α) := by
  rintro b a' rest h
  obtain ⟨rfl, rfl⟩ : a = a' ∧ b = rest := Prod.mk.inj (Option.some.inj h)
  exact ⟨[], rfl, reads_pure a⟩

theorem exact_take (n : Nat) : Exact (take n) := by
  rintro b a rest h
  unfold take at h
  split at h
  · simp at h
  · rename_i hn
    obtain ⟨rfl, rfl⟩ : b.take n = a ∧ b.drop n = rest := by simpa using h
    have hlength : (b.take n).length = n := by
      rw [List.length_take]
      omega
    refine ⟨b.take n, (List.take_append_drop n b).symm, ?_⟩
    have hr := reads_take (b.take n)
    rwa [hlength] at hr

theorem Exact.bind {p : Parser α} {f : α → Parser β} (hp : Exact p) (hf : ∀ a, Exact (f a)) :
    Exact (p >>= f) := by
  rintro b c rest h
  rw [bind_eq] at h
  obtain ⟨⟨a, mid⟩, ha, hc⟩ := Option.bind_eq_some_iff.mp h
  obtain ⟨u, rfl, hu⟩ := hp b a mid ha
  obtain ⟨v, rfl, hv⟩ := hf a mid c rest hc
  refine ⟨u ++ v, by rw [List.append_assoc], ?_⟩
  exact hu.bind hv

theorem exact_ite {c : Prop} [Decidable c] {p q : Parser α} (hp : Exact p) (hq : Exact q) :
    Exact (if c then p else q) := by
  split
  · exact hp
  · exact hq

theorem exact_when {p : Parser α} (hp : Exact p) (c : Bool) (a : α) : Exact (when c p a) := by
  cases c with
  | false => exact exact_pure a
  | true => exact hp

theorem exact_foldlM {step : β → α → Parser β} (h : ∀ b a, Exact (step b a)) (xs : List α)
    (b : β) : Exact (xs.foldlM step b) := by
  induction xs generalizing b with
  | nil => exact exact_pure b
  | cons a xs ih =>
    rw [List.foldlM_cons]
    exact (h b a).bind ih

theorem Exact.extend {p : Parser α} (hp : Exact p) {b rest : List UInt8} {a : α}
    (h : p b = some (a, rest)) (more : List UInt8) : p (b ++ more) = some (a, rest ++ more) := by
  obtain ⟨used, rfl, hu⟩ := hp b a rest h
  rw [List.append_assoc]
  exact hu (rest ++ more)

theorem Exact.none_of_proper {p : Parser α} (hp : Exact p) {used more : List UInt8} {a : α}
    (h : Reads p (used ++ more) a) (hmore : more ≠ []) : p used = none := by
  cases hread : p used with
  | none => rfl
  | some r =>
    obtain ⟨b, rest⟩ := r
    have hwhole := h []
    rw [List.append_nil, hp.extend hread more] at hwhole
    obtain ⟨-, hrest⟩ := Prod.mk.inj (Option.some.inj hwhole)
    exact absurd (List.append_eq_nil_iff.mp hrest).2 hmore

theorem Exact.length_le {p : Parser α} (hp : Exact p) {b rest : List UInt8} {a : α}
    (h : p b = some (a, rest)) : rest.length ≤ b.length := by
  obtain ⟨used, rfl, -⟩ := hp b a rest h
  simp

-- The parser, again and again until nothing is left.
def all (p : Parser α) : Nat → List UInt8 → Option (List α)
  | _, [] => some []
  | 0, _ :: _ => none
  | fuel + 1, c :: b => (p (c :: b)).bind fun r => (all p fuel r.2).map (r.1 :: ·)

theorem all_flatMap {p : Parser α} {bytes : α → List UInt8} (hreads : ∀ a, Reads p (bytes a) a)
    (hne : ∀ a, bytes a ≠ []) (as : List α) {fuel : Nat}
    (hfuel : (as.flatMap bytes).length ≤ fuel) : all p fuel (as.flatMap bytes) = some as := by
  induction as generalizing fuel with
  | nil =>
    unfold all
    rfl
  | cons a as ih =>
    have hread := hreads a (as.flatMap bytes)
    obtain ⟨c, b, hcons⟩ := List.exists_cons_of_ne_nil (hne a)
    rw [List.flatMap_cons, hcons, List.cons_append] at hfuel ⊢
    rw [hcons, List.cons_append] at hread
    cases fuel with
    | zero => simp at hfuel
    | succ fuel =>
      have hrest : (as.flatMap bytes).length ≤ fuel := by
        rw [List.length_cons, List.length_append] at hfuel
        omega
      rw [all, hread, Option.bind_some, ih hrest]
      rfl

end Parser
