import Mathlib.Data.List.Basic

namespace Mealy

variable {σ ι ο : Type}

section Machine

variable (step : σ → ι → σ × List ο)

def after (s : σ) (is : List ι) : σ := is.foldl (fun s i => (step s i).1) s

def trace : σ → List ι → List (ι × List ο)
  | _, [] => []
  | s, i :: is => (i, (step s i).2) :: trace (step s i).1 is

def outputs (s : σ) (is : List ι) : List ο := (trace step s is).flatMap Prod.snd

def Along (ok : σ → ι → Prop) : σ → List ι → Prop
  | _, [] => True
  | s, i :: is => ok s i ∧ Along ok (step s i).1 is

end Machine

variable {step : σ → ι → σ × List ο} {ok : σ → ι → Prop} {s : σ} {i : ι} {is js : List ι}

@[simp]
theorem after_cons : after step s (i :: is) = after step (step s i).1 is := rfl

@[simp]
theorem trace_cons : trace step s (i :: is) = (i, (step s i).2) :: trace step (step s i).1 is := rfl

@[simp]
theorem outputs_cons :
    outputs step s (i :: is) = (step s i).2 ++ outputs step (step s i).1 is := rfl

theorem after_append : after step s (is ++ js) = after step (after step s is) js :=
  List.foldl_append

theorem trace_append :
    trace step s (is ++ js) = trace step s is ++ trace step (after step s is) js := by
  induction is generalizing s with
  | nil => rfl
  | cons i is ih => rw [List.cons_append, trace_cons, ih, trace_cons, after_cons, List.cons_append]

theorem outputs_append :
    outputs step s (is ++ js) = outputs step s is ++ outputs step (after step s is) js := by
  rw [outputs, trace_append, List.flatMap_append]
  rfl

theorem map_fst_trace : (trace step s is).map Prod.fst = is := by
  induction is generalizing s with
  | nil => rfl
  | cons i is ih => rw [trace_cons, List.map_cons, ih]

theorem along_iff : Along step ok s is ↔ ∀ a i b, is = a ++ i :: b → ok (after step s a) i := by
  induction is generalizing s with
  | nil => simp [Along]
  | cons i is ih =>
    rw [Along, ih]
    constructor
    · rintro ⟨hi, his⟩ a j b hsplit
      rcases List.cons_eq_append_iff.mp hsplit with ⟨rfl, hcons⟩ | ⟨a', rfl, hrest⟩
      · obtain ⟨rfl, -⟩ := List.cons.inj hcons
        exact hi
      · exact his a' j b hrest
    · intro h
      exact ⟨h [] i is rfl, fun a j b hsplit => h (i :: a) j b (by rw [hsplit, List.cons_append])⟩

-- A run that keeps `good` at every step is one that keeps to `ok`, where one step shows that.
theorem always_iff_along {good sane : σ → Prop} (hsane : ∀ s i, sane s → sane (step s i).1)
    (hstep : ∀ s i, sane s → good s → (good (step s i).1 ↔ ok s i)) (hs : sane s) (hgood : good s) :
    (∀ pre, pre <+: is → good (after step s pre)) ↔ Along step ok s is := by
  induction is generalizing s with
  | nil => simpa [Along, after] using hgood
  | cons i is ih =>
    constructor
    · intro h
      have hnext : good (step s i).1 := h [i] ⟨is, rfl⟩
      refine ⟨(hstep s i hs hgood).mp hnext, (ih (hsane s i hs) hnext).mp fun pre hpre => ?_⟩
      exact h (i :: pre) (List.cons_prefix_cons.mpr ⟨rfl, hpre⟩)
    · rintro ⟨hi, his⟩ pre hpre
      cases pre with
      | nil => exact hgood
      | cons j pre =>
        obtain ⟨rfl, hrest⟩ := List.cons_prefix_cons.mp hpre
        have hnext := (hstep s j hs hgood).mpr hi
        exact (ih (hsane s j hs) hnext).mpr his pre hrest

-- What a step puts out is paid for out of the budget of its state.
theorem count_le_budget {p : ο → Bool} (budget : σ → Nat)
    (h : ∀ s i, (step s i).2.countP p + budget (step s i).1 ≤ budget s) :
    (outputs step s is).countP p ≤ budget s := by
  induction is generalizing s with
  | nil => exact Nat.zero_le _
  | cons i is ih =>
    have hstep := h s i
    have hrest := ih (s := (step s i).1)
    rw [outputs_cons, List.countP_append]
    omega

theorem countP_le_of_dropLast {p : ο → Bool} {os : List ο} (h : ∀ o ∈ os.dropLast, p o = false) :
    os.countP p ≤ 1 := by
  rcases List.eq_nil_or_concat os with rfl | ⟨os, o, rfl⟩
  · exact Nat.zero_le _
  · rw [List.concat_eq_append] at h ⊢
    rw [List.dropLast_concat] at h
    have hnone : os.countP p = 0 := List.countP_eq_zero.mpr fun o ho => by simp [h o ho]
    rw [List.countP_append, hnone, Nat.zero_add]
    exact List.countP_le_length

theorem outputs_quiet (hquiet : ∀ i, ok s i → step s i = (s, [])) (h : Along step ok s is) :
    outputs step s is = [] := by
  induction is with
  | nil => rfl
  | cons i is ih =>
    obtain ⟨hi, his⟩ := h
    rw [hquiet i hi] at his
    rw [outputs_cons, hquiet i hi, List.nil_append]
    exact ih his

-- What a step puts out may depend on all that was put out before, by an invariant of that log.
theorem outputs_guarded {inv : σ → List ο → Prop} {guard : List ο → ο → Prop}
    (hstep : ∀ s log i, inv s log → inv (step s i).1 (log ++ (step s i).2) ∧
      ∀ before o rest, (step s i).2 = before ++ o :: rest → guard (log ++ before) o)
    {log : List ο} (h : inv s log) :
    inv (after step s is) (log ++ outputs step s is) ∧
      ∀ before o rest, outputs step s is = before ++ o :: rest → guard (log ++ before) o := by
  induction is generalizing s log with
  | nil =>
    refine ⟨(List.append_nil log).symm ▸ h, fun before o rest hnil => ?_⟩
    exact absurd hnil (List.append_ne_nil_of_right_ne_nil before (List.cons_ne_nil o rest)).symm
  | cons i is ih =>
    obtain ⟨hinv, hguard⟩ := hstep s log i h
    obtain ⟨hafter, hmore⟩ := ih hinv
    rw [outputs_cons, ← List.append_assoc]
    refine ⟨hafter, fun before o rest hsplit => ?_⟩
    rcases List.append_eq_append_iff.mp hsplit with ⟨late, rfl, hlate⟩ | ⟨early, hearly, hrest⟩
    · rw [← List.append_assoc]
      exact hmore late o rest hlate
    · cases early with
      | nil =>
        rw [List.append_nil] at hearly
        subst hearly
        have hnext := hmore [] o rest (by simpa using hrest.symm)
        rwa [List.append_nil] at hnext
      | cons p early =>
        obtain ⟨rfl, -⟩ := List.cons.inj (by simpa using hrest)
        exact hguard before o early hearly

-- Two machines in step put out the same, where the second meets its condition all along.
theorem refines {τ : Type} {step' : τ → ι → τ × List ο} {rel : σ → τ → Prop}
    {ok : τ → ι → Prop}
    (hstep : ∀ s t i, rel s t → ok t i → rel (step s i).1 (step' t i).1 ∧
      (step s i).2 = (step' t i).2)
    {t : τ} (h : rel s t) (his : Along step' ok t is) :
    rel (after step s is) (after step' t is) ∧ outputs step s is = outputs step' t is := by
  induction is generalizing s t with
  | nil => exact ⟨h, rfl⟩
  | cons i is ih =>
    obtain ⟨hi, his⟩ := his
    obtain ⟨hrel, hsame⟩ := hstep s t i h hi
    obtain ⟨hafter, hrest⟩ := ih hrel his
    exact ⟨hafter, by rw [outputs_cons, outputs_cons, hsame, hrest]⟩

-- What one party gets does not depend on the inputs of the others.
theorem isolated {κ : Type} [DecidableEq κ] {who : ι → κ} {same : κ → σ → σ → Prop}
    (hown : ∀ s t i, same (who i) s t →
      same (who i) (step s i).1 (step t i).1 ∧ (step s i).2 = (step t i).2)
    (hother : ∀ s t i k, who i ≠ k → same k s t → same k (step s i).1 t)
    {k : κ} {t : σ} (h : same k s t) :
    same k (after step s is) (after step t (is.filter fun i => who i = k)) ∧
      (trace step s is).filter (fun e => who e.1 = k) =
        trace step t (is.filter fun i => who i = k) := by
  induction is generalizing s t with
  | nil => exact ⟨h, rfl⟩
  | cons i is ih =>
    by_cases hi : who i = k
    · subst hi
      obtain ⟨hnext, hout⟩ := hown s t i h
      obtain ⟨hafter, htrace⟩ := ih hnext
      rw [List.filter_cons_of_pos (by simp), trace_cons, List.filter_cons_of_pos (by simp),
        trace_cons, htrace, hout]
      exact ⟨hafter, rfl⟩
    · obtain ⟨hafter, htrace⟩ := ih (hother s t i k hi h)
      rw [List.filter_cons_of_neg (by simpa using hi), trace_cons,
        List.filter_cons_of_neg (by simpa using hi)]
      exact ⟨hafter, htrace⟩

end Mealy
