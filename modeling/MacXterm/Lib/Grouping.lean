import Mathlib.Data.List.Nodup
import Mathlib.Data.List.Perm.Basic

structure Bucket (K α : Type) where
  label : K
  members : List α
  deriving DecidableEq

namespace Bucket

variable {K α : Type} [DecidableEq K]

def push (g : Bucket K α) (a : α) : Bucket K α := { g with members := g.members ++ [a] }

-- The labels met, in the order of their first meeting.
def note (seen : List K) (k : K) : List K := if k ∈ seen then seen else seen ++ [k]

theorem nodup_note {seen : List K} (h : seen.Nodup) (k : K) : (note seen k).Nodup := by
  unfold note
  split
  · exact h
  · rename_i hk
    exact List.nodup_append'.mpr ⟨h, List.nodup_singleton k, by simpa using hk⟩

theorem mem_note {seen : List K} {k x : K} : x ∈ note seen k ↔ x ∈ seen ∨ x = k := by
  unfold note
  split
  · rename_i hk
    exact ⟨.inl, fun h => h.elim id fun hx => hx ▸ hk⟩
  · rw [List.mem_append, List.mem_singleton]

variable (key : α → K)

def noteAll (seen : List K) (as : List α) : List K :=
  as.foldl (fun seen a => note seen (key a)) seen

theorem nodup_noteAll {seen : List K} (h : seen.Nodup) (as : List α) :
    (noteAll key seen as).Nodup := by
  induction as generalizing seen with
  | nil => exact h
  | cons a as ih => exact ih (nodup_note h (key a))

theorem mem_noteAll {seen : List K} {as : List α} {x : K} :
    x ∈ noteAll key seen as ↔ x ∈ seen ∨ ∃ a ∈ as, key a = x := by
  induction as generalizing seen with
  | nil => simp [noteAll]
  | cons a as ih =>
    have hstep : noteAll key seen (a :: as) = noteAll key (note seen (key a)) as := rfl
    rw [hstep, ih, mem_note, List.exists_mem_cons_iff, or_assoc, eq_comm (a := x)]

def classes (labels : List K) (as : List α) : List (Bucket K α) :=
  labels.map fun k => ⟨k, as.filter fun a => key a = k⟩

theorem classes_cons (k : K) (labels : List K) (as : List α) :
    classes key (k :: labels) as = ⟨k, as.filter fun a => key a = k⟩ :: classes key labels as :=
  rfl

theorem labels_classes (labels : List K) (as : List α) :
    (classes key labels as).map label = labels := by
  rw [classes, List.map_map]
  exact List.map_id labels

theorem classes_congr {labels : List K} {as bs : List α}
    (h : ∀ k ∈ labels, (as.filter fun a => key a = k) = bs.filter fun a => key a = k) :
    classes key labels as = classes key labels bs :=
  List.map_congr_left fun k hk => by rw [h k hk]

theorem classes_skip {labels : List K} {a : α} (h : key a ∉ labels) (as : List α) :
    classes key labels (as ++ [a]) = classes key labels as := by
  refine classes_congr key fun k hk => ?_
  have hne : ¬key a = k := fun heq => h (heq ▸ hk)
  rw [List.filter_append, List.filter_cons_of_neg (by simpa using hne), List.filter_nil,
    List.append_nil]

theorem filter_same (a : α) (as : List α) :
    ((as ++ [a]).filter fun b => key b = key a) = (as.filter fun b => key b = key a) ++ [a] := by
  rw [List.filter_append, List.filter_cons_of_pos (by simp), List.filter_nil]

theorem classes_push {labels : List K} (hnodup : labels.Nodup) {a : α} {i : Nat}
    (h : labels[i]? = some (key a)) (as : List α) :
    (classes key labels as).modify i (·.push a) = classes key labels (as ++ [a]) := by
  induction labels generalizing i with
  | nil => cases h
  | cons k labels ih =>
    obtain ⟨hk, hnodup⟩ := List.nodup_cons.mp hnodup
    rw [classes_cons, classes_cons]
    cases i with
    | zero =>
      obtain rfl : k = key a := Option.some.inj h
      rw [List.modify_zero_cons, classes_skip key hk, filter_same]
      rfl
    | succ i =>
      rw [List.getElem?_cons_succ] at h
      have hne : ¬key a = k := fun heq => hk (heq ▸ List.mem_of_getElem? h)
      rw [List.modify_succ_cons, ih hnodup h, List.filter_append,
        List.filter_cons_of_neg (by simpa using hne), List.filter_nil, List.append_nil]

theorem classes_new {labels : List K} {as : List α} (hcover : ∀ b ∈ as, key b ∈ labels) {a : α}
    (h : key a ∉ labels) :
    classes key labels as ++ [⟨key a, [a]⟩] = classes key (labels ++ [key a]) (as ++ [a]) := by
  have hnone : (as.filter fun b => key b = key a) = [] := by
    rw [List.filter_eq_nil_iff]
    intro b hb heq
    exact h (of_decide_eq_true heq ▸ hcover b hb)
  have hlast : classes key [key a] (as ++ [a]) = [⟨key a, [a]⟩] := by
    rw [classes_cons, filter_same, hnone]
    rfl
  have hsplit : classes key (labels ++ [key a]) (as ++ [a]) =
      classes key labels (as ++ [a]) ++ classes key [key a] (as ++ [a]) := List.map_append
  rw [hsplit, hlast, classes_skip key h]

theorem perm_classes {labels : List K} (hnodup : labels.Nodup) {as : List α}
    (hcover : ∀ a ∈ as, key a ∈ labels) : ((classes key labels as).flatMap members).Perm as := by
  induction labels generalizing as with
  | nil =>
    obtain rfl : as = [] := List.eq_nil_iff_forall_not_mem.mpr fun a ha => by cases hcover a ha
    exact .nil
  | cons k labels ih =>
    obtain ⟨hk, hnodup⟩ := List.nodup_cons.mp hnodup
    let others := as.filter fun a => !decide (key a = k)
    have hsame : classes key labels as = classes key labels others := by
      refine classes_congr key fun j hj => ?_
      rw [List.filter_filter]
      refine List.filter_congr fun a _ => ?_
      have hne : j ≠ k := fun hjk => hk (hjk ▸ hj)
      by_cases ha : key a = j
      · simp [ha, hne]
      · simp [ha]
    have hothers : ∀ a ∈ others, key a ∈ labels := by
      intro a ha
      obtain ⟨hmem, hak⟩ := List.mem_filter.mp ha
      exact (List.mem_cons.mp (hcover a hmem)).resolve_left (by simpa using hak)
    rw [classes_cons, List.flatMap_cons, hsame]
    exact ((ih hnodup hothers).append_left _).trans (List.filter_append_perm _ as)

end Bucket

-- A sequence cut at its headings; what stands before the first one is under `top`.
namespace Sections

variable {α β κ ρ : Type} (heading : α → Option β)

def cut : β → List α → List α → List (β × List α)
  | top, body, [] => [(top, body)]
  | top, body, x :: xs =>
      match heading x with
      | some h => (top, body) :: cut h [] xs
      | none => cut top (body ++ [x]) xs

variable (add : κ → α → κ) (empty : κ) (flush : ρ → β → κ → ρ)

-- One pass, with the heading it is under and what has been gathered there.
def step (s : ρ × β × κ) (x : α) : ρ × β × κ :=
  match heading x with
  | some h => (flush s.1 s.2.1 s.2.2, h, empty)
  | none => (s.1, s.2.1, add s.2.2 x)

def finish (s : ρ × β × κ) : ρ := flush s.1 s.2.1 s.2.2

theorem finish_foldl (xs : List α) (r : ρ) (top : β) (body : List α) :
    finish flush (xs.foldl (step heading add empty flush) (r, top, body.foldl add empty)) =
      (cut heading top body xs).foldl (fun r g => flush r g.1 (g.2.foldl add empty)) r := by
  induction xs generalizing r top body with
  | nil => rfl
  | cons x xs ih =>
    rw [List.foldl_cons, step, cut]
    cases heading x with
    | some h => exact ih (flush r top (body.foldl add empty)) h []
    | none =>
      have hbody : add (body.foldl add empty) x = (body ++ [x]).foldl add empty := by
        rw [List.foldl_append]
        rfl
      simp only [hbody]
      exact ih r top (body ++ [x])

variable {heading}

theorem cut_append {x : α} {h top : β} (hx : heading x = some h) (xs ys body : List α) :
    cut heading top body (xs ++ x :: ys) = cut heading top body xs ++ cut heading h [] ys := by
  induction xs generalizing top body with
  | nil => simp only [List.nil_append, cut, hx, List.singleton_append]
  | cons y xs ih =>
    rw [List.cons_append, cut, cut]
    cases heading y with
    | some k => exact congrArg (List.cons (top, body)) (ih [])
    | none => exact ih (body ++ [y])

theorem cut_body {top : β} {xs : List α} (hxs : ∀ x ∈ xs, heading x = none) (body : List α) :
    cut heading top body xs = [(top, body ++ xs)] := by
  induction xs generalizing body with
  | nil => rw [cut, List.append_nil]
  | cons x xs ih =>
    rw [List.forall_mem_cons] at hxs
    simp only [cut, hxs.1, ih hxs.2, List.append_assoc, List.singleton_append]

theorem cut_sections {head : β → α} (sections : List (β × List α))
    (hhead : ∀ g ∈ sections, heading (head g.1) = some g.1)
    (hbody : ∀ g ∈ sections, ∀ x ∈ g.2, heading x = none) (top : β) {body : List α}
    (htop : ∀ x ∈ body, heading x = none) :
    cut heading top [] (body ++ sections.flatMap fun g => head g.1 :: g.2) =
      (top, body) :: sections := by
  induction sections generalizing top body with
  | nil => rw [List.flatMap_nil, List.append_nil, cut_body htop, List.nil_append]
  | cons g sections ih =>
    rw [List.forall_mem_cons] at hhead hbody
    rw [List.flatMap_cons, List.cons_append, cut_append hhead.1, cut_body htop,
      ih hhead.2 hbody.2 g.1 hbody.1]
    rfl

end Sections
