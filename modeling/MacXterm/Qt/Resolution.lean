import Mathlib.Data.List.Induction
import Mathlib.Logic.Relation
import MacXterm.Qt.Segments

namespace Qt.QDir

open Relation

-- Lexical resolution, one segment at a time and in any order.
inductive Resolve (rooted : Bool) : List QString → List QString → Prop where
  | skip (front : List QString) (s : QString) (back : List QString) (h : s = [] ∨ s = ['.']) :
      Resolve rooted (front ++ s :: back) (front ++ back)
  | cancel (front : List QString) (s : QString) (back : List QString) (h : Plain s) :
      Resolve rooted (front ++ s :: dotDot :: back) (front ++ back)
  | top (back : List QString) (h : rooted = true) : Resolve rooted (dotDot :: back) back

def Resolved (rooted : Bool) (names : List QString) : Prop := ∀ next, ¬ Resolve rooted names next

def written (rooted : Bool) (names : List QString) : QString :=
  if rooted then '/' :: ['/'].intercalate names
  else if names = [] then ['.'] else ['/'].intercalate names

-- q is the text of what the path p resolves to.
def ResolvesTo (p q : QString) : Prop :=
  ∃ names, ReflTransGen (Resolve (isRooted p)) (p.splitOn '/') names ∧
    Resolved (isRooted p) names ∧ q = written (isRooted p) names

section Resolve

variable {rooted : Bool} {xs ys names : List QString}

theorem written_reverse (rooted : Bool) (stack : List QString) :
    written rooted stack.reverse = render rooted stack := by
  simp only [written, render, List.reverse_eq_nil_iff]

theorem Resolve.append (h : Resolve rooted xs ys) (zs : List QString) :
    Resolve rooted (xs ++ zs) (ys ++ zs) := by
  cases h with
  | skip front s back h =>
    rw [List.append_assoc, List.append_assoc, List.cons_append]
    exact .skip front s _ h
  | cancel front s back h =>
    rw [List.append_assoc, List.append_assoc, List.cons_append, List.cons_append]
    exact .cancel front s _ h
  | top _ h => exact .top _ h

theorem resolves_append (h : ReflTransGen (Resolve rooted) xs ys) (zs : List QString) :
    ReflTransGen (Resolve rooted) (xs ++ zs) (ys ++ zs) := by
  induction h with
  | refl => exact .refl
  | tail _ hstep ih => exact ih.tail (hstep.append zs)

-- The stack machine does not see the steps.
theorem foldl_of_resolve (h : Resolve rooted xs ys) :
    xs.foldl (pushSegment rooted) [] = ys.foldl (pushSegment rooted) [] := by
  cases h with
  | skip front s back h =>
    rw [List.foldl_append, List.foldl_append, List.foldl_cons]
    simp only [pushSegment, h, if_true]
  | cancel front s back h =>
    obtain ⟨-, h1, h2, h3⟩ := h
    rw [List.foldl_append, List.foldl_append, List.foldl_cons, List.foldl_cons]
    simp [pushSegment, dotDot, h1, h2, h3]
  | top _ h =>
    subst h
    rfl

theorem foldl_of_resolves (h : ReflTransGen (Resolve rooted) xs ys) :
    xs.foldl (pushSegment rooted) [] = ys.foldl (pushSegment rooted) [] := by
  induction h with
  | refl => rfl
  | tail _ hstep ih => exact ih.trans (foldl_of_resolve hstep)

theorem mem_of_resolves (h : ReflTransGen (Resolve rooted) xs ys) : ys ⊆ xs := by
  induction h with
  | refl => exact List.Subset.refl _
  | tail _ hstep ih =>
    refine List.Subset.trans (fun s hs => ?_) ih
    cases hstep with
    | skip front t back h =>
      rcases List.mem_append.mp hs with hs | hs
      · exact List.mem_append_left _ hs
      · exact List.mem_append_right _ (List.mem_cons_of_mem _ hs)
    | cancel front t back h =>
      rcases List.mem_append.mp hs with hs | hs
      · exact List.mem_append_left _ hs
      · exact List.mem_append_right _ (List.mem_cons_of_mem _ (List.mem_cons_of_mem _ hs))
    | top _ h => exact List.mem_cons_of_mem _ hs

theorem Canonical.of_append {front back : List QString} (h : Canonical rooted (front ++ back)) :
    Canonical rooted back := by
  induction front with
  | nil => exact h
  | cons s front ih => exact ih h.2

theorem resolved_of_canonical (h : Canonical rooted names.reverse) : Resolved rooted names := by
  intro next hstep
  cases hstep with
  | skip front s back hs =>
    rw [List.reverse_append, List.reverse_cons, List.append_assoc, List.singleton_append] at h
    rcases h.of_append.1 with hplain | ⟨hdots, -, -⟩
    · rcases hs with hs | hs
      · exact hplain.2.1 hs
      · exact hplain.2.2.1 hs
    · rw [hdots] at hs
      exact absurd hs (by decide)
  | cancel front s back hs =>
    rw [List.reverse_append, List.reverse_cons, List.reverse_cons, List.append_assoc,
      List.append_assoc, List.singleton_append, List.singleton_append] at h
    rcases h.of_append.1 with hplain | ⟨-, -, hall⟩
    · exact hplain.2.2.2 rfl
    · exact hs.2.2.2 (hall s List.mem_cons_self)
  | top _ hr =>
    rw [List.reverse_cons] at h
    rcases h.of_append.1 with hplain | ⟨-, hfalse, -⟩
    · exact hplain.2.2.2 rfl
    · rw [hr] at hfalse
      cases hfalse

theorem canonical_of_resolved (hs : ∀ s ∈ names, '/' ∉ s) (h : Resolved rooted names) :
    Canonical rooted names.reverse := by
  induction names using List.reverseRecOn with
  | nil => trivial
  | append_singleton init s ih =>
    have hinit : Canonical rooted init.reverse :=
      ih (fun t ht => hs t (List.mem_append_left _ ht)) fun next hnext => h _ (hnext.append [s])
    have hslash := hs s (List.mem_append_right _ (List.mem_singleton.mpr rfl))
    rw [List.reverse_concat]
    refine ⟨?_, hinit⟩
    by_cases hskip : s = [] ∨ s = ['.']
    · exact absurd (Resolve.skip init s [] hskip) (h _)
    · rw [not_or] at hskip
      by_cases hdots : s = ['.', '.']
      · refine .inr ⟨hdots, ?_⟩
        rcases List.eq_nil_or_concat' init with rfl | ⟨front, t, rfl⟩
        · cases rooted with
          | false => exact ⟨rfl, nofun⟩
          | true =>
            subst hdots
            exact absurd (Resolve.top [] rfl) (h _)
        · rw [List.reverse_concat] at hinit ⊢
          rcases hinit.1 with hplain | ⟨ht, hr, hall⟩
          · subst hdots
            rw [List.append_assoc] at h
            exact absurd (Resolve.cancel front t [] hplain) (h _)
          · exact ⟨hr, List.forall_mem_cons.mpr ⟨ht, hall⟩⟩
      · exact .inl ⟨hslash, hskip.1, hskip.2, hdots⟩

theorem resolves_push {stack : List QString} (h : Canonical rooted stack) (s : QString)
    (hs : '/' ∉ s) :
    ReflTransGen (Resolve rooted) (stack.reverse ++ [s]) (pushSegment rooted stack s).reverse := by
  rw [pushSegment.eq_def]
  split
  · rename_i hskip
    have hstep := @Resolve.skip rooted stack.reverse s [] hskip
    rw [List.append_nil] at hstep
    exact .single hstep
  · split
    · rename_i hdots
      cases stack with
      | nil =>
        cases rooted with
        | true =>
          subst hdots
          exact .single (.top [] rfl)
        | false => exact .refl
      | cons top rest =>
        dsimp only
        split
        · rw [List.reverse_cons, List.reverse_cons, List.reverse_cons]
        · rename_i hskip htop
          have hplain : Plain top := h.1.resolve_right fun hd => htop hd.1
          have hstep := @Resolve.cancel rooted rest.reverse top [] hplain
          rw [List.append_nil] at hstep
          rw [List.reverse_cons, List.append_assoc, hdots]
          exact .single hstep
    · rw [List.reverse_cons]

theorem resolves_foldl (segs : List QString) (hs : ∀ s ∈ segs, '/' ∉ s) :
    ReflTransGen (Resolve rooted) segs (segs.foldl (pushSegment rooted) []).reverse := by
  induction segs using List.reverseRecOn with
  | nil => exact .refl
  | append_singleton init s ih =>
    have hinit : ∀ t ∈ init, '/' ∉ t := fun t ht => hs t (List.mem_append_left _ ht)
    have hslash := hs s (List.mem_append_right _ (List.mem_singleton.mpr rfl))
    have hcanonical : Canonical rooted (init.foldl (pushSegment rooted) []) :=
      foldl_pushSegment_canonical init trivial hinit
    rw [List.foldl_append]
    exact (resolves_append (ih hinit) [s]).trans (resolves_push hcanonical s hslash)

end Resolve

theorem resolvesTo_iff {p : QString} (hp : p ≠ []) (q : QString) :
    ResolvesTo p q ↔ q = cleanPath p := by
  have hslash := not_mem_splitOn '/' p
  rw [cleanPath, if_neg hp, ← written_reverse]
  constructor
  · rintro ⟨names, hsteps, hresolved, rfl⟩
    have hnames : ∀ s ∈ names, '/' ∉ s := fun s hs => hslash s (mem_of_resolves hsteps hs)
    have hcanonical := canonical_of_resolved hnames hresolved
    have hstack := foldl_pushSegment_reverse hcanonical
    rw [List.reverse_reverse, ← foldl_of_resolves hsteps] at hstack
    rw [segmentStack, hstack, List.reverse_reverse]
  · rintro rfl
    refine ⟨_, resolves_foldl _ hslash, ?_, rfl⟩
    refine resolved_of_canonical ?_
    rw [List.reverse_reverse]
    exact segmentStack_canonical p

end Qt.QDir
