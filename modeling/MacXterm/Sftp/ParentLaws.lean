import Mathlib.Logic.Function.Iterate
import MacXterm.Sftp.PathLaws

namespace Sftp.RemotePath

open Qt QDir

def Recomposes (p : QString) : Prop :=
  normalize p ≠ ['/'] → join (parent p) (baseName p) = normalize p

-- The parents of an absolute path come to the root after as many steps as it has segments.
def ReachesRoot (p : QString) : Prop :=
  isRooted p = true →
    (∀ k, normalize (parent^[k] p) = ['/'] ↔ (segments p).length ≤ k) ∧
      ∀ k, 0 < k → normalize (parent^[k] p) = parent^[k] p

section Cut

variable {s t : QString} {c : Char}

theorem lastIndexOf_eq_neg (h : c ∉ s) : lastIndexOf s c = -1 := by
  rw [lastIndexOf, findIdx?_of_not_mem fun hc => h (List.mem_reverse.mp hc)]

theorem lastIndexOf_append (s : QString) (h : c ∉ t) : lastIndexOf (s ++ c :: t) c = s.length := by
  have hfind : (s ++ c :: t).reverse.findIdx? (· == c) = some t.length := by
    rw [List.reverse_append, List.reverse_cons, List.append_assoc, List.singleton_append,
      findIdx?_append_cons fun hc => h (List.mem_reverse.mp hc), List.length_reverse]
  rw [lastIndexOf, hfind]
  simp only [List.length_append, List.length_cons]
  omega

theorem parent_eq {p : QString} (hn : normalize p = s ++ '/' :: t) (hroot : normalize p ≠ ['/'])
    (ht : '/' ∉ t) : parent p = if s = [] then ['/'] else s := by
  have hslash : lastIndexOf (normalize p) '/' = s.length := by
    rw [hn, lastIndexOf_append s ht]
  rw [parent, if_neg hroot]
  simp only [hslash]
  cases s with
  | nil => rfl
  | cons d s =>
    rw [if_neg (by simp only [List.length_cons]; omega), if_neg (List.cons_ne_nil d s), hn]
    simp

theorem baseName_eq {p : QString} (hn : normalize p = s ++ '/' :: t) (hroot : normalize p ≠ ['/'])
    (ht : '/' ∉ t) : baseName p = t := by
  have hslash : lastIndexOf (normalize p) '/' = s.length := by
    rw [hn, lastIndexOf_append s ht]
  rw [baseName, if_neg hroot]
  simp only [hslash]
  have hnext : ((s.length : Int) + 1).toNat = s.length + 1 := by
    omega
  rw [hn, hnext]
  simp

theorem parent_slashless {p : QString} (h : '/' ∉ normalize p) :
    parent p = ['/'] ∧ baseName p = normalize p := by
  have hroot : normalize p ≠ ['/'] := by
    intro hn
    rw [hn] at h
    exact h List.mem_cons_self
  have hslash := lastIndexOf_eq_neg h
  rw [parent, baseName, if_neg hroot, if_neg hroot]
  simp only [hslash]
  exact ⟨rfl, rfl⟩

end Cut

section Parent

variable {p : QString}

theorem normalize_render (hp : p ≠ []) : normalize p = render (isRooted p) (segmentStack p) := by
  rw [normalize_eq hp, cleanPath, if_neg hp]

theorem parent_top (hp : p ≠ []) {top : QString} {rest : List QString}
    (hstack : segmentStack p = top :: rest) (h : isRooted p = true ∨ rest ≠ []) :
    parent p = render (isRooted p) rest ∧ baseName p = top := by
  have hcanonical := segmentStack_canonical p
  have hnormal := normalize_render hp
  rw [hstack] at hcanonical hnormal
  have htop : '/' ∉ top := (hcanonical.no_slash top List.mem_cons_self).1
  have hroot : normalize p ≠ ['/'] := by
    intro hn
    have hempty := congrArg segmentStack hn
    rw [hnormal, segmentStack_render _ _ hcanonical] at hempty
    exact absurd hempty (List.cons_ne_nil top rest)
  cases rest with
  | nil =>
    have hr : isRooted p = true := h.resolve_right fun hne => hne rfl
    have hcut : normalize p = [] ++ '/' :: top := by
      rw [hnormal, hr]
      simp [render]
    rw [parent_eq hcut hroot htop, baseName_eq hcut hroot htop, hr]
    exact ⟨rfl, rfl⟩
  | cons s rest =>
    have hcut : normalize p = render (isRooted p) (s :: rest) ++ '/' :: top :=
      hnormal.trans (render_push _ _ _ (List.cons_ne_nil s rest))
    have hne := render_ne_nil _ _ hcanonical.2
    rw [parent_eq hcut hroot htop, baseName_eq hcut hroot htop, if_neg hne]
    exact ⟨rfl, rfl⟩

theorem push_top {rooted : Bool} {top : QString} {rest : List QString}
    (h : Canonical rooted (top :: rest)) : pushSegment rooted rest top = top :: rest := by
  have hfold := foldl_pushSegment_reverse h
  rw [List.reverse_cons, List.foldl_append, foldl_pushSegment_reverse h.2] at hfold
  exact hfold

theorem recomposes_top (hp : p ≠ []) {top : QString} {rest : List QString}
    (hstack : segmentStack p = top :: rest) (h : isRooted p = true ∨ rest ≠ []) :
    join (parent p) (baseName p) = normalize p := by
  have hcanonical := segmentStack_canonical p
  rw [hstack] at hcanonical
  obtain ⟨hparent, hbase⟩ := parent_top hp hstack h
  have htop : '/' ∉ top := (hcanonical.no_slash top List.mem_cons_self).1
  have hrelative : isRooted top = false := by
    cases top with
    | nil => rfl
    | cons c top =>
      rw [isRooted, List.head?_cons, beq_eq_false_iff_ne]
      intro hc
      exact htop (Option.some.inj hc ▸ List.mem_cons_self)
  rw [hparent, hbase, join_render (render_ne_nil _ _ hcanonical.2) hrelative,
    isRooted_render _ _ hcanonical.2, segmentStack_render _ _ hcanonical.2,
    List.splitOn_eq_singleton htop, List.foldl_cons, List.foldl_nil, push_top hcanonical,
    normalize_render hp, hstack]

-- A single segment has no slash before it, as the first segment of an absolute path has.
theorem not_recomposes (hp : p ≠ []) (hr : isRooted p = false)
    (h : (segmentStack p).length < 2) : ¬ Recomposes p := by
  have hcanonical := segmentStack_canonical p
  have hnormal := normalize_render hp
  rw [hr] at hcanonical hnormal
  have hslash : '/' ∉ normalize p := by
    rw [hnormal]
    match hstack : segmentStack p with
    | [] => decide
    | [top] =>
      rw [hstack] at hcanonical
      simpa [render] using (hcanonical.no_slash top List.mem_cons_self).1
    | _ :: _ :: _ =>
      rw [hstack] at h
      simp only [List.length_cons] at h
      omega
  have hrelative : isRooted (normalize p) = false := by
    rw [hnormal]
    exact isRooted_render _ _ hcanonical
  intro hrecomposes
  have hjoin := hrecomposes fun hn => by
    rw [hn] at hrelative
    cases hrelative
  rw [(parent_slashless hslash).1, (parent_slashless hslash).2,
    join_render (List.cons_ne_nil _ _) hrelative] at hjoin
  rw [← hjoin] at hrelative
  cases hrelative

theorem recomposes_iff (p : QString) :
    Recomposes p ↔ (p ≠ [] → isRooted p = false → 2 ≤ (segments p).length) := by
  rw [segments, List.length_reverse]
  constructor
  · intro h hp hr
    by_contra hshort
    exact not_recomposes hp hr (Nat.lt_of_not_le hshort) h
  · intro h hroot
    by_cases hp : p = []
    · rw [hp] at hroot
      exact absurd normalize_nil hroot
    · have hlong := h hp
      cases hstack : segmentStack p with
      | nil =>
        rw [hstack] at hlong
        cases hr : isRooted p with
        | true =>
          rw [normalize_render hp, hstack, hr] at hroot
          exact absurd rfl hroot
        | false => exact absurd (hlong hr) (by decide)
      | cons top rest =>
        refine recomposes_top hp hstack ?_
        rw [hstack] at hlong
        cases hr : isRooted p with
        | true => exact .inl rfl
        | false =>
          refine .inr ?_
          rintro rfl
          exact absurd (hlong hr) (by simp)

theorem parent_rooted (hr : isRooted p = true) :
    isRooted (parent p) = true ∧ segmentStack (parent p) = (segmentStack p).tail ∧
      normalize (parent p) = parent p := by
  have hp : p ≠ [] := by
    rintro rfl
    cases hr
  have hcanonical := segmentStack_canonical p
  have hparent : parent p = render true (segmentStack p).tail := by
    cases hstack : segmentStack p with
    | nil =>
      have hroot : normalize p = ['/'] := by
        rw [normalize_render hp, hstack, hr]
        rfl
      rw [parent, if_pos hroot, hroot]
      rfl
    | cons top rest => rw [(parent_top hp hstack (.inl hr)).1, hr, List.tail_cons]
  have htail : Canonical true (segmentStack p).tail := by
    rw [hr] at hcanonical
    cases hstack : segmentStack p with
    | nil => trivial
    | cons top rest =>
      rw [hstack] at hcanonical
      exact hcanonical.2
  rw [hparent, normalize_eq (render_ne_nil _ _ htail), cleanPath_render _ _ htail]
  exact ⟨rfl, segmentStack_render _ _ htail, rfl⟩

theorem iterate_parent (hr : isRooted p = true) (k : Nat) :
    isRooted (parent^[k] p) = true ∧ segmentStack (parent^[k] p) = (segmentStack p).drop k := by
  induction k with
  | zero => exact ⟨hr, rfl⟩
  | succ k ih =>
    obtain ⟨hroot, hstack, -⟩ := parent_rooted ih.1
    rw [Function.iterate_succ_apply', hroot, hstack, ih.2, List.tail_drop]
    exact ⟨rfl, rfl⟩

theorem normalize_eq_root (hr : isRooted p = true) :
    normalize p = ['/'] ↔ segmentStack p = [] := by
  have hp : p ≠ [] := by
    rintro rfl
    cases hr
  rw [normalize_render hp, hr]
  constructor
  · intro h
    have hcanonical := segmentStack_canonical p
    rw [hr] at hcanonical
    exact (segmentStack_render true _ hcanonical).symm.trans (congrArg segmentStack h)
  · intro h
    rw [h]
    rfl

theorem reachesRoot (p : QString) : ReachesRoot p := by
  intro hr
  refine ⟨fun k => ?_, fun k hk => ?_⟩
  · obtain ⟨hroot, hstack⟩ := iterate_parent hr k
    rw [normalize_eq_root hroot, hstack, List.drop_eq_nil_iff, segments, List.length_reverse]
  · obtain ⟨k, rfl⟩ := Nat.exists_eq_add_of_lt hk
    rw [Nat.zero_add, Function.iterate_succ_apply']
    exact (parent_rooted (iterate_parent hr k).1).2.2

end Parent

theorem parent_laws_iff (p : QString) :
    (Recomposes p ∧ ReachesRoot p) ↔ (p ≠ [] → isRooted p = false → 2 ≤ (segments p).length) :=
  (and_iff_left (reachesRoot p)).trans (recomposes_iff p)

theorem parent_of_relative_name : ¬ ∀ p : QString, Recomposes p ∧ ReachesRoot p := by
  intro h
  have hjoin := (h "docs").1 (by decide)
  exact absurd hjoin (by decide)

end Sftp.RemotePath
