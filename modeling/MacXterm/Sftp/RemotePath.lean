import MacXterm.Qt.Segments

namespace Sftp.RemotePath

open Qt QDir

def normalizeSegment (absolute : Bool) (out : List QString) (seg : QString) : List QString :=
  if seg = ['.'] then out
  else if seg = ['.', '.'] then
    if out ≠ [] ∧ out.getLast? ≠ some ['.', '.'] then out.dropLast
    else if absolute = false then out ++ [['.', '.']]
    else out
  else out ++ [seg]

def joined (absolute : Bool) (out : List QString) : QString :=
  let result := (if absolute then ['/'] else []) ++ ['/'].intercalate out
  if result = [] then (if absolute then ['/'] else ['.']) else result

def normalize (path : QString) : QString :=
  if path = [] then ['/']
  else
    let absolute := path.head? == some '/'
    let raw := (path.splitOn '/').filter (· ≠ [])
    joined absolute (raw.foldl (normalizeSegment absolute) [])

def join (base child : QString) : QString :=
  if child.head? = some '/' then normalize child else normalize (base ++ '/' :: child)

-- -1 where there is none.
def lastIndexOf (s : QString) (c : Char) : Int :=
  match s.reverse.findIdx? (· == c) with
  | none => -1
  | some k => s.length - 1 - k

def parent (path : QString) : QString :=
  let n := normalize path
  if n = ['/'] then n
  else
    let slash := lastIndexOf n '/'
    if slash ≤ 0 then ['/'] else n.take slash.toNat

def baseName (path : QString) : QString :=
  let n := normalize path
  if n = ['/'] then [] else n.drop (lastIndexOf n '/' + 1).toNat

theorem normalizeSegment_push {absolute : Bool} {stack : List QString} {seg : QString}
    (h : Canonical absolute stack) (hseg : seg ≠ []) :
    normalizeSegment absolute stack.reverse seg = (pushSegment absolute stack seg).reverse := by
  unfold normalizeSegment pushSegment
  by_cases hdot : seg = ['.']
  · simp [hdot]
  · by_cases hdd : seg = ['.', '.']
    · subst hdd
      cases stack with
      | nil => cases absolute <;> rfl
      | cons top rest =>
        by_cases htop : top = ['.', '.']
        · subst htop
          cases absolute with
          | true =>
            rcases h.1 with hp | ⟨-, hr, -⟩
            · exact absurd rfl hp.2.2.2
            · cases hr
          | false => simp
        · simp [htop]
    · simp [hseg, hdot, hdd]

theorem foldl_normalizeSegment {absolute : Bool} (segs : List QString) {stack : List QString}
    (h : Canonical absolute stack) (hsegs : ∀ s ∈ segs, '/' ∉ s) :
    (segs.filter (· ≠ [])).foldl (normalizeSegment absolute) stack.reverse =
      (segs.foldl (pushSegment absolute) stack).reverse := by
  induction segs generalizing stack with
  | nil => rfl
  | cons s segs ih =>
    have hs := hsegs s List.mem_cons_self
    have hrest : ∀ t ∈ segs, '/' ∉ t := fun t ht => hsegs t (List.mem_cons_of_mem _ ht)
    by_cases hnil : s = []
    · subst hnil
      have hpush : pushSegment absolute stack [] = stack := by simp [pushSegment]
      rw [List.filter_cons_of_neg (by simp), List.foldl_cons, hpush]
      exact ih h hrest
    · rw [List.filter_cons_of_pos (by simp [hnil]), List.foldl_cons, List.foldl_cons,
        normalizeSegment_push h hnil]
      exact ih (pushSegment_canonical h hs) hrest

theorem joined_reverse {absolute : Bool} {stack : List QString} (h : Canonical absolute stack) :
    joined absolute stack.reverse = render absolute stack := by
  cases absolute with
  | true => simp [joined, render]
  | false =>
    have hne := render_ne_nil false stack h
    simp only [render, Bool.false_eq_true, if_false] at hne
    simp only [joined, render, Bool.false_eq_true, if_false, List.nil_append]
    cases stack with
    | nil => rfl
    | cons top rest =>
      rw [if_neg (List.cons_ne_nil top rest)] at hne ⊢
      rw [if_neg hne]

theorem normalize_eq {path : QString} (h : path ≠ []) : normalize path = cleanPath path := by
  have hfold := @foldl_normalizeSegment (isRooted path) (path.splitOn '/') [] trivial
    (not_mem_splitOn '/' path)
  rw [normalize, if_neg h, cleanPath, if_neg h, ← joined_reverse (segmentStack_canonical path)]
  exact congrArg (joined (isRooted path)) hfold

end Sftp.RemotePath
