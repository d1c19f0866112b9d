import MacXterm.Qt.Path

namespace Qt

namespace QDir

def dotDot : QString := ['.', '.']

def segments (p : QString) : List QString := (segmentStack p).reverse

def absolute (names : List QString) : QString := render true names.reverse

theorem Canonical.plain {stack : List QString} (h : Canonical true stack) : ∀ s ∈ stack, Plain s := by
  induction stack with
  | nil => exact nofun
  | cons top rest ih =>
    intro s hs
    rcases List.mem_cons.mp hs with rfl | hs
    · rcases h.1 with hp | ⟨-, hr, -⟩
      · exact hp
      · cases hr
    · exact ih h.2 s hs

theorem Canonical.climbs {stack : List QString} (h : Canonical false stack) :
    ∃ k names, stack.reverse = List.replicate k dotDot ++ names ∧ ∀ s ∈ names, Plain s := by
  induction stack with
  | nil => exact ⟨0, [], rfl, nofun⟩
  | cons top rest ih =>
    obtain ⟨k, names, hrest, hplain⟩ := ih h.2
    rcases h.1 with hp | ⟨rfl, -, hall⟩
    · refine ⟨k, names ++ [top], ?_, ?_⟩
      · rw [List.reverse_cons, hrest, List.append_assoc]
      · intro s hs
        rcases List.mem_append.mp hs with hs | hs
        · exact hplain s hs
        · rw [List.mem_singleton.mp hs]
          exact hp
    · have hnames : names = [] := by
        cases names with
        | nil => rfl
        | cons n names =>
          have hn : n ∈ rest := List.mem_reverse.mp (hrest ▸ by simp)
          exact absurd (hall n hn) (hplain n List.mem_cons_self).2.2.2
      subst hnames
      rw [List.append_nil] at hrest
      refine ⟨k + 1, [], ?_, nofun⟩
      rw [List.reverse_cons, hrest, List.append_nil, List.replicate_succ']
      rfl

theorem foldl_plain (rooted : Bool) (stack names : List QString) (h : ∀ s ∈ names, Plain s) :
    names.foldl (pushSegment rooted) stack = names.reverse ++ stack := by
  induction names generalizing stack with
  | nil => rfl
  | cons n names ih =>
    obtain ⟨-, h1, h2, h3⟩ := h n List.mem_cons_self
    have hpush : pushSegment rooted stack n = n :: stack := by simp [pushSegment, h1, h2, h3]
    rw [List.foldl_cons, hpush, ih _ fun s hs => h s (List.mem_cons_of_mem _ hs),
      List.reverse_cons, List.append_assoc]
    rfl

theorem foldl_climb (stack : List QString) (k : Nat) (h : ∀ s ∈ stack, Plain s) :
    (List.replicate k dotDot).foldl (pushSegment true) stack = stack.drop k := by
  induction k generalizing stack with
  | zero => rfl
  | succ k ih =>
    rw [List.replicate_succ, List.foldl_cons]
    cases stack with
    | nil => exact (ih [] nofun).trans List.drop_nil
    | cons top rest =>
      have hpush : pushSegment true (top :: rest) dotDot = rest := by
        simp [pushSegment, dotDot, (h top List.mem_cons_self).2.2.2]
      rw [hpush]
      exact ih rest fun s hs => h s (List.mem_cons_of_mem _ hs)

theorem foldl_render (rooted : Bool) (stack start : List QString) (h : Canonical rooted stack) :
    ((render rooted stack).splitOn '/').foldl (pushSegment true) start =
      stack.reverse.foldl (pushSegment true) start := by
  have hskip : pushSegment true start [] = start := rfl
  cases hs : stack with
  | nil => cases rooted <;> rfl
  | cons top rest =>
    have hne : stack ≠ [] := hs ▸ List.cons_ne_nil top rest
    have hsplit : (['/'].intercalate stack.reverse).splitOn '/' = stack.reverse :=
      List.splitOn_intercalate '/' (fun l hl => (h.no_slash l (List.mem_reverse.mp hl)).1)
        (mt List.reverse_eq_nil_iff.mp hne)
    rw [← hs]
    cases rooted with
    | false => simp only [render, Bool.false_eq_true, if_false, hne, hsplit]
    | true =>
      simp only [render, if_true, List.splitOn_cons_eq_if_modifyHead, beq_self_eq_true, hsplit,
        List.foldl_cons, hskip]

def slashed (names : List QString) : QString := names.flatMap fun n => '/' :: n

theorem absolute_eq (names : List QString) (h : names ≠ []) : absolute names = slashed names := by
  have hjoin : ∀ ns : List QString, ns ≠ [] → '/' :: ['/'].intercalate ns = slashed ns := by
    intro ns hns
    induction ns with
    | nil => exact absurd rfl hns
    | cons n ns ih =>
      cases ns with
      | nil => simp [slashed]
      | cons m ns =>
        have := ih (List.cons_ne_nil m ns)
        simp only [slashed, List.intercalate_cons_cons, List.flatMap_cons,
          List.cons_append, List.append_assoc, List.nil_append] at this ⊢
        rw [this]
  rw [absolute, render, if_pos rfl, List.reverse_reverse, hjoin names h]

theorem prefix_of_slashless {a b : QString} {names : List QString} (ha : '/' ∉ a)
    (h : a <+: b ++ slashed names) : a <+: b := by
  rcases List.prefix_or_prefix_of_prefix h (List.prefix_append b _) with h' | ⟨w, rfl⟩
  · exact h'
  · have hw := (List.prefix_append_right_inj b).mp h
    cases names with
    | nil =>
      obtain rfl := List.prefix_nil.mp hw
      simp
    | cons n names =>
      cases w with
      | nil => simp
      | cons c w =>
        have hc : c = '/' := (List.cons_prefix_cons.mp hw).1
        exact absurd (by simp [hc]) ha

theorem slashed_prefix {init names : List QString} {last : QString}
    (hinit : ∀ s ∈ init, '/' ∉ s) (hlast : '/' ∉ last) (hnames : ∀ s ∈ names, '/' ∉ s) :
    slashed (init ++ [last]) <+: slashed names ↔
      ∃ ext rest, names = init ++ (last ++ ext) :: rest := by
  induction init generalizing names with
  | nil =>
    cases names with
    | nil => simp [slashed]
    | cons n names =>
      constructor
      · intro h
        have h' : last <+: n ++ slashed names := by simpa [slashed] using h
        obtain ⟨ext, rfl⟩ := prefix_of_slashless hlast h'
        exact ⟨ext, names, rfl⟩
      · rintro ⟨ext, rest, hn⟩
        obtain ⟨rfl, rfl⟩ := List.cons.inj hn
        exact ⟨ext ++ slashed names, by simp [slashed]⟩
  | cons i init ih =>
    have hi := hinit i List.mem_cons_self
    have hinit' : ∀ s ∈ init, '/' ∉ s := fun s hs => hinit s (List.mem_cons_of_mem _ hs)
    cases names with
    | nil => simp [slashed]
    | cons n names =>
      have hn := hnames n List.mem_cons_self
      have hnames' : ∀ s ∈ names, '/' ∉ s := fun s hs => hnames s (List.mem_cons_of_mem _ hs)
      constructor
      · intro h
        have h' : i ++ slashed (init ++ [last]) <+: n ++ slashed names :=
          (List.cons_prefix_cons.mp h).2
        obtain ⟨w, rfl⟩ := prefix_of_slashless hi ((List.prefix_append i _).trans h')
        rw [List.append_assoc] at h'
        have htail := (List.prefix_append_right_inj i).mp h'
        cases w with
        | nil =>
          obtain ⟨ext, rest, he⟩ := (ih hinit' hnames').mp htail
          exact ⟨ext, rest, by rw [he, List.append_nil]; rfl⟩
        | cons c w =>
          have hc : '/' = c := by cases init <;> exact (List.cons_prefix_cons.mp htail).1
          exact absurd (by simp [← hc]) hn
      · rintro ⟨ext, rest, he⟩
        obtain ⟨rfl, hrest⟩ := List.cons.inj he
        have hp := (ih hinit' hnames').mpr ⟨ext, rest, hrest⟩
        exact (List.prefix_append_right_inj ('/' :: n)).mpr hp

def Below (root p : QString) : Prop :=
  p ≠ root ∧ (if root.getLast? = some '/' then root else root ++ ['/']) <+: p

theorem segments_plain {p : QString} (h : isRooted p = true) : ∀ s ∈ segments p, Plain s := by
  intro s hs
  have hcan := segmentStack_canonical p
  rw [h] at hcan
  exact hcan.plain s (List.mem_reverse.mp hs)

theorem segmentStack_absolute {names : List QString} (h : ∀ s ∈ names, Plain s) :
    segmentStack (absolute names) = names.reverse := by
  have hfold : Canonical true (names.foldl (pushSegment true) []) :=
    foldl_pushSegment_canonical names trivial fun s hs => (h s hs).1
  rw [foldl_plain true [] names h, List.append_nil] at hfold
  exact segmentStack_render true _ hfold

theorem segments_absolute {names : List QString} (h : ∀ s ∈ names, Plain s) :
    segments (absolute names) = names := by
  rw [segments, segmentStack_absolute h, List.reverse_reverse]

theorem absolute_injective {a b : List QString} (ha : ∀ s ∈ a, Plain s) (hb : ∀ s ∈ b, Plain s)
    (h : absolute a = absolute b) : a = b := by
  rw [← segments_absolute ha, h, segments_absolute hb]

theorem absolute_ne_slash {names : List QString} (h : names ≠ []) (hn : ∀ s ∈ names, Plain s) :
    absolute names ≠ ['/'] := by
  intro he
  exact h (absolute_injective hn nofun he)

theorem slashed_snoc_ne (names : List QString) {last : QString} (h : Plain last) :
    (slashed (names ++ [last])).getLast? ≠ some '/' := by
  obtain ⟨hslash, hne, -, -⟩ := h
  obtain ⟨front, c, rfl⟩ := (List.eq_nil_or_concat' last).resolve_left hne
  have hsplit : slashed (names ++ [front ++ [c]]) = (slashed names ++ '/' :: front) ++ [c] := by
    simp [slashed]
  rw [hsplit, List.getLast?_concat]
  intro he
  have hc : c = '/' := Option.some.inj he
  exact hslash (by simp [hc])

theorem below_iff {root names : List QString} (hroot : ∀ s ∈ root, Plain s)
    (hnames : ∀ s ∈ names, Plain s) :
    Below (absolute root) (absolute names) ↔ ∃ n rest, names = root ++ n :: rest := by
  rcases List.eq_nil_or_concat' root with rfl | ⟨init, last, rfl⟩
  · constructor
    · intro h
      cases names with
      | nil => exact absurd rfl h.1
      | cons n names => exact ⟨n, names, rfl⟩
    · rintro ⟨n, rest, rfl⟩
      exact ⟨absolute_ne_slash (List.cons_ne_nil n rest) hnames, ⟨_, rfl⟩⟩
  · have hlast : Plain last := hroot last (by simp)
    have hne : init ++ [last] ≠ [] := by simp
    have hstem : slashed (init ++ [last] ++ [[]]) = absolute (init ++ [last]) ++ ['/'] := by
      simp [absolute_eq _ hne, slashed]
    have hbelow : Below (absolute (init ++ [last])) (absolute names) ↔
        names ≠ init ++ [last] ∧ slashed (init ++ [last] ++ [[]]) <+: absolute names := by
      rw [Below, if_neg (absolute_eq _ hne ▸ slashed_snoc_ne init hlast), hstem]
      refine and_congr_left fun _ => not_congr ⟨absolute_injective hnames hroot, ?_⟩
      rintro rfl
      rfl
    rw [hbelow]
    cases names with
    | nil =>
      have hlength : ¬ slashed (init ++ [last] ++ [[]]) <+: absolute [] := by
        intro h
        have := h.length_le
        simp [slashed, absolute, render] at this
        omega
      constructor
      · intro h
        exact absurd h.2 hlength
      · rintro ⟨n, rest, h⟩
        exact absurd (congrArg List.length h) (by simp)
    | cons n names =>
      rw [absolute_eq _ (List.cons_ne_nil n names), slashed_prefix (fun s hs => (hroot s hs).1)
        List.not_mem_nil fun s hs => (hnames s hs).1]
      constructor
      · rintro ⟨-, ext, rest, h⟩
        exact ⟨ext, rest, h⟩
      · rintro ⟨ext, rest, h⟩
        refine ⟨?_, ext, rest, h⟩
        intro he
        exact absurd (congrArg List.length (he.symm.trans h)) (by simp)

-- The path runs beside the root: one of its names properly extends the last name of the root.
def Beside (root names : List QString) : Prop :=
  ∃ init last ext rest, root = init ++ [last] ∧ ext ≠ [] ∧ names = init ++ (last ++ ext) :: rest

theorem beside_not_below {root names : List QString} (hroot : ∀ s ∈ root, Plain s)
    (hnames : ∀ s ∈ names, Plain s) (h : Beside root names) :
    ¬ Below (absolute root) (absolute names) := by
  intro hbelow
  obtain ⟨init, last, ext, rest, rfl, hext, hn⟩ := h
  obtain ⟨n, more, hm⟩ := (below_iff hroot hnames).mp hbelow
  rw [hm, List.append_assoc] at hn
  have hlast : last = last ++ ext := (List.cons.inj (List.append_cancel_left hn)).1
  exact hext (List.append_right_eq_self.mp hlast.symm)

theorem prefix_cases {root names : List QString} (hroot : ∀ s ∈ root, Plain s)
    (hnames : ∀ s ∈ names, Plain s) :
    absolute root <+: absolute names ↔
      names = root ∨ Below (absolute root) (absolute names) ∨ Beside root names := by
  rw [below_iff hroot hnames]
  rcases List.eq_nil_or_concat' root with rfl | ⟨init, last, rfl⟩
  · constructor
    · intro _
      cases names with
      | nil => exact .inl rfl
      | cons n names => exact .inr (.inl ⟨n, names, rfl⟩)
    · intro _
      exact ⟨['/'].intercalate names.reverse.reverse, rfl⟩
  · have hne : init ++ [last] ≠ [] := by simp
    have hlast : Plain last := hroot last (by simp)
    rw [absolute_eq _ hne]
    have hslashed : slashed (init ++ [last]) <+: absolute names ↔
        ∃ ext rest, names = init ++ (last ++ ext) :: rest := by
      cases names with
      | nil =>
        constructor
        · intro h
          have hlength := h.length_le
          have hpos := List.length_pos_of_ne_nil hlast.2.1
          simp [slashed, absolute, render] at hlength
          omega
        · rintro ⟨ext, rest, h⟩
          exact absurd (congrArg List.length h) (by simp)
      | cons n names =>
        rw [absolute_eq _ (List.cons_ne_nil n names)]
        exact slashed_prefix (fun s hs => (hroot s (by simp [hs])).1) hlast.1
          fun s hs => (hnames s hs).1
    rw [hslashed]
    constructor
    · rintro ⟨ext, rest, h⟩
      by_cases hext : ext = []
      · subst hext
        rw [List.append_nil] at h
        cases rest with
        | nil => exact .inl h
        | cons n rest => exact .inr (.inl ⟨n, rest, by simp [h]⟩)
      · exact .inr (.inr ⟨init, last, ext, rest, rfl, hext, h⟩)
    · rintro (h | ⟨n, rest, h⟩ | ⟨init', last', ext, rest, hroot', -, h⟩)
      · exact ⟨[], [], by simp [h]⟩
      · exact ⟨[], n :: rest, by simp [h]⟩
      · obtain ⟨rfl, hl⟩ := List.append_inj' hroot' rfl
        obtain ⟨rfl, -⟩ := List.cons.inj hl
        exact ⟨ext, rest, h⟩

theorem foldl_pushSegment_segments (rooted : Bool) (start : List QString) {stack : List QString}
    (segs : List QString) (h : Canonical false stack) (hs : ∀ s ∈ segs, '/' ∉ s) :
    segs.foldl (pushSegment rooted) (stack.reverse.foldl (pushSegment rooted) start) =
      (segs.foldl (pushSegment false) stack).reverse.foldl (pushSegment rooted) start := by
  induction segs generalizing stack with
  | nil => rfl
  | cons s segs ih =>
    have hstep : pushSegment rooted (stack.reverse.foldl (pushSegment rooted) start) s =
        (pushSegment false stack s).reverse.foldl (pushSegment rooted) start := by
      by_cases hskip : s = [] ∨ s = ['.']
      · simp only [pushSegment, hskip, if_true]
      · by_cases hdd : s = ['.', '.']
        · subst hdd
          cases stack with
          | nil => rfl
          | cons top rest =>
            rcases h.1 with ⟨-, h1, h2, h3⟩ | ⟨rfl, -, -⟩
            · have htop : ∀ t : List QString, pushSegment rooted t top = top :: t := by
                simp [pushSegment, h1, h2, h3]
              rw [List.reverse_cons, List.foldl_append, List.foldl_cons, List.foldl_nil, htop]
              simp [pushSegment, h3]
            · have hpush : pushSegment false (['.', '.'] :: rest) ['.', '.'] =
                  ['.', '.'] :: ['.', '.'] :: rest := rfl
              rw [hpush, @List.reverse_cons _ _ (['.', '.'] :: rest), List.foldl_append]
              rfl
        · have hpush : pushSegment false stack s = s :: stack := by
            simp only [pushSegment, hskip, hdd, if_false]
          rw [hpush, List.reverse_cons, List.foldl_append]
          rfl
    rw [List.foldl_cons, List.foldl_cons, hstep]
    exact ih (pushSegment_canonical h (hs s List.mem_cons_self))
      fun t ht => hs t (List.mem_cons_of_mem _ ht)

theorem segments_filePath {dir name : QString} (ha : isAbsolutePath name = false) :
    segments (filePath dir name) =
      ((segments name).foldl (pushSegment (isRooted dir)) (segmentStack dir)).reverse := by
  have hr : isRooted name = false := by
    cases name with
    | nil => rfl
    | cons c name => simp_all [isAbsolutePath, isRooted]
  have hnorm := @foldl_pushSegment_segments (isRooted dir) (segmentStack dir) []
    (name.splitOn '/') trivial (not_mem_splitOn '/' name)
  rw [← hr] at hnorm
  exact congrArg List.reverse ((segmentStack_filePath ha).trans hnorm)

def climb (p : QString) : Nat := ((segments p).takeWhile (· == dotDot)).length

def descent (p : QString) : List QString := (segments p).dropWhile (· == dotDot)

theorem split_climb {k : Nat} {names : List QString} (h : ∀ s ∈ names, Plain s) :
    (List.replicate k dotDot ++ names).takeWhile (· == dotDot) = List.replicate k dotDot ∧
      (List.replicate k dotDot ++ names).dropWhile (· == dotDot) = names := by
  induction k with
  | zero =>
    cases names with
    | nil => exact ⟨rfl, rfl⟩
    | cons n names =>
      have hn : (n == dotDot) = false := beq_false_of_ne (h n List.mem_cons_self).2.2.2
      simp [hn]
  | succ k ih => simp [List.replicate_succ, ih]

theorem segments_climb (p : QString) :
    segments p = List.replicate (climb p) dotDot ++ descent p ∧
      (isRooted p = true → climb p = 0) ∧ ∀ s ∈ descent p, Plain s := by
  obtain ⟨k, names, hk, hseg, hplain⟩ : ∃ k names, (isRooted p = true → k = 0) ∧
      segments p = List.replicate k dotDot ++ names ∧ ∀ s ∈ names, Plain s := by
    cases hr : isRooted p with
    | true => exact ⟨0, segments p, fun _ => rfl, rfl, segments_plain hr⟩
    | false =>
      have hcan := segmentStack_canonical p
      rw [hr] at hcan
      obtain ⟨k, names, hseg, hplain⟩ := hcan.climbs
      exact ⟨k, names, nofun, hseg, hplain⟩
  obtain ⟨htake, hdrop⟩ := @split_climb k _ hplain
  have hclimb : climb p = k := by rw [climb, hseg, htake, List.length_replicate]
  have hdescent : descent p = names := by rw [descent, hseg, hdrop]
  rw [hclimb, hdescent]
  exact ⟨hseg, hk, hplain⟩

theorem foldl_climb_relative (u : Nat) {stack : List QString} (k : Nat)
    (h : ∀ s ∈ stack, Plain s) :
    (List.replicate k dotDot).foldl (pushSegment false) (stack ++ List.replicate u dotDot) =
      stack.drop k ++ List.replicate (u + (k - stack.length)) dotDot := by
  induction k generalizing stack u with
  | zero => simp
  | succ k ih =>
    rw [List.replicate_succ, List.foldl_cons]
    cases stack with
    | nil =>
      have hpush : pushSegment false ([] ++ List.replicate u dotDot) dotDot =
          [] ++ List.replicate (u + 1) dotDot := by
        cases u with
        | zero => rfl
        | succ u => rfl
      rw [hpush, @ih (u + 1) [] nofun]
      simp only [List.drop_nil, List.length_nil, Nat.sub_zero]
      rw [Nat.add_right_comm, Nat.add_assoc]
    | cons top rest =>
      have hpush : pushSegment false (top :: rest ++ List.replicate u dotDot) dotDot =
          rest ++ List.replicate u dotDot := by
        simp [pushSegment, dotDot, (h top List.mem_cons_self).2.2.2]
      rw [hpush, ih u fun s hs => h s (List.mem_cons_of_mem _ hs)]
      simp

theorem climb_unique {dots : QString} {k j : Nat} {xs ys : List QString}
    (hx : xs.head? ≠ some dots) (hy : ys.head? ≠ some dots)
    (h : List.replicate k dots ++ xs = List.replicate j dots ++ ys) : k = j ∧ xs = ys := by
  induction k generalizing j with
  | zero =>
    cases j with
    | zero => exact ⟨rfl, h⟩
    | succ j => exact absurd (congrArg List.head? h) hx
  | succ k ih =>
    cases j with
    | zero => exact absurd (congrArg List.head? h).symm hy
    | succ j =>
      obtain ⟨rfl, hxs⟩ := ih (List.cons.inj h).2
      exact ⟨rfl, hxs⟩

theorem head_plain {names : List QString} (h : ∀ s ∈ names, Plain s) :
    names.head? ≠ some dotDot := by
  intro hd
  exact (h dotDot (List.mem_of_head? hd)).2.2.2 rfl

def Under (folder p : QString) : Prop :=
  isRooted p = isRooted folder ∧ isAbsolutePath p = isAbsolutePath folder ∧
    ∃ names, segments p = segments folder ++ names ∧ ∀ s ∈ names, Plain s

end QDir

structure WorkingDir where
  path : QString
  rooted : QDir.isRooted path = true

-- QFileInfo::absoluteFilePath gives the lexically cleaned absolute path.
def absoluteFilePath (cwd : WorkingDir) (p : QString) : QString :=
  QDir.cleanPath (if QDir.isRooted p then p else cwd.path ++ '/' :: p)

theorem absoluteFilePath_eq (cwd : WorkingDir) (p : QString) :
    ∃ names, absoluteFilePath cwd p = QDir.absolute names ∧ ∀ s ∈ names, QDir.Plain s := by
  have hrooted : QDir.isRooted (if QDir.isRooted p then p else cwd.path ++ '/' :: p) = true := by
    split
    · assumption
    · have h := cwd.rooted
      generalize cwd.path = w at h ⊢
      cases w with
      | nil => cases h
      | cons c w => exact h
  unfold absoluteFilePath
  generalize (if QDir.isRooted p then p else cwd.path ++ '/' :: p) = q at hrooted ⊢
  have hq : q ≠ [] := by
    rintro rfl
    cases hrooted
  refine ⟨QDir.segments q, ?_, ?_⟩
  · rw [QDir.cleanPath, if_neg hq, hrooted, QDir.absolute, QDir.segments, List.reverse_reverse]
  · exact QDir.segments_plain hrooted

end Qt
