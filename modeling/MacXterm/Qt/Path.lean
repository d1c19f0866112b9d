import MacXterm.Qt.Text

namespace Qt.QDir

def isAbsolutePath (p : QString) : Bool := p.head? == some '/' || p.head? == some ':'

def filePath (dir name : QString) : QString :=
  if isAbsolutePath name then name
  else
    let base : QString := if dir = [] then ['.'] else dir
    if name = [] then base
    else if base.getLast? = some '/' then base ++ name
    else base ++ '/' :: name

def pushSegment (rooted : Bool) (stack : List QString) (segment : QString) : List QString :=
  if segment = [] ∨ segment = ['.'] then stack
  else if segment = ['.', '.'] then
    match stack with
    | [] => if rooted then [] else [segment]
    | top :: rest => if top = ['.', '.'] then segment :: top :: rest else rest
  else segment :: stack

def isRooted (p : QString) : Bool := p.head? == some '/'

def segmentStack (p : QString) : List QString :=
  (p.splitOn '/').foldl (pushSegment (isRooted p)) []

def render (rooted : Bool) (stack : List QString) : QString :=
  if rooted then '/' :: ['/'].intercalate stack.reverse
  else if stack = [] then ['.']
  else ['/'].intercalate stack.reverse

def cleanPath (p : QString) : QString :=
  if p = [] then [] else render (isRooted p) (segmentStack p)

def Plain (segment : QString) : Prop :=
  '/' ∉ segment ∧ segment ≠ [] ∧ segment ≠ ['.'] ∧ segment ≠ ['.', '.']

def Canonical (rooted : Bool) : List QString → Prop
  | [] => True
  | top :: rest =>
      (Plain top ∨ (top = ['.', '.'] ∧ rooted = false ∧ ∀ s ∈ rest, s = ['.', '.'])) ∧ Canonical rooted rest

theorem Canonical.no_slash {rooted : Bool} {stack : List QString} (h : Canonical rooted stack) :
    ∀ s ∈ stack, '/' ∉ s ∧ s ≠ [] := by
  induction stack with
  | nil => simp
  | cons top rest ih =>
    intro s hs
    rcases List.mem_cons.mp hs with rfl | hs
    · rcases h.1 with hp | ⟨rfl, _⟩
      · exact ⟨hp.1, hp.2.1⟩
      · decide
    · exact ih h.2 s hs

theorem pushSegment_canonical {rooted : Bool} {stack : List QString} {segment : QString}
    (h : Canonical rooted stack) (hs : '/' ∉ segment) :
    Canonical rooted (pushSegment rooted stack segment) := by
  unfold pushSegment
  split
  · exact h
  · rename_i hne
    push Not at hne
    split
    · rename_i hdd
      cases stack with
      | nil =>
        cases rooted with
        | true => trivial
        | false => exact ⟨.inr ⟨hdd, rfl, by simp⟩, trivial⟩
      | cons top rest =>
        simp only
        split
        · rename_i htop
          rcases h.1 with hp | ⟨_, hr, hall⟩
          · exact absurd htop hp.2.2.2
          · exact ⟨.inr ⟨hdd, hr, by simpa [htop] using hall⟩, h⟩
        · exact h.2
    · rename_i hdd
      exact ⟨.inl ⟨hs, hne.1, hne.2, hdd⟩, h⟩

theorem foldl_pushSegment_canonical {rooted : Bool} {stack : List QString}
    (segments : List QString) (h : Canonical rooted stack) (hs : ∀ s ∈ segments, '/' ∉ s) :
    Canonical rooted (segments.foldl (pushSegment rooted) stack) := by
  induction segments generalizing stack with
  | nil => exact h
  | cons s segments ih =>
    exact ih (pushSegment_canonical h (hs s List.mem_cons_self))
      fun t ht => hs t (List.mem_cons_of_mem _ ht)

theorem segmentStack_canonical (p : QString) : Canonical (isRooted p) (segmentStack p) :=
  foldl_pushSegment_canonical _ trivial (not_mem_splitOn '/' p)

theorem foldl_pushSegment_reverse {rooted : Bool} {stack : List QString}
    (h : Canonical rooted stack) : stack.reverse.foldl (pushSegment rooted) [] = stack := by
  induction stack with
  | nil => rfl
  | cons top rest ih =>
    rw [List.reverse_cons, List.foldl_append, ih h.2, List.foldl_cons, List.foldl_nil]
    rcases h.1 with ⟨_, h1, h2, h3⟩ | ⟨htop, hr, hall⟩
    · simp [pushSegment, h1, h2, h3]
    · subst htop hr
      cases rest with
      | nil => rfl
      | cons t rest =>
        have ht : t = ['.', '.'] := hall t List.mem_cons_self
        subst ht
        rfl

theorem isRooted_render (rooted : Bool) (stack : List QString) (h : Canonical rooted stack) :
    isRooted (render rooted stack) = rooted := by
  cases rooted with
  | true => rfl
  | false =>
    simp only [render, Bool.false_eq_true, if_false]
    split
    · rfl
    · rename_i hne
      obtain ⟨s, ts, hs⟩ := List.exists_cons_of_ne_nil (mt List.reverse_eq_nil_iff.mp hne)
      have hmem : s ∈ stack := List.mem_reverse.mp (hs ▸ List.mem_cons_self)
      obtain ⟨hslash, hnil⟩ := h.no_slash s hmem
      obtain ⟨c, cs, rfl⟩ := List.exists_cons_of_ne_nil hnil
      have hc : c ≠ '/' := fun heq => hslash (heq ▸ List.mem_cons_self)
      rw [hs]
      cases ts <;> simp [isRooted, hc]

theorem segmentStack_render (rooted : Bool) (stack : List QString) (h : Canonical rooted stack) :
    segmentStack (render rooted stack) = stack := by
  unfold segmentStack
  rw [isRooted_render rooted stack h]
  have hfold := foldl_pushSegment_reverse h
  by_cases hne : stack = []
  · subst hne
    cases rooted <;> rfl
  · have hsplit : (['/'].intercalate stack.reverse).splitOn '/' = stack.reverse :=
      List.splitOn_intercalate '/' (fun l hl => (h.no_slash l (List.mem_reverse.mp hl)).1)
        (mt List.reverse_eq_nil_iff.mp hne)
    cases rooted with
    | false => simp only [render, Bool.false_eq_true, if_false, hne, hsplit, hfold]
    | true =>
      simp only [render, if_true, List.splitOn_cons_eq_if_modifyHead, beq_self_eq_true, hsplit,
        List.foldl_cons]
      exact hfold

theorem render_ne_nil (rooted : Bool) (stack : List QString) (h : Canonical rooted stack) :
    render rooted stack ≠ [] := by
  cases rooted with
  | true => simp [render]
  | false =>
    simp only [render, Bool.false_eq_true, if_false]
    split
    · simp
    · rename_i hne
      intro heq
      have hsplit : (['/'].intercalate stack.reverse).splitOn '/' = stack.reverse :=
        List.splitOn_intercalate '/' (fun l hl => (h.no_slash l (List.mem_reverse.mp hl)).1)
          (mt List.reverse_eq_nil_iff.mp hne)
      rw [heq, List.splitOn_nil] at hsplit
      exact (h.no_slash [] (List.mem_reverse.mp (hsplit ▸ List.mem_cons_self))).2 rfl

theorem cleanPath_render (rooted : Bool) (stack : List QString) (h : Canonical rooted stack) :
    cleanPath (render rooted stack) = render rooted stack := by
  rw [cleanPath, if_neg (render_ne_nil rooted stack h), isRooted_render rooted stack h,
    segmentStack_render rooted stack h]

@[simp] theorem cleanPath_cleanPath (p : QString) : cleanPath (cleanPath p) = cleanPath p := by
  by_cases hp : p = []
  · subst hp
    rfl
  · have h : cleanPath p = render (isRooted p) (segmentStack p) := if_neg hp
    rw [h]
    exact cleanPath_render _ _ (segmentStack_canonical p)

theorem segmentStack_append (p q : QString) (hp : p ≠ []) :
    segmentStack (p ++ '/' :: q) =
      (q.splitOn '/').foldl (pushSegment (isRooted p)) (segmentStack p) := by
  obtain ⟨c, cs, rfl⟩ := List.exists_cons_of_ne_nil hp
  unfold segmentStack
  rw [List.splitOn_append_cons_self, List.foldl_append]
  rfl

theorem cleanPath_append (p q : QString) (hp : p ≠ []) :
    cleanPath (p ++ '/' :: q) =
      render (isRooted p) ((q.splitOn '/').foldl (pushSegment (isRooted p)) (segmentStack p)) := by
  have hr : isRooted (p ++ '/' :: q) = isRooted p := by
    obtain ⟨c, cs, rfl⟩ := List.exists_cons_of_ne_nil hp
    rfl
  rw [cleanPath, if_neg (by simp), hr, segmentStack_append p q hp]

theorem render_push (rooted : Bool) (top : QString) (rest : List QString) (h : rest ≠ []) :
    render rooted (top :: rest) = render rooted rest ++ '/' :: top := by
  have hj : ∀ xs : List QString, xs ≠ [] →
      ['/'].intercalate (xs ++ [top]) = ['/'].intercalate xs ++ '/' :: top := by
    intro xs hxs
    induction xs with
    | nil => exact absurd rfl hxs
    | cons x xs ih =>
      cases xs with
      | nil => simp
      | cons y ys =>
        have := ih (by simp)
        simp only [List.cons_append, List.intercalate_cons_cons, List.append_assoc] at this ⊢
        rw [this]
  have := hj rest.reverse (mt List.reverse_eq_nil_iff.mp h)
  cases rooted <;> simp [render, h, this]

def Inside (root p : QString) : Prop := p = root ∨ root ++ ['/'] <+: p

instance (root p : QString) : Decidable (Inside root p) :=
  inferInstanceAs (Decidable (p = root ∨ root ++ ['/'] <+: p))

theorem inside_nil_of_rooted {p : QString} (h : isRooted p = true) : Inside [] p := by
  cases p with
  | nil => exact .inl rfl
  | cons c p =>
    simp only [isRooted, List.head?_cons, beq_iff_eq, Option.some.injEq] at h
    exact .inr ⟨p, by simp [h]⟩

theorem inside_append {root p : QString} (h : root ++ ['/'] <+: p) (q : QString) :
    Inside root (p ++ q) := .inr (h.trans (List.prefix_append p q))

theorem inside_of_append {root p top : QString} (ht : '/' ∉ top)
    (h : root ++ ['/'] <+: p ++ '/' :: top) : Inside root p := by
  obtain ⟨w, hw⟩ := h
  rw [List.append_assoc, List.singleton_append] at hw
  rcases List.append_eq_append_iff.mp hw with ⟨u, hp, hu⟩ | ⟨u, hr, hu⟩
  · cases u with
    | nil => exact .inl (by simpa using hp)
    | cons c u =>
      have hc : c = '/' := by
        simp only [List.cons_append, List.cons.injEq] at hu
        exact hu.1.symm
      exact .inr ⟨u, by simp [hp, hc]⟩
  · cases u with
    | nil => exact .inl (by simpa using hr.symm)
    | cons c u =>
      simp only [List.cons_append, List.cons.injEq] at hu
      exact absurd (hu.2 ▸ List.mem_append_right u List.mem_cons_self) ht

theorem render_segmentStack {p : QString} (hp : p ≠ []) (hc : cleanPath p = p) :
    render (isRooted p) (segmentStack p) = p := by
  rw [cleanPath, if_neg hp] at hc
  exact hc

theorem segmentStack_filePath {dir name : QString} (ha : isAbsolutePath name = false) :
    segmentStack (filePath dir name) =
      (name.splitOn '/').foldl (pushSegment (isRooted dir)) (segmentStack dir) := by
  have hdir : ∀ d : QString, d ≠ [] → segmentStack (filePath d name) =
      (name.splitOn '/').foldl (pushSegment (isRooted d)) (segmentStack d) := by
    intro d hd
    by_cases hn : name = []
    · subst hn
      simp [filePath, ha, hd, pushSegment]
    · have hfile : filePath d name =
          if d.getLast? = some '/' then d ++ name else d ++ '/' :: name := by
        simp [filePath, ha, hd, hn]
      rw [hfile]
      split
      · rename_i hlast
        obtain ⟨q, rfl⟩ := List.getLast?_eq_some_iff.mp hlast
        cases q with
        | nil =>
          simp only [List.nil_append, List.singleton_append, segmentStack,
            List.splitOn_cons_eq_if_modifyHead, beq_self_eq_true, if_true]
          rfl
        | cons c q =>
          have hstack := segmentStack_append (c :: q) [] (List.cons_ne_nil c q)
          rw [List.append_assoc, List.singleton_append,
            segmentStack_append _ _ (List.cons_ne_nil c q), hstack]
          rfl
      · exact segmentStack_append d name hd
  by_cases hd : dir = []
  · subst hd
    exact hdir ['.'] (List.cons_ne_nil _ _)
  · exact hdir dir hd

theorem isRooted_filePath {dir name : QString} (ha : isAbsolutePath name = false) :
    isRooted (filePath dir name) = isRooted dir ∧
      isAbsolutePath (filePath dir name) = isAbsolutePath dir := by
  unfold filePath
  rw [if_neg (by simp [ha])]
  cases dir with
  | nil => by_cases hn : name = [] <;> simp [hn, isRooted, isAbsolutePath]
  | cons c d =>
    by_cases hn : name = []
    · simp [hn]
    · simp only [List.cons_ne_nil, if_false, hn]
      split <;> simp [isRooted, isAbsolutePath]

theorem filePath_ne_nil {dir name : QString} : filePath dir name ≠ [] := by
  have hbase : (if dir = [] then ['.'] else dir) ≠ [] := by
    split
    · exact List.cons_ne_nil _ _
    · assumption
  unfold filePath
  generalize (if dir = [] then ['.'] else dir) = base at hbase ⊢
  split
  · rename_i h
    rintro rfl
    cases h
  · by_cases hn : name = []
    · simpa only [hn, if_true] using hbase
    · simp only [hn, if_false]
      split
      · exact List.append_ne_nil_of_right_ne_nil _ hn
      · exact List.append_ne_nil_of_right_ne_nil _ (List.cons_ne_nil _ _)

theorem cleanPath_filePath {p name : QString} (hs : '/' ∉ name)
    (ha : isAbsolutePath name = false) :
    cleanPath (filePath p name) =
      render (isRooted p) (pushSegment (isRooted p) (segmentStack p) name) := by
  rw [cleanPath, if_neg filePath_ne_nil, segmentStack_filePath ha, (isRooted_filePath ha).1,
    List.splitOn_eq_singleton hs]
  rfl

section Render

variable {root name top : QString} {rooted : Bool} {stack rest : List QString}

theorem inside_push (hne : stack ≠ []) (h : Inside root (render rooted stack)) :
    Inside root (render rooted (name :: stack)) := by
  rw [render_push _ _ _ hne]
  rcases h with h | h
  · exact .inr ⟨name, by simp [h]⟩
  · exact inside_append h _

theorem inside_pop (htop : '/' ∉ top) (h : root ++ ['/'] <+: render rooted (top :: rest)) :
    Inside root (render rooted rest) := by
  cases rest with
  | cons s rest =>
    rw [render_push _ _ _ (List.cons_ne_nil s rest)] at h
    exact inside_of_append htop h
  | nil =>
    cases rooted with
    | true =>
      have hpre : root ++ ['/'] <+: [] ++ '/' :: top := by simpa [render] using h
      rcases inside_of_append htop hpre with rfl | hnil
      · exact inside_nil_of_rooted rfl
      · exact absurd hnil.length_le (by simp)
    | false =>
      have hmem : '/' ∈ render false [top] := h.subset (by simp)
      exact absurd (by simpa [render] using hmem) htop

-- The path is "/" or ".", which is strictly inside only the empty root.
theorem root_of_bottom (h : Inside root (render rooted [])) :
    render rooted [] = root ∨ (rooted = true ∧ root = []) := by
  refine h.imp_right fun hpre => ?_
  cases rooted with
  | true =>
    have hlength := hpre.length_le
    simp only [render, List.length_append, List.length_cons, List.length_nil, if_true,
      List.reverse_nil, List.intercalate_nil] at hlength
    exact ⟨rfl, List.eq_nil_of_length_eq_zero (by omega)⟩
  | false =>
    have hmem : '/' ∈ render false [] := hpre.subset (by simp)
    exact absurd hmem (by decide)

end Render

theorem inside_cleanPath_filePath {root p name : QString} (hp : p ≠ []) (hc : cleanPath p = p)
    (hi : Inside root p) (hn : name ≠ []) (hs : '/' ∉ name) (ha : isAbsolutePath name = false)
    (h : p = root → name = ['.'] ∨ (name ≠ ['.', '.'] ∧ root ≠ ['/'] ∧ root ≠ ['.']) ∨
      (name = ['.', '.'] ∧ root = ['/'])) :
    Inside root (cleanPath (filePath p name)) := by
  have hr := render_segmentStack hp hc
  have hcan := segmentStack_canonical p
  rw [cleanPath_filePath hs ha]
  generalize isRooted p = rooted at *
  generalize segmentStack p = stack at *
  subst hr
  by_cases hdot : name = ['.']
  · rw [pushSegment.eq_def, if_pos (.inr hdot)]
    exact hi
  · have hskip : ¬ (name = [] ∨ name = ['.']) := not_or.mpr ⟨hn, hdot⟩
    cases stack with
    | nil =>
      rcases root_of_bottom hi with hroot | ⟨rfl, rfl⟩
      · rcases h hroot with h | ⟨-, hslash, hone⟩ | ⟨rfl, hslash⟩
        · exact absurd h hdot
        · cases rooted with
          | true => exact absurd hroot.symm hslash
          | false => exact absurd hroot.symm hone
        · cases rooted with
          | true => exact .inl hroot
          | false => exact absurd (hroot.trans hslash) (by decide)
      · exact inside_nil_of_rooted (isRooted_render _ _ (pushSegment_canonical hcan hs))
    | cons top rest =>
      by_cases hdd : name = ['.', '.']
      · have hne : render rooted (top :: rest) ≠ root := by
          intro hroot
          rcases h hroot with h | ⟨h, _⟩ | ⟨_, h⟩
          · exact hdot h
          · exact h hdd
          · have hstack := congrArg segmentStack (hroot.trans h)
            rw [segmentStack_render _ _ hcan] at hstack
            exact absurd hstack (List.cons_ne_nil top rest)
        rw [pushSegment, if_neg hskip, if_pos hdd]
        split
        · exact inside_push (List.cons_ne_nil top rest) hi
        · exact inside_pop (hcan.no_slash top List.mem_cons_self).1 (hi.resolve_left hne)
      · rw [pushSegment, if_neg hskip, if_neg hdd]
        exact inside_push (List.cons_ne_nil top rest) hi

end Qt.QDir
