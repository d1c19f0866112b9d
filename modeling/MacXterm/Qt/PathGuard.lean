import MacXterm.Qt.Segments

namespace Qt.QDir

def AtOrBelow (root p : QString) : Prop :=
  isRooted p = isRooted root ∧ ∃ names, segments p = segments root ++ names ∧ ∀ s ∈ names, Plain s

structure GuardExact (root : QString) (resolved : Option QString) (result refused : QString) :
    Prop where
  accepts : ∀ p, resolved = some p → AtOrBelow root p → result = p
  refuses : (∀ p, resolved = some p → ¬ AtOrBelow root p) → result = refused

-- Where the test by text and the test by components part.
inductive Blind (root p : QString) : Prop
  | nameless : segments root = [] → p ≠ root → AtOrBelow root p → Blind root p
  | empty : root = [] → isRooted p = true → Blind root p
  | climbing : segments root ≠ [] → isRooted p = isRooted root →
      segments root ++ [dotDot] <+: segments p → Blind root p

theorem atOrBelow_refl (root : QString) : AtOrBelow root root :=
  ⟨rfl, [], (List.append_nil _).symm, nofun⟩

theorem isRooted_of_slash {p : QString} (h : ['/'] <+: p) : isRooted p = true := by
  obtain ⟨w, rfl⟩ := h
  rfl

section Clean

variable {root p q : QString}

theorem segments_no_slash (p : QString) : ∀ s ∈ segments p, '/' ∉ s := by
  intro s hs
  exact ((segmentStack_canonical p).no_slash s (List.mem_reverse.mp hs)).1

theorem eq_of_segments (hp : p ≠ []) (hcp : cleanPath p = p) (hq : q ≠ []) (hcq : cleanPath q = q)
    (hr : isRooted p = isRooted q) (hs : segments p = segments q) : p = q := by
  rw [← render_segmentStack hp hcp, ← render_segmentStack hq hcq, hr, List.reverse_inj.mp hs]

theorem slashed_segments (hp : p ≠ []) (hc : cleanPath p = p) (hne : segments p ≠ []) :
    slashed (segments p) = if isRooted p then p else '/' :: p := by
  have hjoin : slashed (segments p) = '/' :: ['/'].intercalate (segments p) := by
    rw [← absolute_eq _ hne, absolute, render, if_pos rfl, List.reverse_reverse]
  have hstack : segmentStack p ≠ [] := mt List.reverse_eq_nil_iff.mpr hne
  have hp' := render_segmentStack hp hc
  rw [hjoin]
  cases hr : isRooted p with
  | true =>
    rw [hr, render, if_pos rfl] at hp'
    exact hp'
  | false =>
    rw [hr, render, if_neg (by decide), if_neg hstack] at hp'
    exact congrArg ('/' :: ·) hp'

theorem slashed_below {root names : List QString} (hroot : ∀ s ∈ root, '/' ∉ s)
    (hnames : ∀ s ∈ names, '/' ∉ s) :
    slashed root ++ ['/'] <+: slashed names ↔ ∃ n rest, names = root ++ n :: rest := by
  have hstem : slashed root ++ ['/'] = slashed (root ++ [[]]) := by simp [slashed]
  rw [hstem, slashed_prefix hroot List.not_mem_nil hnames]
  rfl

theorem mem_segments {n : QString} (h : n ∈ segments p) : Plain n ∨ n = dotDot := by
  obtain ⟨hseg, -, hplain⟩ := segments_climb p
  rw [hseg] at h
  rcases List.mem_append.mp h with h | h
  · exact .inr (List.eq_of_mem_replicate h)
  · exact .inl (hplain n h)

theorem length_nameless (hp : p ≠ []) (hc : cleanPath p = p) (hnil : segments p = []) :
    p.length = 1 := by
  have hp' := render_segmentStack hp hc
  rw [List.reverse_eq_nil_iff.mp hnil] at hp'
  rw [← hp']
  cases isRooted p with
  | true => rfl
  | false => rfl

theorem prefix_below {names : List QString} (hnames : ∀ s ∈ names, '/' ∉ s) (hp : p ≠ [])
    (hc : cleanPath p = p) (hr : root ≠ [])
    (hroot : (if isRooted p then root else '/' :: root) = slashed names) :
    root ++ ['/'] <+: p ↔ ∃ n rest, segments p = names ++ n :: rest := by
  have hbelow := slashed_below hnames (segments_no_slash p)
  by_cases hnil : segments p = []
  · have hlength := length_nameless hp hc hnil
    have hpos := List.length_pos_of_ne_nil hr
    constructor
    · intro h
      have hle := h.length_le
      rw [List.length_append, List.length_singleton] at hle
      omega
    · rintro ⟨n, rest, h⟩
      rw [hnil] at h
      exact absurd h.symm (by simp)
  · rw [← hbelow, slashed_segments hp hc hnil, ← hroot]
    cases isRooted p with
    | true => rfl
    | false => exact (List.prefix_cons_inj '/').symm

theorem isRooted_of_prefix (hr : root ≠ []) (h : root ++ ['/'] <+: p) :
    isRooted p = isRooted root := by
  obtain ⟨w, rfl⟩ := h
  obtain ⟨c, cs, rfl⟩ := List.exists_cons_of_ne_nil hr
  rfl

theorem inside_iff (hr : root ≠ []) (hcr : cleanPath root = root) (hp : p ≠ [])
    (hcp : cleanPath p = p) (hne : segments root ≠ []) :
    Inside root p ↔ isRooted p = isRooted root ∧ segments root <+: segments p := by
  have hstem := slashed_segments hr hcr hne
  constructor
  · rintro (rfl | h)
    · exact ⟨rfl, List.prefix_rfl⟩
    · have hrooted := isRooted_of_prefix hr h
      rw [← hrooted] at hstem
      obtain ⟨n, rest, hseg⟩ := (prefix_below (segments_no_slash root) hp hcp hr hstem.symm).mp h
      exact ⟨hrooted, n :: rest, hseg.symm⟩
  · rintro ⟨hrooted, names, hseg⟩
    cases names with
    | nil =>
      rw [List.append_nil] at hseg
      exact .inl (eq_of_segments hp hcp hr hcr hrooted hseg.symm)
    | cons n rest =>
      rw [← hrooted] at hstem
      exact .inr ((prefix_below (segments_no_slash root) hp hcp hr hstem.symm).mpr
        ⟨n, rest, hseg.symm⟩)

theorem inside_nameless (hr : root ≠ []) (hcr : cleanPath root = root) (hp : p ≠ [])
    (hcp : cleanPath p = p) (hnil : segments root = []) : Inside root p ↔ p = root := by
  refine ⟨fun h => h.resolve_right fun hprefix => ?_, .inl⟩
  have hrooted := isRooted_of_prefix hr hprefix
  have hroot := render_segmentStack hr hcr
  rw [List.reverse_eq_nil_iff.mp hnil] at hroot
  -- Behind "/" or "." a further slash needs an empty name or a dot in the cleaned path.
  cases h : isRooted root with
  | true =>
    rw [h] at hroot hrooted
    have hstem : (if isRooted p then root else '/' :: root) = slashed [[]] := by
      rw [hrooted, ← hroot]
      rfl
    obtain ⟨n, rest, hseg⟩ := (prefix_below (by simp) hp hcp hr hstem).mp hprefix
    have hmem : [] ∈ segments p := by simp [hseg]
    rcases mem_segments hmem with hplain | hdots
    · exact hplain.2.1 rfl
    · cases hdots
  | false =>
    rw [h] at hroot hrooted
    have hstem : (if isRooted p then root else '/' :: root) = slashed [['.']] := by
      rw [hrooted, ← hroot]
      rfl
    obtain ⟨n, rest, hseg⟩ := (prefix_below (by simp) hp hcp hr hstem).mp hprefix
    have hmem : ['.'] ∈ segments p := by simp [hseg]
    rcases mem_segments hmem with hplain | hdots
    · exact hplain.2.2.1 rfl
    · cases hdots

theorem plain_or_climbing {names : List QString} (h : segments p = segments root ++ names) :
    (∀ s ∈ names, Plain s) ∨ segments root ++ [dotDot] <+: segments p := by
  obtain ⟨hseg, -, hplain⟩ := segments_climb p
  rw [h] at hseg
  rcases List.append_eq_append_iff.mp hseg with ⟨dots, hdots, hnames⟩ | ⟨front, -, hdescent⟩
  · cases dots with
    | nil =>
      refine .inl ?_
      rw [hnames, List.nil_append]
      exact hplain
    | cons d dots =>
      have hd : d = dotDot := by
        have hmem : d ∈ List.replicate (climb p) dotDot := by simp [hdots]
        exact List.eq_of_mem_replicate hmem
      refine .inr ⟨dots ++ descent p, ?_⟩
      rw [h, hnames, hd, List.append_assoc]
      rfl
  · refine .inl fun s hs => hplain s ?_
    rw [hdescent]
    exact List.mem_append_right front hs

theorem not_below_of_climbing (hclimb : segments root ++ [dotDot] <+: segments p) :
    ¬ AtOrBelow root p := by
  rintro ⟨-, names, hnames, hplain⟩
  rw [hnames] at hclimb
  obtain ⟨rest, rfl⟩ := (List.prefix_append_right_inj _).mp hclimb
  exact (hplain dotDot List.mem_cons_self).2.2.2 rfl

theorem inside_exact_iff (hcr : cleanPath root = root) (hp : p ≠ []) (hcp : cleanPath p = p) :
    (Inside root p ↔ AtOrBelow root p) ↔ ¬ Blind root p := by
  by_cases hr : root = []
  · subst hr
    have hinside : Inside [] p ↔ isRooted p = true :=
      ⟨fun h => isRooted_of_slash (h.resolve_left hp), inside_nil_of_rooted⟩
    have hflat (h : AtOrBelow [] p) : isRooted p ≠ true := by
      rw [h.1]
      decide
    rw [hinside]
    constructor
    · rintro h (⟨-, -, hbelow⟩ | ⟨-, hrooted⟩ | ⟨hne, -, -⟩)
      · exact hflat hbelow (h.mpr hbelow)
      · exact hflat (h.mp hrooted) hrooted
      · exact hne rfl
    · intro h
      exact ⟨fun hrooted => absurd (.empty rfl hrooted) h,
        fun hbelow => absurd (.nameless rfl hp hbelow) h⟩
  by_cases hnil : segments root = []
  · rw [inside_nameless hr hcr hp hcp hnil]
    constructor
    · rintro h (⟨-, hne, hbelow⟩ | ⟨hempty, -⟩ | ⟨hne, -, -⟩)
      · exact hne (h.mpr hbelow)
      · exact hr hempty
      · exact hne hnil
    · intro h
      constructor
      · rintro rfl
        exact atOrBelow_refl p
      · intro hbelow
        by_cases hroot : p = root
        · exact hroot
        · exact absurd (.nameless hnil hroot hbelow) h
  · rw [inside_iff hr hcr hp hcp hnil]
    constructor
    · rintro h (⟨hempty, -, -⟩ | ⟨hempty, -⟩ | ⟨-, hrooted, hclimb⟩)
      · exact hnil hempty
      · exact hr hempty
      · exact not_below_of_climbing hclimb
          (h.mp ⟨hrooted, (List.prefix_append _ _).trans hclimb⟩)
    · intro h
      constructor
      · rintro ⟨hrooted, names, hnames⟩
        rcases plain_or_climbing hnames.symm with hplain | hclimb
        · exact ⟨hrooted, names, hnames.symm, hplain⟩
        · exact absurd (.climbing hnil hrooted hclimb) h
      · rintro ⟨hrooted, names, hnames, -⟩
        exact ⟨hrooted, names, hnames.symm⟩

theorem guard_exact_iff {refused : QString} (hcr : cleanPath root = root) (hp : p ≠ [])
    (hcp : cleanPath p = p) (hrefused : refused = [] ∨ refused = root) :
    GuardExact root (some p) (if Inside root p then p else refused) refused ↔ ¬ Blind root p := by
  rw [← inside_exact_iff hcr hp hcp]
  have hsame : p = refused → Inside root p ∧ AtOrBelow root p := by
    rintro rfl
    rcases hrefused with hnil | rfl
    · exact absurd hnil hp
    · exact ⟨.inl rfl, atOrBelow_refl p⟩
  constructor
  · intro h
    by_cases hr : p = refused
    · exact iff_of_true (hsame hr).1 (hsame hr).2
    · constructor
      · intro hin
        by_contra hbelow
        have hresult := h.refuses fun q hq => Option.some.inj hq ▸ hbelow
        rw [if_pos hin] at hresult
        exact hr hresult
      · intro hbelow
        by_contra hin
        have hresult := h.accepts p rfl hbelow
        rw [if_neg hin] at hresult
        exact hr hresult.symm
  · intro h
    refine ⟨?_, ?_⟩
    · intro q hq hbelow
      obtain rfl := Option.some.inj hq
      rw [if_pos (h.mpr hbelow)]
    · intro hout
      rw [if_neg fun hin => hout p rfl (h.mp hin)]

end Clean

end Qt.QDir
