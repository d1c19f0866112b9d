import MacXterm.Lib.Stretches
import MacXterm.Qt.Text

namespace Term

open Qt

variable {Color : Type}

structure HighlightSpan (Color : Type) where
  start : Nat
  length : Nat
  color : Color
  deriving DecidableEq

structure RegexMatch where
  capturedStart : Nat
  capturedLength : Nat
  deriving DecidableEq

-- `globalMatch` is what the regular expression of the rule finds in a line, in its order.
structure Rule (Color : Type) where
  globalMatch : QString → List RegexMatch
  color : Color

structure SyntaxHighlighter (Color : Type) where
  rules : List (Rule Color) := []
  enabled : Bool := false

namespace SyntaxHighlighter

structure Pass (Color : Type) where
  taken : List Bool
  spans : List (HighlightSpan Color)

def columnsFree (taken : List Bool) (start len : Nat) : Bool :=
  ((taken.drop start).take len).all fun t => !t

def takeColumns (taken : List Bool) (start len : Nat) : List Bool :=
  taken.mapIdx fun i t => t || (decide (start ≤ i) && decide (i < start + len))

def addMatch (color : Color) (p : Pass Color) (m : RegexMatch) : Pass Color :=
  if m.capturedLength ≤ 0 then p
  else if !columnsFree p.taken m.capturedStart m.capturedLength then p
  else
    { taken := takeColumns p.taken m.capturedStart m.capturedLength
      spans := p.spans ++ [⟨m.capturedStart, m.capturedLength, color⟩] }

def addRuleMatches (line : QString) (p : Pass Color) (r : Rule Color) : Pass Color :=
  (r.globalMatch line).foldl (addMatch r.color) p

def highlight (h : SyntaxHighlighter Color) (line : QString) : List (HighlightSpan Color) :=
  if !h.enabled || line.isEmpty || h.rules.isEmpty then []
  else
    let p := h.rules.foldl (addRuleMatches line) ⟨List.replicate line.length false, []⟩
    p.spans.mergeSort fun a b => decide (a.start ≤ b.start)

def stretch (s : HighlightSpan Color) : Stretch := ⟨s.start, s.length⟩

def offeredBy (line : QString) (r : Rule Color) : List (HighlightSpan Color) :=
  (r.globalMatch line).map fun m => ⟨m.capturedStart, m.capturedLength, r.color⟩

def offered (h : SyntaxHighlighter Color) (line : QString) : List (HighlightSpan Color) :=
  h.rules.flatMap (offeredBy line)

theorem columnsFree_iff {taken : List Bool} {start len : Nat} :
    columnsFree taken start len = true ↔
      ∀ i, start ≤ i → i < start + len → taken[i]? ≠ some true := by
  rw [columnsFree, List.all_eq_true]
  constructor
  · intro h i hi hlt hget
    have hmem : true ∈ (taken.drop start).take len := by
      refine List.mem_of_getElem? (i := i - start) ?_
      rw [List.getElem?_take_of_lt (by omega), List.getElem?_drop, Nat.add_sub_cancel' hi, hget]
    exact absurd (h true hmem) (by decide)
  · intro h t ht
    obtain ⟨j, hj⟩ := List.mem_iff_getElem?.mp ht
    have hlt : j < len := by
      by_contra hge
      rw [List.getElem?_take, if_neg hge] at hj
      cases hj
    rw [List.getElem?_take_of_lt hlt, List.getElem?_drop] at hj
    cases t with
    | false => rfl
    | true => exact absurd hj (h (start + j) (by omega) (by omega))

theorem takeColumns_iff {taken : List Bool} {start len i : Nat} (hi : i < taken.length) :
    (takeColumns taken start len)[i]? = some true ↔
      taken[i]? = some true ∨ (⟨start, len⟩ : Stretch).Covers i := by
  rw [takeColumns, List.getElem?_mapIdx, List.getElem?_eq_getElem hi]
  simp [Stretch.Covers]

structure Reflects (n : Nat) (offers : List (HighlightSpan Color)) (p : Pass Color) : Prop where
  size : p.taken.length = n
  marks : ∀ i, i < n → (p.taken[i]? = some true ↔ ∃ s ∈ p.spans, (stretch s).Covers i)
  selects : Stretch.Selects stretch offers p.spans

def InRange (n : Nat) (m : RegexMatch) : Prop := m.capturedStart + m.capturedLength ≤ n

instance (n : Nat) (m : RegexMatch) : Decidable (InRange n m) :=
  inferInstanceAs (Decidable (m.capturedStart + m.capturedLength ≤ n))

theorem refused_iff {n : Nat} {offers : List (HighlightSpan Color)} {p : Pass Color}
    (h : Reflects n offers p) {m : RegexMatch} (hm : InRange n m) (color : Color) :
    Stretch.Refused stretch p.spans ⟨m.capturedStart, m.capturedLength, color⟩ ↔
      m.capturedLength = 0 ∨ columnsFree p.taken m.capturedStart m.capturedLength = false := by
  rw [InRange] at hm
  refine or_congr Iff.rfl ?_
  rw [← Bool.not_eq_true, columnsFree_iff]
  push Not
  constructor
  · rintro ⟨s, hs, i, hsi, hi, hlt⟩
    have hn : i < n := lt_of_lt_of_le hlt hm
    exact ⟨i, hi, hlt, (h.marks i hn).mpr ⟨s, hs, hsi⟩⟩
  · rintro ⟨i, hi, hlt, htaken⟩
    obtain ⟨s, hs, hsi⟩ := (h.marks i (by omega)).mp htaken
    exact ⟨s, hs, i, hsi, hi, hlt⟩

theorem reflects_addMatch {n : Nat} {offers : List (HighlightSpan Color)} {p : Pass Color}
    (h : Reflects n offers p) {m : RegexMatch} (hm : InRange n m) (color : Color) :
    Reflects n (offers ++ [⟨m.capturedStart, m.capturedLength, color⟩]) (addMatch color p m) := by
  have hrefused := refused_iff h hm color
  unfold addMatch
  split
  · rename_i hempty
    exact ⟨h.size, h.marks, .skip h.selects (hrefused.mpr (.inl (Nat.le_zero.mp hempty)))⟩
  · rename_i hlen
    split
    · rename_i htaken
      exact ⟨h.size, h.marks, .skip h.selects (hrefused.mpr (.inr (by simpa using htaken)))⟩
    · rename_i hfree
      have hkeep : ¬Stretch.Refused stretch p.spans
          ⟨m.capturedStart, m.capturedLength, color⟩ := by
        rw [hrefused]
        rintro (hzero | htaken)
        · exact hlen (Nat.le_of_eq hzero)
        · exact hfree (by rw [htaken]; rfl)
      refine ⟨?_, fun i hi => ?_, .keep h.selects hkeep⟩
      · rw [takeColumns, List.length_mapIdx, h.size]
      · rw [takeColumns_iff (h.size ▸ hi), h.marks i hi]
        simp only [List.mem_append, List.mem_singleton, or_and_right, exists_or, exists_eq_left]
        rfl

theorem reflects_matches {n : Nat} (color : Color) {found : List RegexMatch}
    (hin : ∀ m ∈ found, InRange n m) {offers : List (HighlightSpan Color)} {p : Pass Color}
    (h : Reflects n offers p) :
    Reflects n
      (offers ++ found.map fun m => ⟨m.capturedStart, m.capturedLength, color⟩)
      (found.foldl (addMatch color) p) := by
  induction found generalizing offers p with
  | nil => rwa [List.map_nil, List.append_nil]
  | cons m found ih =>
    obtain ⟨hm, hin⟩ := List.forall_mem_cons.mp hin
    have hrest := ih hin (reflects_addMatch h hm color)
    rwa [List.append_assoc] at hrest

theorem reflects_rules {n : Nat} {line : QString} {rules : List (Rule Color)}
    (hin : ∀ r ∈ rules, ∀ m ∈ r.globalMatch line, InRange n m)
    {offers : List (HighlightSpan Color)} {p : Pass Color} (h : Reflects n offers p) :
    Reflects n (offers ++ rules.flatMap (offeredBy line))
      (rules.foldl (addRuleMatches line) p) := by
  induction rules generalizing offers p with
  | nil => rwa [List.flatMap_nil, List.append_nil]
  | cons r rules ih =>
    obtain ⟨hr, hin⟩ := List.forall_mem_cons.mp hin
    have hrest := ih hin (reflects_matches r.color hr h)
    rwa [List.append_assoc] at hrest

theorem reflects_start (n : Nat) :
    Reflects n [] (⟨List.replicate n false, []⟩ : Pass Color) := by
  refine ⟨List.length_replicate, fun i hi => ?_, .nil⟩
  rw [List.getElem?_replicate_of_lt hi]
  simp

structure Prioritised (h : SyntaxHighlighter Color) (line : QString) : Prop where
  in_line : ∀ s ∈ h.highlight line, s.start + s.length ≤ line.length
  in_order : (h.highlight line).Pairwise fun s t => (stretch s).Before (stretch t)
  chosen : ∃ chosen, Stretch.Selects stretch (h.offered line) chosen ∧
    (h.highlight line).Perm chosen

theorem offered_in_line {h : SyntaxHighlighter Color} {line : QString}
    (hin : ∀ r ∈ h.rules, ∀ m ∈ r.globalMatch line, InRange line.length m) :
    ∀ s ∈ h.offered line, s.start + s.length ≤ line.length := by
  intro s hs
  obtain ⟨r, hr, hs⟩ := List.mem_flatMap.mp hs
  obtain ⟨m, hm, rfl⟩ := List.mem_map.mp hs
  exact hin r hr m hm

theorem prioritised_of_selects {h : SyntaxHighlighter Color} {line : QString}
    {chosen : List (HighlightSpan Color)}
    (hin : ∀ r ∈ h.rules, ∀ m ∈ r.globalMatch line, InRange line.length m)
    (hselects : Stretch.Selects stretch (h.offered line) chosen)
    (hperm : (h.highlight line).Perm chosen)
    (horder : (h.highlight line).Pairwise fun s t => s.start ≤ t.start) :
    Prioritised h line := by
  refine ⟨fun s hs => ?_, hselects.sorted hperm horder, chosen, hselects, hperm⟩
  exact offered_in_line hin s (hselects.mem s (hperm.mem_iff.mp hs))

theorem offered_nil {h : SyntaxHighlighter Color} {line : QString}
    (hin : ∀ r ∈ h.rules, ∀ m ∈ r.globalMatch line, InRange line.length m)
    (hnone : line = [] ∨ h.rules = []) : Stretch.Selects stretch (h.offered line) [] := by
  refine Stretch.Selects.nil_of_empty fun s hs => ?_
  rcases hnone with rfl | hrules
  · have hzero := offered_in_line hin s hs
    exact Nat.eq_zero_of_le_zero (Nat.le_of_add_left_le hzero)
  · rw [offered, hrules] at hs
    cases hs

theorem sorted_spans (spans : List (HighlightSpan Color)) :
    (spans.mergeSort fun a b => decide (a.start ≤ b.start)).Pairwise
      fun s t => s.start ≤ t.start := by
  have htrans (a b c : HighlightSpan Color) (hab : decide (a.start ≤ b.start) = true)
      (hbc : decide (b.start ≤ c.start) = true) : decide (a.start ≤ c.start) = true :=
    decide_eq_true (Nat.le_trans (of_decide_eq_true hab) (of_decide_eq_true hbc))
  have htotal (a b : HighlightSpan Color) :
      (decide (a.start ≤ b.start) || decide (b.start ≤ a.start)) = true := by
    simpa using Nat.le_total a.start b.start
  exact (List.pairwise_mergeSort htrans htotal spans).imp of_decide_eq_true

theorem prioritised_of_enabled {h : SyntaxHighlighter Color} {line : QString}
    (hon : h.enabled = true)
    (hin : ∀ r ∈ h.rules, ∀ m ∈ r.globalMatch line, InRange line.length m) :
    Prioritised h line := by
  by_cases hnone : line = [] ∨ h.rules = []
  · have hempty : h.highlight line = [] := by
      rw [highlight, if_pos (by rcases hnone with rfl | hrules <;> simp [*])]
    refine prioritised_of_selects hin (offered_nil hin hnone) ?_ ?_
    · rw [hempty]
    · rw [hempty]
      exact .nil
  · obtain ⟨hline, hrules⟩ := not_or.mp hnone
    have hrun := reflects_rules hin (reflects_start line.length)
    rw [List.nil_append] at hrun
    refine prioritised_of_selects hin hrun.selects ?_ ?_
    · rw [highlight, if_neg (by simp [hon, hline, hrules])]
      exact List.mergeSort_perm _ _
    · rw [highlight, if_neg (by simp [hon, hline, hrules])]
      exact sorted_spans _

theorem highlight_prioritised (h : SyntaxHighlighter Color) (line : QString)
    (hin : ∀ r ∈ h.rules, ∀ m ∈ r.globalMatch line, InRange line.length m) :
    if h.enabled then Prioritised h line else h.highlight line = [] := by
  split
  · rename_i hon
    exact prioritised_of_enabled hon hin
  · rename_i hoff
    rw [highlight, if_pos (by simp [hoff])]

def errors (on : Bool) : SyntaxHighlighter Unit where
  rules := [⟨fun _ => [⟨0, 5⟩], ()⟩, ⟨fun _ => [⟨0, 10⟩], ()⟩, ⟨fun _ => [⟨6, 4⟩], ()⟩]
  enabled := on

theorem highlight_errors : Prioritised (errors true) "error 4242".toList := by
  have hin : ∀ r ∈ (errors true).rules, ∀ m ∈ r.globalMatch "error 4242".toList, InRange 10 m := by
    decide
  exact highlight_prioritised (errors true) "error 4242".toList hin

theorem disabled_leaves_out :
    (∀ r ∈ (errors false).rules, ∀ m ∈ r.globalMatch "error 4242".toList, InRange 10 m) ∧
      ¬Prioritised (errors false) "error 4242".toList := by
  constructor
  · decide
  · intro h
    obtain ⟨chosen, hselects, hperm⟩ := h.chosen
    obtain rfl : chosen = [] := List.perm_nil.mp hperm.symm
    have hempty := hselects.empty_of_nil ⟨0, 5, ()⟩ List.mem_cons_self
    exact absurd hempty (by decide)

end SyntaxHighlighter

end Term
