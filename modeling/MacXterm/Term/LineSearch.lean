import MacXterm.Lib.Stretches
import Mathlib.Data.List.DropRight

namespace Term

def units (s : String) : List UInt16 := s.toList.map fun c => UInt16.ofNat c.toNat

def isLetter (u : UInt16) : Bool := 0x41 ≤ u && u ≤ 0x5A || 0x61 ≤ u && u ≤ 0x7A

-- How units compare without their case; in ASCII only letters have one.
structure CaseFold where
  fold : UInt16 → UInt16
  caseless : ∀ u v, u < 0x80 → isLetter u = false → fold u = fold v → u = v

namespace CaseFold

variable (f : CaseFold)

def matchesAt (text query : List UInt16) (i : Nat) : Bool :=
  ((text.drop i).take query.length).map f.fold == query.map f.fold

-- text.indexOf(query, from, CaseInsensitive), and from = idx + 1
def search (text query : List UInt16) : Finder where
  found := f.matchesAt text query
  resume i := i + 1
  lt_resume := Nat.lt_succ_self

def findMatches (lines : List (List UInt16)) (query : List UInt16) : List (Nat × Nat) :=
  if query.isEmpty then []
  else lines.zipIdx.flatMap fun row =>
    ((f.search row.1 query).all row.1.length 0).map fun idx => (idx, row.2)

-- What ends a link: white space, quotes and brackets.
def isStop (u : UInt16) : Bool :=
  0x09 ≤ u && u ≤ 0x0D || (units " \"'<>()").contains u

def linkHeads : List (List UInt16) :=
  [units "https://", units "http://", units "ftp://", units "file://", units "www."]

def stretch (row : List UInt16) (i : Nat) : Nat :=
  ((row.drop i).takeWhile fun u => !isStop u).length

def headLength (row : List UInt16) (i : Nat) (head : List UInt16) : Option Nat :=
  if f.matchesAt row head i && decide (0 < stretch row (i + head.length)) then
    some (head.length + stretch row (i + head.length))
  else none

-- The length of the match of the regular expression at a column, or zero.
def linkLength (row : List UInt16) (i : Nat) : Nat :=
  (linkHeads.findSome? (f.headLength row i)).getD 0

def globalMatch (row : List UInt16) : Finder where
  found i := 0 < f.linkLength row i
  resume i := i + max 1 (f.linkLength row i)
  lt_resume i := by omega

def isPunctuation (u : UInt16) : Bool := (units ".,;:!?").contains u

def linkText (row : List UInt16) (start : Nat) : List UInt16 :=
  ((row.drop start).take (f.linkLength row start)).rdropWhile isPunctuation

def detectUrlAt (row : List UInt16) (col : Nat) : List UInt16 :=
  match (f.globalMatch row).covering row.length 0 col with
  | none => []
  | some start =>
      let url := f.linkText row start
      if f.matchesAt url (units "www.") 0 then units "https://" ++ url else url

end CaseFold

-- The query stands in the text at a column, but for case.
def OccursAt (f : CaseFold) (text query : List UInt16) (i : Nat) : Prop :=
  ∃ before found after, text = before ++ (found ++ after) ∧ before.length = i ∧
    found.map f.fold = query.map f.fold

def ReadingOrder (p q : Nat × Nat) : Prop := p.2 < q.2 ∨ p.2 = q.2 ∧ p.1 < q.1

variable {f : CaseFold} {text query row : List UInt16} {i col : Nat}

theorem matchesAt_iff (hquery : query ≠ []) :
    f.matchesAt text query i = true ↔ OccursAt f text query i := by
  rw [CaseFold.matchesAt, beq_iff_eq]
  constructor
  · intro h
    have hlen := congrArg List.length h
    rw [List.length_map, List.length_map, List.length_take, List.length_drop] at hlen
    have hpos := List.length_pos_iff.mpr hquery
    refine ⟨text.take i, (text.drop i).take query.length, (text.drop i).drop query.length,
      ?_, ?_, h⟩
    · rw [List.take_append_drop, List.take_append_drop]
    · rw [List.length_take]
      omega
  · rintro ⟨before, found, after, rfl, rfl, h⟩
    have hlen := congrArg List.length h
    rw [List.length_map, List.length_map] at hlen
    rw [List.drop_left, ← hlen, List.take_left, h]

theorem occursAt_le (h : OccursAt f text query i) :
    i + query.length ≤ text.length := by
  obtain ⟨before, found, after, rfl, rfl, h⟩ := h
  have hlen := congrArg List.length h
  rw [List.length_map, List.length_map] at hlen
  rw [List.length_append, List.length_append]
  omega

theorem mem_findMatches_iff (lines : List (List UInt16)) {x y : Nat} :
    (x, y) ∈ f.findMatches lines query ↔
      query ≠ [] ∧ ∃ text, lines[y]? = some text ∧ OccursAt f text query x := by
  rw [CaseFold.findMatches]
  by_cases hquery : query = []
  · simp [hquery]
  · rw [if_neg (by simpa using hquery), List.mem_flatMap]
    constructor
    · rintro ⟨⟨text, k⟩, hline, hmem⟩
      obtain ⟨idx, hidx, heq⟩ := List.mem_map.mp hmem
      obtain ⟨rfl, rfl⟩ := Prod.mk.inj heq
      have hfound := (Finder.mem_all hidx).1
      exact ⟨hquery, text, List.mem_zipIdx_iff_getElem?.mp hline, (matchesAt_iff hquery).mp hfound⟩
    · rintro ⟨-, text, hline, hoccurs⟩
      have hle := occursAt_le hoccurs
      have hpos := List.length_pos_iff.mpr hquery
      refine ⟨(text, y), List.mem_zipIdx_iff_getElem?.mpr hline, List.mem_map.mpr ⟨x, ?_, rfl⟩⟩
      exact (Finder.mem_all_iff fun _ => rfl).mpr
        ⟨(matchesAt_iff hquery).mpr hoccurs, Nat.zero_le _, Nat.lt_of_lt_of_le (by omega) hle⟩

theorem pairwise_findMatches (lines : List (List UInt16)) :
    (f.findMatches lines query).Pairwise ReadingOrder := by
  rw [CaseFold.findMatches]
  split
  · exact .nil
  · refine List.pairwise_flatMap.mpr ⟨fun text _ => ?_, ?_⟩
    · refine List.pairwise_map.mpr (Finder.pairwise_all.imp fun h => .inr ⟨rfl, h⟩)
    · have hindex : (lines.zipIdx.map Prod.snd).Pairwise (· < ·) := by
        rw [List.zipIdx_map_snd]
        exact List.pairwise_lt_range'
      refine (List.pairwise_map.mp hindex).imp fun {a b} hlt p hp q hq => ?_
      obtain ⟨_, _, rfl⟩ := List.mem_map.mp hp
      obtain ⟨_, _, rfl⟩ := List.mem_map.mp hq
      exact .inl hlt

-- The matches are the places of the query on the lines, each once and in reading order.
theorem findMatches_exact (f : CaseFold) (lines : List (List UInt16)) (query : List UInt16) :
    (f.findMatches lines query).Pairwise ReadingOrder ∧
      ∀ x y, (x, y) ∈ f.findMatches lines query ↔
        query ≠ [] ∧ ∃ text, lines[y]? = some text ∧ OccursAt f text query x :=
  ⟨pairwise_findMatches lines, fun _ _ => mem_findMatches_iff lines⟩

-- Every unit from `i` up to `j` is there, and none of them ends a link.
def StopFree (row : List UInt16) (i j : Nat) : Prop :=
  ∀ k, i ≤ k → k < j → ∃ u, row[k]? = some u ∧ CaseFold.isStop u = false

-- What the regular expression matches, however far: a head and something after it.
def LinkAt (f : CaseFold) (row : List UInt16) (start stop : Nat) : Prop :=
  ∃ head ∈ CaseFold.linkHeads, OccursAt f row head start ∧ start + head.length < stop ∧
    StopFree row start stop

def schemes : List (List UInt16) :=
  [units "https://", units "http://", units "ftp://", units "file://"]

-- What is opened begins with a scheme, or the punctuation has left nothing after the www.
def Opened (f : CaseFold) (url : List UInt16) : Prop :=
  (∃ scheme ∈ schemes, OccursAt f url scheme 0) ∨ url.map f.fold = (units "www").map f.fold

section Stretch

open CaseFold

variable {j k : Nat}

theorem StopFree.append (h : StopFree row i j) (h' : StopFree row j k) : StopFree row i k := by
  intro n hi hk
  rcases Nat.lt_or_ge n j with hlt | hge
  · exact h n hi hlt
  · exact h' n hge hk

theorem getElem?_stretch (row : List UInt16) (i n : Nat) :
    row[i + n]? = (((row.drop i).takeWhile fun u => !isStop u) ++
      (row.drop i).dropWhile fun u => !isStop u)[n]? := by
  rw [List.takeWhile_append_dropWhile, List.getElem?_drop]

theorem stopFree_stretch (row : List UInt16) (i : Nat) :
    StopFree row i (i + stretch row i) := by
  intro k hi hk
  obtain ⟨n, rfl⟩ := Nat.exists_eq_add_of_le hi
  have hn : n < ((row.drop i).takeWhile fun u => !isStop u).length := Nat.lt_of_add_lt_add_left hk
  rw [getElem?_stretch, List.getElem?_append_left hn, List.getElem?_eq_getElem hn]
  have hrun := List.mem_takeWhile_imp (List.getElem_mem hn)
  exact ⟨_, rfl, Bool.not_eq_true' _ ▸ hrun⟩

theorem isStop_stretch {u : UInt16} (h : row[i + stretch row i]? = some u) :
    isStop u = true := by
  rw [getElem?_stretch, stretch, List.getElem?_append_right (Nat.le_refl _), Nat.sub_self,
    ← List.head?_eq_getElem?] at h
  have hhead := List.head?_dropWhile_not (fun u => !isStop u) (row.drop i)
  rw [h] at hhead
  simpa using hhead

theorem StopFree.le_stretch (h : StopFree row i j) : j ≤ i + stretch row i := by
  by_contra hlt
  obtain ⟨u, hu, hstop⟩ := h (i + stretch row i) (Nat.le_add_right _ _) (by omega)
  rw [isStop_stretch hu] at hstop
  cases hstop

theorem StopFree.mono (h : StopFree row i k) (hij : i ≤ j) : StopFree row j k :=
  fun n hj hk => h n (Nat.le_trans hij hj) hk

-- The stretch from anywhere in a stretch has the same end.
theorem StopFree.stretch_eq (h : StopFree row i j) (hij : i ≤ j) :
    i + stretch row i = j + stretch row j :=
  Nat.le_antisymm ((stopFree_stretch row i).mono hij).le_stretch
    (h.append (stopFree_stretch row j)).le_stretch

theorem StopFree.le_length (h : StopFree row i j) (hij : i < j) : j ≤ row.length := by
  obtain ⟨u, hu, -⟩ := h (j - 1) (by omega) (by omega)
  have hlt := (List.getElem?_eq_some_iff.mp hu).1
  omega

end Stretch

section Link

open CaseFold

theorem caseless_isStop {u : UInt16} (h : isStop u = true) : u < 0x80 ∧ isLetter u = false := by
  rw [isStop, Bool.or_eq_true, Bool.and_eq_true, decide_eq_true_eq, decide_eq_true_eq,
    List.contains_iff_mem] at h
  rcases h with ⟨hlow, hhigh⟩ | hmem
  · rw [UInt16.le_iff_toNat_le] at hlow hhigh
    rw [isLetter, UInt16.lt_iff_toNat_lt]
    simp only [UInt16.le_iff_toNat_le, Bool.or_eq_false_iff, Bool.and_eq_false_iff,
      decide_eq_false_iff_not]
    simp only [UInt16.reduceToNat] at hlow hhigh ⊢
    omega
  · have hall : (units " \"'<>()").all (fun u => decide (u < 0x80) && !isLetter u) = true := by
      decide
    simpa using List.all_eq_true.mp hall u hmem

theorem linkHeads_caseless {head : List UInt16} (hhead : head ∈ linkHeads) {u : UInt16}
    (hu : u ∈ head) : isStop u = false := by
  have hall : linkHeads.all (fun head => head.all fun u => !isStop u) = true := by decide
  simpa using List.all_eq_true.mp (List.all_eq_true.mp hall head hhead) u hu

theorem getElem?_occursAt {n : Nat} {u : UInt16} (h : OccursAt f text query i)
    (hn : query[n]? = some u) : ∃ v, text[i + n]? = some v ∧ f.fold v = f.fold u := by
  obtain ⟨before, found, after, rfl, rfl, hfold⟩ := h
  have hmap : (found[n]?).map f.fold = some (f.fold u) := by
    rw [← List.getElem?_map, hfold, List.getElem?_map, hn]
    rfl
  obtain ⟨v, hv, huv⟩ := Option.map_eq_some_iff.mp hmap
  have hlt := (List.getElem?_eq_some_iff.mp hv).1
  refine ⟨v, ?_, huv⟩
  rw [List.getElem?_append_right (Nat.le_add_right _ _), Nat.add_sub_cancel_left,
    List.getElem?_append_left hlt, hv]

theorem OccursAt.stopFree {head : List UInt16} (h : OccursAt f row head i)
    (hhead : head ∈ linkHeads) : StopFree row i (i + head.length) := by
  intro k hi hk
  obtain ⟨n, rfl⟩ := Nat.exists_eq_add_of_le hi
  have hn : n < head.length := Nat.lt_of_add_lt_add_left hk
  have hget := List.getElem?_eq_getElem hn
  obtain ⟨v, hv, hfold⟩ := getElem?_occursAt h hget
  refine ⟨v, hv, Bool.eq_false_iff.mpr fun hstop => ?_⟩
  obtain ⟨hlt, hletter⟩ := caseless_isStop hstop
  have heq := f.caseless v _ hlt hletter hfold
  rw [heq, linkHeads_caseless hhead (List.getElem_mem hn)] at hstop
  cases hstop

theorem linkHeads_ne_nil : ∀ head ∈ linkHeads, head ≠ [] := by decide

theorem linkAt_linkLength (h : 0 < f.linkLength row i) :
    LinkAt f row i (i + f.linkLength row i) ∧
      i + f.linkLength row i = i + stretch row i := by
  rw [linkLength] at h ⊢
  cases hsome : linkHeads.findSome? (f.headLength row i) with
  | none =>
    rw [hsome] at h
    exact absurd h (Nat.lt_irrefl 0)
  | some len =>
    obtain ⟨head, hhead, hlen⟩ := List.exists_of_findSome?_eq_some hsome
    obtain ⟨hmatch, hlen⟩ := Option.ite_none_right_eq_some.mp hlen
    rw [Bool.and_eq_true, decide_eq_true_eq] at hmatch
    have hoccurs := (matchesAt_iff (linkHeads_ne_nil head hhead)).mp hmatch.1
    have hfree := hoccurs.stopFree hhead
    have hend := hfree.stretch_eq (Nat.le_add_right _ _)
    obtain rfl := Option.some.inj hlen
    rw [Option.getD_some, ← Nat.add_assoc, ← hend]
    exact ⟨⟨head, hhead, hoccurs, by omega, stopFree_stretch row i⟩, rfl⟩

theorem LinkAt.linkLength {start stop : Nat} (h : LinkAt f row start stop) :
    0 < f.linkLength row start ∧ stop ≤ start + f.linkLength row start := by
  obtain ⟨head, hhead, hoccurs, hlt, hfree⟩ := h
  have hmatch := (matchesAt_iff (linkHeads_ne_nil head hhead)).mpr hoccurs
  have hrun := (hfree.mono (Nat.le_add_right start head.length)).le_stretch
  have hpos : 0 < f.linkLength row start := by
    rw [CaseFold.linkLength]
    cases hsome : linkHeads.findSome? (f.headLength row start) with
    | none =>
      have hnone := List.findSome?_eq_none_iff.mp hsome head hhead
      rw [headLength, hmatch, decide_eq_true (by omega)] at hnone
      cases hnone
    | some len =>
      obtain ⟨other, hother, hlen⟩ := List.exists_of_findSome?_eq_some hsome
      obtain ⟨hgood, hlen⟩ := Option.ite_none_right_eq_some.mp hlen
      rw [Bool.and_eq_true, decide_eq_true_eq] at hgood
      obtain rfl := Option.some.inj hlen
      rw [Option.getD_some]
      omega
  exact ⟨hpos, (linkAt_linkLength hpos).2 ▸ hfree.le_stretch⟩

theorem exists_covering {start stop : Nat} (h : LinkAt f row start stop) (hstart : start ≤ col)
    (hstop : col < stop) : ∃ i, (f.globalMatch row).covering row.length 0 col = some i := by
  obtain ⟨hpos, hle⟩ := h.linkLength
  obtain ⟨-, -, -, hlt, hfree⟩ := h
  have hlength := hfree.le_length (by omega)
  obtain ⟨i, hi, hle_i, hcover⟩ := Finder.covered_all (s := f.globalMatch row) (n := row.length)
    (decide_eq_true hpos) (Nat.zero_le start) (by omega)
  have hfound : 0 < f.linkLength row i := of_decide_eq_true (Finder.mem_all hi).1
  have hend := (linkAt_linkLength hfound).2
  have hresume : (f.globalMatch row).resume i = i + f.linkLength row i :=
    congrArg (i + ·) (Nat.max_eq_right hfound)
  have hsame : i + stretch row i = start + stretch row start :=
    StopFree.stretch_eq (fun k hi hk => stopFree_stretch row i k hi (by omega)) hle_i
  have hstretch := (linkAt_linkLength hpos).2
  exact ⟨i, Finder.covering_eq_some_iff.mpr ⟨hi, by omega, by omega⟩⟩

theorem linkAt_covering {i : Nat}
    (h : (f.globalMatch row).covering row.length 0 col = some i) :
    0 < f.linkLength row i ∧ i ≤ col ∧ col < i + f.linkLength row i := by
  obtain ⟨hi, hle, hlt⟩ := Finder.covering_eq_some_iff.mp h
  have hfound : 0 < f.linkLength row i := of_decide_eq_true (Finder.mem_all hi).1
  have hresume : (f.globalMatch row).resume i = i + f.linkLength row i :=
    congrArg (i + ·) (Nat.max_eq_right hfound)
  exact ⟨hfound, hle, hresume ▸ hlt⟩

-- Further along the same stretch it is the same link.
theorem covering_same {i col' : Nat}
    (h : (f.globalMatch row).covering row.length 0 col = some i) (hle : col ≤ col')
    (hfree : StopFree row col (col' + 1)) :
    (f.globalMatch row).covering row.length 0 col' = some i := by
  obtain ⟨hfound, hi, hlt⟩ := linkAt_covering h
  have hend := (linkAt_linkLength hfound).2
  have hmore : StopFree row i (col' + 1) := StopFree.append
    (fun k hik hk => stopFree_stretch row i k hik (by omega)) hfree
  have hcol := hmore.le_stretch
  refine Finder.covering_eq_some_iff.mpr ⟨(Finder.covering_eq_some_iff.mp h).1, by omega, ?_⟩
  exact Nat.lt_of_lt_of_le (by omega) (Nat.add_le_add_left (Nat.le_max_right 1 _) i)

theorem length_rdropWhile_of_getElem? {p : UInt16 → Bool} {l : List UInt16} {n : Nat} {u : UInt16}
    (h : l[n]? = some u) (hp : p u = false) : n < (l.rdropWhile p).length := by
  by_contra hge
  rw [← List.rdropWhile_append_rtakeWhile (p := p) (l := l),
    List.getElem?_append_right (Nat.le_of_not_lt hge)] at h
  have hmem := List.mem_rtakeWhile_imp (List.mem_of_getElem? h)
  rw [hp] at hmem
  cases hmem

theorem linkText_initial (f : CaseFold) (row : List UInt16) (i : Nat) :
    f.linkText row i <+: row.drop i :=
  (List.rdropWhile_prefix _ _).trans (List.take_prefix _ _)

theorem occursAt_of_prefix {l : List UInt16} (h : OccursAt f row query i) (hl : l <+: row.drop i)
    (hlen : query.length ≤ l.length) : OccursAt f l query 0 := by
  obtain ⟨before, found, after, rfl, rfl, hfold⟩ := h
  rw [List.drop_left] at hl
  have hfound : found.length ≤ l.length := by
    have heq := congrArg List.length hfold
    rw [List.length_map, List.length_map] at heq
    omega
  obtain ⟨rest, rfl⟩ := List.prefix_of_prefix_length_le (List.prefix_append found after) hl hfound
  exact ⟨[], found, rest, rfl, rfl, hfold⟩

theorem getElem?_linkText {n : Nat} {u : UInt16} (hn : n < f.linkLength row i)
    (h : row[i + n]? = some u) (hu : isPunctuation u = false) :
    n < (f.linkText row i).length :=
  length_rdropWhile_of_getElem? (by rw [List.getElem?_take_of_lt hn, List.getElem?_drop, h]) hu

theorem caseless_isPunctuation {u : UInt16} (h : isPunctuation u = true) :
    u < 0x80 ∧ isLetter u = false := by
  have hall : (units ".,;:!?").all (fun u => decide (u < 0x80) && !isLetter u) = true := by decide
  rw [isPunctuation, List.contains_iff_mem] at h
  simpa using List.all_eq_true.mp hall u h

-- A unit that stands for a letter or a slash is no punctuation.
theorem isPunctuation_of_fold {u v : UInt16} (h : f.fold v = f.fold u)
    (hu : isPunctuation u = false) : isPunctuation v = false := by
  refine Bool.eq_false_iff.mpr fun hv => ?_
  obtain ⟨hlt, hletter⟩ := caseless_isPunctuation hv
  have heq := f.caseless v u hlt hletter h
  rw [heq, hu] at hv
  cases hv

-- The link keeps its head up to the last unit that is no punctuation.
theorem length_linkText {head : List UInt16} {n : Nat} {u : UInt16}
    (h : OccursAt f row head i) (hn : head[n]? = some u) (hu : isPunctuation u = false)
    (hlt : n < f.linkLength row i) : n < (f.linkText row i).length := by
  obtain ⟨v, hv, hfold⟩ := getElem?_occursAt h hn
  exact getElem?_linkText hlt hv (isPunctuation_of_fold hfold hu)

theorem linkHeads_cases : ∀ head ∈ linkHeads,
    head ∈ schemes ∧ head[head.length - 1]? = some 0x2F ∨ head = units "www." := by decide

def opened (f : CaseFold) (row : List UInt16) (start : Nat) : List UInt16 :=
  if f.matchesAt (f.linkText row start) (units "www.") 0 then
    units "https://" ++ f.linkText row start
  else f.linkText row start

theorem detectUrlAt_of_covering
    (h : (f.globalMatch row).covering row.length 0 col = some i) :
    f.detectUrlAt row col = opened f row i := by
  rw [detectUrlAt, h]
  rfl

theorem occursAt_https (f : CaseFold) (url : List UInt16) :
    Opened f (units "https://" ++ url) :=
  .inl ⟨units "https://", by decide, [], units "https://", url, rfl, rfl, rfl⟩

theorem opened_form (hpos : 0 < f.linkLength row i) :
    opened f row i ≠ [] ∧ Opened f (opened f row i) := by
  obtain ⟨⟨head, hhead, hoccurs, hlt, -⟩, -⟩ := linkAt_linkLength hpos
  have hlen : head.length < f.linkLength row i := Nat.lt_of_add_lt_add_left hlt
  have hprefix := linkText_initial f row i
  rw [opened]
  split
  · exact ⟨by simp [units], occursAt_https f _⟩
  · next hwww =>
    rcases linkHeads_cases head hhead with ⟨hscheme, hlast⟩ | rfl
    · have hpos' := List.length_pos_iff.mpr (linkHeads_ne_nil head hhead)
      have hkept := length_linkText hoccurs hlast (by decide) (by omega)
      exact ⟨List.length_pos_iff.mp (by omega),
        .inl ⟨head, hscheme, occursAt_of_prefix hoccurs hprefix (by omega)⟩⟩
    · have hlen' : (units "www.").length = 4 := rfl
      have hkept := length_linkText (n := 2) hoccurs rfl (by decide) (by omega)
      have hshort : (f.linkText row i).length = 3 := by
        by_contra hne
        have hfour := occursAt_of_prefix hoccurs hprefix (by omega)
        exact hwww ((matchesAt_iff (by decide)).mpr hfour)
      refine ⟨List.length_pos_iff.mp (by omega), .inr ?_⟩
      obtain ⟨before, found, after, rfl, rfl, hfold⟩ := hoccurs
      rw [List.drop_left] at hprefix
      have hfound : found.length = 4 := by
        have heq := congrArg List.length hfold
        rwa [List.length_map, List.length_map] at heq
      have htext : f.linkText (before ++ (found ++ after)) before.length = found.take 3 := by
        rw [List.prefix_iff_eq_take.mp hprefix, hshort, List.take_append_of_le_length (by omega)]
      rw [htext, List.map_take, hfold]
      rfl

theorem linkText_infix (f : CaseFold) (row : List UInt16) (i : Nat) :
    f.linkText row i <:+: row :=
  (linkText_initial f row i).isInfix.trans (List.drop_suffix i row).isInfix

theorem isStop_linkText (hpos : 0 < f.linkLength row i) :
    ∀ u ∈ f.linkText row i, isStop u = false := by
  intro u hu
  have htake := (List.rdropWhile_prefix _ _).subset hu
  obtain ⟨n, hn, hget⟩ := List.mem_iff_getElem.mp htake
  rw [List.length_take, List.length_drop] at hn
  have hend := (linkAt_linkLength hpos).2
  obtain ⟨v, hv, hstop⟩ := stopFree_stretch row i (i + n) (Nat.le_add_right _ _) (by omega)
  rw [List.getElem_take, List.getElem_drop] at hget
  rw [List.getElem?_eq_getElem (by omega), hget] at hv
  exact Option.some.inj hv ▸ hstop

theorem isPunctuation_getLast (f : CaseFold) (row : List UInt16) (i : Nat) (u : UInt16)
    (h : (f.linkText row i).getLast? = some u) : isPunctuation u = false := by
  have hne : f.linkText row i ≠ [] := fun hnil => by
    rw [hnil] at h
    cases h
  rw [List.getLast?_eq_some_getLast hne] at h
  have hlast := List.rdropWhile_last_not isPunctuation _ hne
  exact Option.some.inj h ▸ Bool.eq_false_iff.mpr hlast

end Link

end Term
