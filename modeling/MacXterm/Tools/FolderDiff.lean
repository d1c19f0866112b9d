import MacXterm.Qt.Map
import Mathlib.Data.List.Dedup
import Mathlib.Data.List.Sort

namespace FolderDiff

open Qt

-- What an iterator meets in a folder; a file that does not open has no bytes.
structure Folder where
  name : QString
  files : List (QString × Option QByteArray)
  folders : List Folder

inductive Kind where
  | onlyLeft | onlyRight | differ | same
deriving DecidableEq

structure Entry where
  relPath : QString
  kind : Kind
deriving DecidableEq

mutual

def filesBelow : Folder → List (QString × Option QByteArray)
  | ⟨_, files, folders⟩ => files ++ subFiles folders

def subFiles : List Folder → List (QString × Option QByteArray)
  | [] => []
  | sub :: rest => (filesBelow sub).map (fun e => (sub.name ++ '/' :: e.1, e.2)) ++ subFiles rest

end

def relFiles (root : Folder) (recursive : Bool) : List QString :=
  (if recursive then filesBelow root else root.files).map (·.1)

-- The file at the end of a path.
def walk : List QString → Folder → Option (Option QByteArray)
  | [], _ => none
  | [name], dir => dir.files.lookup name
  | name :: next :: path, dir =>
      match dir.folders.find? (·.name = name) with
      | some sub => walk (next :: path) sub
      | none => none

def Folder.file (dir : Folder) (rel : QString) : Option (Option QByteArray) :=
  walk (rel.splitOn '/') dir

def kChunk : Nat := 65536

-- The loop that reads both files to the end of the first.
def sameChunks (fa fb : QByteArray) : Bool :=
  if fa = [] then true
  else if fa.take kChunk ≠ fb.take kChunk then false
  else sameChunks (fa.drop kChunk) (fb.drop kChunk)
termination_by fa.length
decreasing_by
  have := List.length_pos_of_ne_nil ‹_›
  rw [List.length_drop]
  unfold kChunk
  omega

def sameContent (a b : Option QByteArray) : Bool :=
  match a, b with
  | some fa, some fb => if fa.length ≠ fb.length then false else sameChunks fa fb
  | _, _ => false

def kindOf (leftDir rightDir : Folder) (left right : List QString) (rel : QString) : Kind :=
  if rel ∈ left ∧ rel ∉ right then .onlyLeft
  else if rel ∉ left ∧ rel ∈ right then .onlyRight
  else if sameContent (leftDir.file rel).join (rightDir.file rel).join then .same
  else .differ

def sorted (all : List QString) : List QString :=
  all.dedup.mergeSort fun a b => decide (units a ≤ units b)

def compare (leftDir rightDir : Folder) (recursive : Bool) : List Entry :=
  let left := relFiles leftDir recursive
  let right := relFiles rightDir recursive
  (sorted (left ++ right)).map fun rel => ⟨rel, kindOf leftDir rightDir left right rel⟩

section Contents

theorem sameChunks_iff {fa fb : QByteArray} (h : fa.length = fb.length) :
    sameChunks fa fb = true ↔ fa = fb := by
  induction fa, fb using sameChunks.induct with
  | case1 fb =>
    have hnil : fb = [] := List.length_eq_zero_iff.mp h.symm
    rw [sameChunks, if_pos rfl, hnil]
    exact iff_of_true rfl rfl
  | case2 fa fb hne hchunk =>
    rw [sameChunks, if_neg hne, if_pos hchunk]
    exact iff_of_false (by simp) fun heq => hchunk (heq ▸ rfl)
  | case3 fa fb hne hchunk ih =>
    have hlength : (fa.drop kChunk).length = (fb.drop kChunk).length := by
      rw [List.length_drop, List.length_drop, h]
    rw [sameChunks, if_neg hne, if_neg hchunk, ih hlength]
    constructor
    · intro hrest
      rw [← List.take_append_drop kChunk fa, ← List.take_append_drop kChunk fb, hrest,
        not_not.mp hchunk]
    · rintro rfl
      rfl

theorem sameContent_iff (a b : Option QByteArray) :
    sameContent a b = true ↔ a = b ∧ a ≠ none := by
  cases a with
  | none => simp [sameContent]
  | some fa =>
    cases b with
    | none => simp [sameContent]
    | some fb =>
      simp only [sameContent]
      by_cases hlength : fa.length = fb.length
      · rw [if_neg (not_not.mpr hlength), sameChunks_iff hlength]
        simp
      · rw [if_pos hlength]
        refine iff_of_false (by simp) fun h => hlength ?_
        rw [Option.some.inj h.1]

end Contents

section Paths

-- Names as the system has them, and no two alike in a folder.
def Named (names : List QString) : Prop := names.Nodup ∧ ∀ n ∈ names, '/' ∉ n

mutual

def Proper : Folder → Prop
  | ⟨_, files, folders⟩ =>
      Named (files.map (·.1)) ∧ Named (folders.map (·.name)) ∧ AllProper folders

def AllProper : List Folder → Prop
  | [] => True
  | sub :: rest => Proper sub ∧ AllProper rest

end

theorem allProper_iff (folders : List Folder) : AllProper folders ↔ ∀ sub ∈ folders, Proper sub := by
  induction folders with
  | nil => simp [AllProper]
  | cons sub rest ih => simp [AllProper, ih]

theorem file_name {n : QString} (h : '/' ∉ n) (dir : Folder) :
    dir.file n = dir.files.lookup n := by
  rw [Folder.file, List.splitOn_eq_singleton h]
  rfl

theorem file_path {n : QString} (h : '/' ∉ n) (rel : QString) (dir : Folder) :
    dir.file (n ++ '/' :: rel) = (dir.folders.find? (·.name = n)).bind (·.file rel) := by
  obtain ⟨next, path, hsplit⟩ := List.exists_cons_of_ne_nil (List.splitOn_ne_nil '/' rel)
  rw [Folder.file, List.splitOn_append_cons_self_of_not_mem h, hsplit, walk]
  cases dir.folders.find? (·.name = n) with
  | none => rfl
  | some sub => simp [Folder.file, hsplit]

theorem path_inj {n m : QString} (hn : '/' ∉ n) (hm : '/' ∉ m) {p q : QString}
    (h : m ++ '/' :: p = n ++ '/' :: q) : m = n ∧ p = q := by
  have hsplit := congrArg (List.splitOn '/') h
  rw [List.splitOn_append_cons_self_of_not_mem hm,
    List.splitOn_append_cons_self_of_not_mem hn] at hsplit
  obtain rfl : m = n := (List.cons.inj hsplit).1
  exact ⟨rfl, (List.cons.inj (List.append_cancel_left h)).2⟩

theorem lookup_map_path {n m : QString} (hn : '/' ∉ n) (hm : '/' ∉ m) (rel : QString)
    (es : List (QString × Option QByteArray)) :
    (es.map fun e => (m ++ '/' :: e.1, e.2)).lookup (n ++ '/' :: rel) =
      if m = n then es.lookup rel else none := by
  induction es with
  | nil => simp
  | cons e es ih =>
    rw [List.map_cons, QMap.lookup_entry, QMap.lookup_entry, ih]
    by_cases hmn : m = n
    · subst hmn
      simp
    · have hne : n ++ '/' :: rel ≠ m ++ '/' :: e.1 := fun h => hmn (path_inj hn hm h.symm).1
      rw [if_neg hne, if_neg hmn, if_neg hmn]

theorem slash_mem_subFiles {folders : List Folder} {e : QString × Option QByteArray}
    (h : e ∈ subFiles folders) : '/' ∈ e.1 := by
  induction folders with
  | nil => cases h
  | cons sub rest ih =>
    rcases List.mem_append.mp h with hsub | hrest
    · obtain ⟨d, -, rfl⟩ := List.mem_map.mp hsub
      exact List.mem_append_right _ List.mem_cons_self
    · exact ih hrest

theorem lookup_eq_none {es : List (QString × Option QByteArray)} {rel : QString}
    (h : ∀ e ∈ es, e.1 ≠ rel) : es.lookup rel = none := by
  rw [List.lookup_eq_none_iff]
  exact fun e he => bne_iff_ne.mpr (Ne.symm (h e he))

theorem lookup_subFiles {n : QString} (hn : '/' ∉ n) (rel : QString) {folders : List Folder}
    (h : Named (folders.map (·.name))) : (subFiles folders).lookup (n ++ '/' :: rel) =
      (folders.find? (·.name = n)).bind fun sub => (filesBelow sub).lookup rel := by
  induction folders with
  | nil => rfl
  | cons sub rest ih =>
    obtain ⟨hnodup, hslash⟩ := h
    rw [List.map_cons, List.nodup_cons] at hnodup
    rw [List.map_cons, List.forall_mem_cons] at hslash
    rw [subFiles, List.lookup_append, lookup_map_path hn hslash.1, ih ⟨hnodup.2, hslash.2⟩,
      List.find?_cons]
    by_cases hname : sub.name = n
    · have hgone : rest.find? (·.name = n) = none := by
        rw [List.find?_eq_none]
        intro other hother heq
        exact hnodup.1 (List.mem_map.mpr ⟨other, hother, (of_decide_eq_true heq).trans hname.symm⟩)
      simp [hname, hgone]
    · simp [hname]

-- The walk finds what the iterator visits.
theorem lookup_filesBelow {dir : Folder} (h : Proper dir) (rel : QString) :
    (filesBelow dir).lookup rel = dir.file rel := by
  induction hlen : rel.length using Nat.strong_induction_on generalizing dir rel with
  | _ len ih =>
    obtain ⟨name, files, folders⟩ := dir
    obtain ⟨hfiles, hfolders, hall⟩ := h
    rw [filesBelow, List.lookup_append]
    by_cases hslash : '/' ∈ rel
    · obtain ⟨n, rest, rfl, hn⟩ := List.eq_append_cons_of_mem hslash
      have hnone : files.lookup (n ++ '/' :: rest) = none := by
        refine lookup_eq_none fun e he heq => ?_
        exact hfiles.2 e.1 (List.mem_map_of_mem (f := Prod.fst) he) (heq ▸ hslash)
      rw [hnone, Option.none_or, lookup_subFiles hn rest hfolders, file_path hn]
      cases hfind : folders.find? (·.name = n) with
      | none => rfl
      | some sub =>
        have hsub := (allProper_iff folders).mp hall sub (List.mem_of_find?_eq_some hfind)
        refine ih rest.length ?_ hsub rest rfl
        rw [← hlen, List.length_append, List.length_cons]
        omega
    · have hnone : (subFiles folders).lookup rel = none :=
        lookup_eq_none fun e he heq => hslash (heq ▸ slash_mem_subFiles he)
      rw [hnone, Option.or_none, file_name hslash]

end Paths

-- What stands at a path, as far as the comparison goes.
def Folder.listed (dir : Folder) (recursive : Bool) (rel : QString) : Option (Option QByteArray) :=
  if recursive then dir.file rel else dir.files.lookup rel

def verdict : Option (Option QByteArray) → Option (Option QByteArray) → Option Kind
  | none, none => none
  | some _, none => some .onlyLeft
  | none, some _ => some .onlyRight
  | some a, some b => some (if a = b ∧ a ≠ none then .same else .differ)

section Listed

variable {dir : Folder} {rel : QString}

theorem lookup_isSome {es : List (QString × Option QByteArray)} :
    (es.lookup rel).isSome ↔ rel ∈ es.map (·.1) := by
  induction es with
  | nil => simp
  | cons e es ih =>
    rw [QMap.lookup_entry, List.map_cons, List.mem_cons, ← ih]
    split
    · rename_i h
      simp [h]
    · rename_i h
      simp [h]

theorem mem_relFiles (hdir : Proper dir) (recursive : Bool) :
    rel ∈ relFiles dir recursive ↔ (dir.listed recursive rel).isSome := by
  cases recursive with
  | true =>
    change rel ∈ (filesBelow dir).map (·.1) ↔ (dir.file rel).isSome
    rw [← lookup_filesBelow hdir, lookup_isSome]
  | false => exact lookup_isSome.symm

theorem file_of_listed (hdir : Proper dir) (recursive : Bool) {a : Option QByteArray}
    (h : dir.listed recursive rel = some a) : dir.file rel = some a := by
  cases recursive with
  | true => exact h
  | false =>
    change dir.files.lookup rel = some a at h
    have hmem : rel ∈ dir.files.map (·.1) := lookup_isSome.mp (h ▸ rfl)
    obtain ⟨name, files, folders⟩ := dir
    rw [file_name (hdir.1.2 rel hmem), h]

end Listed

theorem kindOf_eq {l r : Folder} (hl : Proper l) (hr : Proper r) (recursive : Bool) {rel : QString}
    {k : Kind} (h : verdict (l.listed recursive rel) (r.listed recursive rel) = some k) :
    kindOf l r (relFiles l recursive) (relFiles r recursive) rel = k := by
  have hleft : rel ∈ relFiles l recursive ↔ _ := mem_relFiles hl recursive
  have hright : rel ∈ relFiles r recursive ↔ _ := mem_relFiles hr recursive
  unfold kindOf
  cases ha : l.listed recursive rel with
  | none =>
    cases hb : r.listed recursive rel with
    | none =>
      rw [ha, hb] at h
      cases h
    | some b =>
      rw [ha, hb] at h
      simp only [ha, hb, Option.isSome] at hleft hright
      simp only [hleft, hright]
      exact Option.some.inj h
  | some a =>
    cases hb : r.listed recursive rel with
    | none =>
      rw [ha, hb] at h
      simp only [ha, hb, Option.isSome] at hleft hright
      simp only [hleft, hright]
      exact Option.some.inj h
    | some b =>
      have hfa := file_of_listed hl recursive ha
      have hfb := file_of_listed hr recursive hb
      rw [ha, hb] at h
      simp only [ha, hb, Option.isSome] at hleft hright
      simp only [hleft, hright, hfa, hfb, Option.join_some, sameContent_iff]
      exact Option.some.inj h

theorem verdict_isSome (a b : Option (Option QByteArray)) :
    (∃ k, verdict a b = some k) ↔ a.isSome ∨ b.isSome := by
  cases a <;> cases b <;> simp [verdict]

theorem sorted_pairwise (all : List QString) :
    (sorted all).Pairwise fun a b => units a < units b := by
  have hle : (sorted all).Pairwise fun a b => units a ≤ units b := by
    have hsort := @List.pairwise_mergeSort _ (fun a b => decide (units a ≤ units b))
      (fun a b c hab hbc => decide_eq_true
        (le_trans (of_decide_eq_true hab) (of_decide_eq_true hbc)))
      (fun a b => by simpa using le_total (units a) (units b)) all.dedup
    exact hsort.imp of_decide_eq_true
  have hnodup : (sorted all).Nodup := (List.mergeSort_perm _ _).nodup_iff.mpr all.nodup_dedup
  exact hle.imp₂ (fun a b hab hne => lt_of_le_of_ne hab (hne ∘ units_injective)) hnodup

theorem mem_sorted {all : List QString} {rel : QString} : rel ∈ sorted all ↔ rel ∈ all := by
  rw [sorted, List.mem_mergeSort, List.mem_dedup]

section Compare

variable (l r : { dir : Folder // Proper dir }) (recursive : Bool)

theorem sorted_compare :
    (compare l r recursive).Pairwise fun a b => units a.relPath < units b.relPath :=
  List.pairwise_map.mpr (sorted_pairwise _)

theorem mem_compare (e : Entry) : e ∈ compare l r recursive ↔
    verdict (l.1.listed recursive e.relPath) (r.1.listed recursive e.relPath) = some e.kind := by
  obtain ⟨rel, kind⟩ := e
  have hsome := verdict_isSome (l.1.listed recursive rel) (r.1.listed recursive rel)
  have hpath : rel ∈ sorted (relFiles l recursive ++ relFiles r recursive) ↔
      ∃ k, verdict (l.1.listed recursive rel) (r.1.listed recursive rel) = some k := by
    rw [mem_sorted, List.mem_append, mem_relFiles l.2, mem_relFiles r.2, hsome]
  constructor
  · intro h
    obtain ⟨path, hmem, heq⟩ := List.mem_map.mp h
    obtain ⟨rfl, hkind⟩ := Entry.mk.inj heq
    obtain ⟨k, hk⟩ := hpath.mp hmem
    rw [kindOf_eq l.2 r.2 recursive hk] at hkind
    exact hk.trans (congrArg some hkind)
  · intro h
    refine List.mem_map.mpr ⟨rel, hpath.mpr ⟨kind, h⟩, ?_⟩
    rw [kindOf_eq l.2 r.2 recursive h]

theorem eq_compare {out : List Entry}
    (hsorted : out.Pairwise fun a b => units a.relPath < units b.relPath)
    (hmem : ∀ e, e ∈ out ↔ verdict (l.1.listed recursive e.relPath)
      (r.1.listed recursive e.relPath) = some e.kind) : out = compare l r recursive := by
  have hirrefl : Std.Irrefl fun a b : Entry => units a.relPath < units b.relPath :=
    ⟨fun a => lt_irrefl (units a.relPath)⟩
  have hantisymm : Std.Antisymm fun a b : Entry => units a.relPath < units b.relPath :=
    ⟨fun a b hab hba => absurd hba (lt_asymm hab)⟩
  exact hsorted.eq_of_mem_iff (sorted_compare l r recursive) fun e =>
    (hmem e).trans (mem_compare l r recursive e).symm

def Kind.swapped : Kind → Kind
  | .onlyLeft => .onlyRight
  | .onlyRight => .onlyLeft
  | .differ => .differ
  | .same => .same

def Entry.swapped (e : Entry) : Entry := ⟨e.relPath, e.kind.swapped⟩

theorem verdict_swapped (a b : Option (Option QByteArray)) :
    verdict b a = (verdict a b).map Kind.swapped := by
  cases a with
  | none => cases b <;> rfl
  | some a =>
    cases b with
    | none => rfl
    | some b =>
      by_cases hab : a = b
      · simp only [verdict, hab, true_and]
        split <;> rfl
      · simp [verdict, hab, Ne.symm hab, Kind.swapped]

theorem Kind.swapped_swapped (k : Kind) : k.swapped.swapped = k := by cases k <;> rfl

theorem map_swapped_iff (v : Option Kind) (k : Kind) :
    v.map Kind.swapped = some k ↔ v = some k.swapped := by
  constructor
  · intro h
    obtain ⟨j, rfl, rfl⟩ := Option.map_eq_some_iff.mp h
    rw [Kind.swapped_swapped]
  · rintro rfl
    exact congrArg some (Kind.swapped_swapped k)

theorem compare_swapped : compare r l recursive = (compare l r recursive).map Entry.swapped := by
  have hsorted : ((compare l r recursive).map Entry.swapped).Pairwise fun a b =>
      units a.relPath < units b.relPath :=
    List.pairwise_map.mpr (sorted_compare l r recursive)
  refine (eq_compare r l recursive hsorted fun e => ?_).symm
  rw [verdict_swapped, map_swapped_iff]
  constructor
  · intro h
    obtain ⟨d, hd, rfl⟩ := List.mem_map.mp h
    have hd := (mem_compare l r recursive d).mp hd
    exact hd.trans (congrArg some (Kind.swapped_swapped d.kind).symm)
  · intro h
    refine List.mem_map.mpr ⟨e.swapped, (mem_compare l r recursive e.swapped).mpr h, ?_⟩
    exact congrArg (Entry.mk e.relPath) (Kind.swapped_swapped e.kind)

theorem listed_shallow (dir : { dir : Folder // Proper dir }) (rel : QString) :
    dir.1.listed false rel = if '/' ∈ rel then none else dir.1.listed true rel := by
  split
  · rename_i hslash
    refine lookup_eq_none fun e he heq => ?_
    obtain ⟨⟨name, files, folders⟩, hdir⟩ := dir
    exact hdir.1.2 e.1 (List.mem_map_of_mem (f := Prod.fst) he) (heq ▸ hslash)
  · rename_i hslash
    exact (file_name hslash dir.1).symm

end Compare

end FolderDiff
