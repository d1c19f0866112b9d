import MacXterm.Qt.Text

namespace Qt

@[ext] structure QMap (ν : Type) where
  entries : List (QString × ν)
  sorted : entries.Pairwise fun a b => units a.1 < units b.1
  deriving DecidableEq

namespace QMap

variable {ν : Type}

def insertEntry (k : QString) (v : ν) : List (QString × ν) → List (QString × ν)
  | [] => [(k, v)]
  | e :: es =>
      if k = e.1 then (k, v) :: es
      else if units k < units e.1 then (k, v) :: e :: es
      else e :: insertEntry k v es

theorem mem_insertEntry {k : QString} {v : ν} {es : List (QString × ν)} {e : QString × ν}
    (h : e ∈ insertEntry k v es) : e = (k, v) ∨ e ∈ es := by
  induction es with
  | nil => simpa [insertEntry] using h
  | cons d es ih =>
    simp only [insertEntry] at h
    split at h
    · rcases List.mem_cons.mp h with h | h
      · exact .inl h
      · exact .inr (List.mem_cons_of_mem _ h)
    · split at h
      · exact List.mem_cons.mp h
      · rcases List.mem_cons.mp h with h | h
        · exact .inr (h ▸ List.mem_cons_self)
        · exact (ih h).imp id (List.mem_cons_of_mem _)

theorem sorted_insertEntry (k : QString) (v : ν) (es : List (QString × ν))
    (h : es.Pairwise fun a b => units a.1 < units b.1) :
    (insertEntry k v es).Pairwise fun a b => units a.1 < units b.1 := by
  induction es with
  | nil => exact List.pairwise_singleton _ _
  | cons e es ih =>
    obtain ⟨he, hes⟩ := List.pairwise_cons.mp h
    simp only [insertEntry]
    split
    · rename_i hk
      exact List.pairwise_cons.mpr ⟨fun d hd => by simpa only [hk] using he d hd, hes⟩
    · rename_i hk
      split
      · rename_i hlt
        refine List.pairwise_cons.mpr ⟨fun d hd => ?_, h⟩
        rcases List.mem_cons.mp hd with hd | hd
        · exact hd ▸ hlt
        · exact lt_trans hlt (he d hd)
      · rename_i hlt
        refine List.pairwise_cons.mpr ⟨fun d hd => ?_, ih hes⟩
        rcases mem_insertEntry hd with hd | hd
        · have hgt := (units_trichotomy k e.1).resolve_left hlt |>.resolve_left hk
          exact hd ▸ hgt
        · exact he d hd

def empty : QMap ν := ⟨[], .nil⟩

def insert (m : QMap ν) (k : QString) (v : ν) : QMap ν :=
  ⟨insertEntry k v m.entries, sorted_insertEntry k v m.entries m.sorted⟩

def remove (m : QMap ν) (k : QString) : QMap ν :=
  ⟨m.entries.filter fun e => e.1 ≠ k, m.sorted.filter _⟩

def find (m : QMap ν) (k : QString) : Option ν := m.entries.lookup k

@[simp] theorem find_empty (k : QString) : (empty : QMap ν).find k = none := rfl

def contains (m : QMap ν) (k : QString) : Bool := (m.find k).isSome

def value (m : QMap ν) (k : QString) (fallback : ν) : ν := (m.find k).getD fallback

theorem contains_iff {m : QMap ν} {k : QString} : m.contains k = true ↔ m.find k ≠ none :=
  Option.isSome_iff_ne_none

theorem lookup_entry {κ : Type} [BEq κ] [LawfulBEq κ] [DecidableEq κ] (j : κ) (e : κ × ν)
    (es : List (κ × ν)) : (e :: es).lookup j = if j = e.1 then some e.2 else es.lookup j := by
  obtain ⟨k, v⟩ := e
  rw [List.lookup_cons]
  by_cases h : j = k
  · simp [h]
  · simp [h, beq_eq_false_iff_ne.mpr h]

theorem lookup_later {k : QString} {es : List (QString × ν)}
    (h : ∀ e ∈ es, units k < units e.1) : es.lookup k = none := by
  rw [List.lookup_eq_none_iff]
  intro e he
  have hlt := h e he
  simp only [bne_iff_ne, ne_eq]
  rintro rfl
  exact lt_irrefl _ hlt

theorem lookup_insertEntry (k j : QString) (v : ν) (es : List (QString × ν)) :
    (insertEntry k v es).lookup j = if j = k then some v else es.lookup j := by
  induction es with
  | nil => exact lookup_entry j (k, v) []
  | cons e es ih =>
    simp only [insertEntry]
    split
    · rename_i hk
      rw [lookup_entry, lookup_entry]
      by_cases hj : j = k
      · simp [hj]
      · simp [hj, ← hk]
    · rename_i hk
      split
      · rw [lookup_entry]
      · rw [lookup_entry, lookup_entry, ih]
        by_cases hj : j = e.1
        · simp [hj, Ne.symm hk]
        · simp [hj]

@[simp] theorem find_insert (m : QMap ν) (k j : QString) (v : ν) :
    (m.insert k v).find j = if j = k then some v else m.find j :=
  lookup_insertEntry k j v m.entries

theorem lookup_filter_ne {κ : Type} [BEq κ] [LawfulBEq κ] [DecidableEq κ] (k j : κ)
    (es : List (κ × ν)) :
    (es.filter fun e => e.1 ≠ k).lookup j = if j = k then none else es.lookup j := by
  induction es with
  | nil => simp
  | cons e es ih =>
    rw [List.filter_cons]
    by_cases he : e.1 = k
    · simp only [he, ne_eq, not_true_eq_false, decide_false, Bool.false_eq_true, if_false]
      simp only [ne_eq] at ih
      rw [ih, lookup_entry, he]
      by_cases hj : j = k <;> simp [hj]
    · simp only [he, ne_eq, not_false_eq_true, decide_true, if_true]
      simp only [ne_eq] at ih
      rw [lookup_entry, lookup_entry, ih]
      by_cases hj : j = e.1
      · simp [hj, he]
      · simp [hj]

@[simp] theorem find_remove (m : QMap ν) (k j : QString) :
    (m.remove k).find j = if j = k then none else m.find j :=
  lookup_filter_ne k j m.entries

def insertIf (m : QMap ν) (c : Prop) [Decidable c] (k : QString) (v : ν) : QMap ν :=
  if c then m.insert k v else m

@[simp] theorem find_insertIf (m : QMap ν) (c : Prop) [Decidable c] (k j : QString) (v : ν) :
    (m.insertIf c k v).find j = if c ∧ j = k then some v else m.find j := by
  unfold insertIf
  split <;> simp [*]

theorem lookup_of_mem {es : List (QString × ν)}
    (h : es.Pairwise fun a b => units a.1 < units b.1) {e : QString × ν} (he : e ∈ es) :
    es.lookup e.1 = some e.2 := by
  induction es with
  | nil => simp at he
  | cons d es ih =>
    obtain ⟨hd, hes⟩ := List.pairwise_cons.mp h
    rw [lookup_entry]
    rcases List.mem_cons.mp he with rfl | he
    · simp
    · have hne : e.1 ≠ d.1 := fun heq => lt_irrefl _ (heq ▸ hd e he)
      rw [if_neg hne, ih hes he]

theorem mem_of_lookup {es : List (QString × ν)} {k : QString} {v : ν}
    (h : es.lookup k = some v) : (k, v) ∈ es := by
  induction es with
  | nil => simp at h
  | cons e es ih =>
    rw [lookup_entry] at h
    split at h
    · rename_i hk
      simp only [Option.some.injEq] at h
      exact List.mem_cons.mpr (.inl (Prod.ext hk h.symm))
    · exact List.mem_cons_of_mem _ (ih h)

theorem lookup_iff_mem {es : List (QString × ν)} (h : (es.map Prod.fst).Nodup) {k : QString}
    {v : ν} : es.lookup k = some v ↔ (k, v) ∈ es := by
  refine ⟨mem_of_lookup, fun hmem => ?_⟩
  induction es with
  | nil => exact absurd hmem List.not_mem_nil
  | cons e es ih =>
    obtain ⟨he, hes⟩ := List.nodup_cons.mp h
    rw [lookup_entry]
    rcases List.mem_cons.mp hmem with rfl | hmem
    · rw [if_pos rfl]
    · have hne : k ≠ e.1 := fun heq => he (heq ▸ List.mem_map_of_mem hmem)
      rw [if_neg hne, ih hes hmem]

theorem mem_iff_find (m : QMap ν) (e : QString × ν) : e ∈ m.entries ↔ m.find e.1 = some e.2 :=
  ⟨lookup_of_mem m.sorted, mem_of_lookup⟩

theorem ext_find {m n : QMap ν} (h : ∀ k, m.find k = n.find k) : m = n := by
  have hnodup (l : QMap ν) : l.entries.Nodup := by
    refine l.sorted.imp ?_
    intro a b hlt heq
    exact lt_irrefl (units a.1) (by simpa only [← heq] using hlt)
  have hp : m.entries.Perm n.entries :=
    (List.perm_ext_iff_of_nodup (hnodup m) (hnodup n)).mpr fun e => by
      rw [mem_iff_find, mem_iff_find, h]
  exact QMap.ext (hp.eq_of_pairwise (fun a b _ _ hab hba => absurd hab (lt_asymm hba))
    m.sorted n.sorted)

theorem insertEntry_last (k : QString) (v : ν) (es : List (QString × ν))
    (h : ∀ e ∈ es, units e.1 < units k) : insertEntry k v es = es ++ [(k, v)] := by
  induction es with
  | nil => rfl
  | cons e es ih =>
    have he := h e List.mem_cons_self
    have hk : k ≠ e.1 := fun heq => lt_irrefl _ (heq ▸ he)
    have hlt : ¬ units k < units e.1 := lt_asymm he
    simp only [insertEntry, hk, hlt, if_false, List.cons_append]
    rw [ih fun d hd => h d (List.mem_cons_of_mem _ hd)]

def ofList (es : List (QString × ν)) : QMap ν := es.foldl (fun m e => m.insert e.1 e.2) empty

theorem foldl_insert_entries (m : QMap ν) (es : List (QString × ν))
    (h : (m.entries ++ es).Pairwise fun a b => units a.1 < units b.1) :
    (es.foldl (fun m e => m.insert e.1 e.2) m).entries = m.entries ++ es := by
  induction es generalizing m with
  | nil => simp
  | cons e es ih =>
    have hlast : (m.insert e.1 e.2).entries = m.entries ++ [e] :=
      insertEntry_last e.1 e.2 m.entries fun d hd =>
        (List.pairwise_append.mp h).2.2 d hd e List.mem_cons_self
    simp only [List.foldl_cons]
    rw [ih _ (by rw [hlast]; simpa using h), hlast]
    simp

theorem ofList_entries (m : QMap ν) : ofList m.entries = m :=
  QMap.ext (foldl_insert_entries empty m.entries m.sorted)

def insertRow (m : QMap ν) (r : QString × Option ν) : QMap ν :=
  match r.2 with
  | some v => m.insert r.1 v
  | none => m

theorem insertIf_eq_insertRow (m : QMap ν) (c : Prop) [Decidable c] (k : QString) (v : ν) :
    m.insertIf c k v = m.insertRow (k, if c then some v else none) := by
  unfold insertIf insertRow
  split <;> rfl

theorem find_insertRow (m : QMap ν) (r : QString × Option ν) (k : QString) :
    (m.insertRow r).find k = if k = r.1 then r.2.or (m.find k) else m.find k := by
  obtain ⟨j, o⟩ := r
  cases o <;> simp [insertRow]

theorem find_insertRows (rows : List (QString × Option ν)) (m : QMap ν) (k : QString)
    (h : (rows.map Prod.fst).Nodup) :
    (rows.foldl insertRow m).find k = (rows.lookup k).join.or (m.find k) := by
  induction rows generalizing m with
  | nil => rfl
  | cons r rows ih =>
    obtain ⟨hr, hrows⟩ := List.nodup_cons.mp h
    rw [List.foldl_cons, ih _ hrows, lookup_entry, find_insertRow]
    split
    · rename_i hk
      have hlater : rows.lookup k = none := by
        rw [List.lookup_eq_none_iff]
        intro e he
        simp only [bne_iff_ne, ne_eq]
        rintro rfl
        exact hr (hk ▸ List.mem_map_of_mem he)
      rw [hlater]
      rfl
    · rfl

end QMap

abbrev QHash (κ ν : Type) := List (κ × ν)

namespace QHash

variable {κ ν : Type} [DecidableEq κ]

def value (h : QHash κ ν) (k : κ) (fallback : ν) : ν := (h.lookup k).getD fallback

def contains (h : QHash κ ν) (k : κ) : Bool := (h.lookup k).isSome

def insert (h : QHash κ ν) (k : κ) (v : ν) : QHash κ ν := (k, v) :: h.filter fun e => e.1 ≠ k

def find (h : QHash κ ν) (k : κ) : Option ν := h.lookup k

def erase (h : QHash κ ν) (k : κ) : QHash κ ν := h.filter fun e => e.1 ≠ k

@[simp] theorem find_insert (h : QHash κ ν) (k j : κ) (v : ν) :
    (h.insert k v).find j = if j = k then some v else h.find j := by
  rw [find, insert, QMap.lookup_entry, QMap.lookup_filter_ne]
  by_cases hj : j = k <;> simp [hj, find]

@[simp] theorem find_erase (h : QHash κ ν) (k j : κ) :
    (h.erase k).find j = if j = k then none else h.find j := QMap.lookup_filter_ne k j h

theorem mem_insert {h : QHash κ ν} {k : κ} {v : ν} {e : κ × ν} (he : e ∈ h.insert k v) :
    e = (k, v) ∨ e ∈ h := by
  rcases List.mem_cons.mp he with he | he
  · exact .inl he
  · exact .inr (List.mem_of_mem_filter he)

theorem value_cases (h : QHash κ ν) (k : κ) (fallback : ν) :
    h.value k fallback = fallback ∨ (k, h.value k fallback) ∈ h := by
  unfold value
  cases hl : h.lookup k with
  | none => exact .inl rfl
  | some v =>
    obtain ⟨a, b, hab, _⟩ := List.lookup_eq_some_iff.mp hl
    exact .inr (by simp [hab])

end QHash

end Qt
