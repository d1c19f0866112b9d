import Mathlib.Data.List.Induction
import MacXterm.Qt.FileSystem
import MacXterm.Qt.Map

namespace Qt

inductive Node where
  | file (mode : UInt32) (content : QByteArray)
  | dir (mode : UInt32)
  deriving DecidableEq

abbrev PathStore := QMap Node

namespace PathStore

def stat (fs : PathStore) (p : QString) : Option Stat :=
  (fs.find p).map fun
    | .file mode content => ⟨mode, 1, 0, 0, .ofNat content.length, 0, 0, 0, 0, 0, 0, false, false⟩
    | .dir mode => ⟨mode, 1, 0, 0, 0, 0, 0, 0, 0, 0, 0, true, false⟩

def dirPrefix (p : QString) : QString := if p.getLast? = some '/' then p else p ++ ['/']

def childName (p key : QString) : Option QString :=
  let name := key.drop (dirPrefix p).length
  if (dirPrefix p).isPrefixOf key ∧ name ≠ [] ∧ '/' ∉ name then some name else none

def children (fs : PathStore) (p : QString) : List QString :=
  fs.entries.filterMap fun e => childName p e.1

def entryList (fs : PathStore) (p : QString) : List QString :=
  match fs.find p with
  | some (.dir _) => ['.'] :: ['.', '.'] :: children fs p
  | _ => []

def fileInfo (fs : PathStore) (p name : QString) : FileInfo :=
  match fs.find (QDir.filePath p name) with
  | some (.file _ content) => ⟨name, false, content.length, []⟩
  | _ => ⟨name, true, 0, []⟩

def splice (content : QByteArray) (pos : Nat) (body : QByteArray) : QByteArray :=
  if body = [] then content
  else (content ++ List.replicate (pos - content.length) 0).take pos ++ body ++
    content.drop (pos + body.length)

theorem drop_splice (content : QByteArray) (pos : Nat) (body : QByteArray) :
    (splice content pos body).drop pos = body ++ content.drop (pos + body.length) := by
  have hstart : ((content ++ List.replicate (pos - content.length) 0).take pos).length = pos := by
    simp only [List.length_take, List.length_append, List.length_replicate]
    omega
  by_cases hbody : body = []
  · rw [splice, if_pos hbody, hbody]
    rfl
  · rw [splice, if_neg hbody, List.append_assoc, List.drop_append_of_le_length (by omega),
      List.drop_eq_nil_of_le (by omega), List.nil_append]

def writeFile (fs : PathStore) (p : QString) (change : QByteArray → QByteArray) :
    Option PathStore :=
  if p = [] then none
  else match fs.find p with
    | some (.dir _) => none
    | some (.file mode content) => some (fs.insert p (.file mode (change content)))
    | none => some (fs.insert p (.file 0o644 (change [])))

def chmod (fs : PathStore) (p : QString) (mode : UInt32) : PathStore :=
  match fs.find p with
  | some (.dir _) => fs.insert p (.dir mode)
  | some (.file _ content) => fs.insert p (.file mode content)
  | none => fs

def resize (content : QByteArray) (n : Nat) : QByteArray :=
  content.take n ++ List.replicate (n - content.length) 0

def truncate (fs : PathStore) (p : QString) (n : Int64) : PathStore :=
  match fs.find p with
  | some (.file mode content) =>
      if n < 0 then fs else fs.insert p (.file mode (resize content n.toNatClampNeg))
  | _ => fs

def mkdir (fs : PathStore) (p : QString) : Option PathStore :=
  if p = [] ∨ fs.contains p then none else some (fs.insert p (.dir 0o755))

def Beneath (p q : QString) : Prop := q = p ∨ dirPrefix p <+: q

instance (p q : QString) : Decidable (Beneath p q) :=
  inferInstanceAs (Decidable (q = p ∨ dirPrefix p <+: q))

def ancestors (p : QString) : List QString :=
  p.inits.filter fun q => q.getLast?.any (· ≠ '/') && decide (Beneath q p)

def ensureDir (acc : Bool × PathStore) (q : QString) : Bool × PathStore :=
  match acc.1, acc.2.find q with
  | true, none => (true, acc.2.insert q (.dir 0o755))
  | true, some (.file _ _) => (false, acc.2)
  | _, _ => acc

def mkpath (fs : PathStore) (p : QString) : Bool × PathStore :=
  match fs.find p with
  | some (.dir _) => (true, fs)
  | _ => (ancestors p).foldl ensureDir (true, fs)

def remove (fs : PathStore) (p : QString) : Option PathStore :=
  match fs.find p with
  | some (.file _ _) => if p = [] then none else some (QMap.remove fs p)
  | _ => none

def rmdir (fs : PathStore) (p : QString) : Option PathStore :=
  match fs.find p with
  | some (.dir _) => if p = [] ∨ children fs p ≠ [] then none else some (QMap.remove fs p)
  | _ => none

def filterKeys (fs : PathStore) (keep : QString → Bool) : PathStore :=
  ⟨fs.entries.filter fun e => keep e.1, fs.sorted.filter _⟩

def removeRecursively (fs : PathStore) (p : QString) : Bool × PathStore :=
  match fs.find p with
  | some (.dir _) => (true, filterKeys fs fun key => !decide (Beneath p key))
  | _ => (true, fs)

def moveKey (old new key : QString) : QString :=
  if QDir.Inside old key then new ++ key.drop old.length else key

def rename (fs : PathStore) (old new : QString) : Option PathStore :=
  if old = [] ∨ new = [] ∨ !fs.contains old ∨ fs.contains new ∨
      (QDir.Inside old new ∨ QDir.Inside new old) then none
  else some (QMap.ofList (fs.entries.map fun e => (moveKey old new e.1, e.2)))

def fileSystem : FileSystem PathStore where
  stat := stat
  symLinkTarget _ _ := []
  entryList := entryList
  entryInfoList fs p := (children fs p).map (fileInfo fs p)
  openRead fs p := match fs.find p with
    | some (.file _ content) => some content
    | _ => none
  openWrite fs p body := (writeFile fs p fun _ => body).map fun fs => (fs, body.length)
  openReadWrite fs p pos body :=
    (writeFile fs p fun content => splice content pos body).map fun fs => (fs, body.length)
  chmod := chmod
  truncate := truncate
  mkdir := mkdir
  mkpath := mkpath
  remove := remove
  rmdir := rmdir
  removeRecursively := removeRecursively
  rename := rename

theorem childName_spec {p key name : QString} (h : childName p key = some name) :
    name ≠ [] ∧ '/' ∉ name := by
  simp only [childName] at h
  split at h
  · rename_i hc
    obtain rfl := Option.some.inj h
    exact hc.2
  · exact absurd h (by simp)

theorem fileSystem_lawful : fileSystem.Lawful where
  entryList_name fs p name hn := by
    simp only [fileSystem, entryList] at hn
    split at hn
    · rcases List.mem_cons.mp hn with rfl | hn
      · decide
      · rcases List.mem_cons.mp hn with rfl | hn
        · decide
        · obtain ⟨e, _, he⟩ := List.mem_filterMap.mp hn
          exact childName_spec he
    · simp at hn
  openWrite_nil fs body := by simp [fileSystem, writeFile]
  openReadWrite_nil fs pos body := by simp [fileSystem, writeFile]
  truncate_negative fs p n hn := by
    simp only [fileSystem, truncate, hn, if_true]
    split <;> rfl
  mkdir_nil fs := by simp [fileSystem, mkdir]
  remove_nil fs := by
    simp only [fileSystem, remove, if_true]
    split <;> rfl
  rmdir_nil fs := by
    simp only [fileSystem, rmdir, true_or, if_true]
    split <;> rfl
  rename_nil_left fs p := by simp [fileSystem, rename]
  rename_nil_right fs p := by simp [fileSystem, rename]
  rename_nested fs p q h := by simp [fileSystem, rename, h]

@[simp] theorem find_empty (p : QString) : (QMap.empty : PathStore).find p = none := rfl

def single (p : QString) (n : Node) : PathStore := QMap.empty.insert p n

@[simp] theorem find_single (p q : QString) (n : Node) :
    (single p n).find q = if q = p then some n else none := by
  simp [single]

theorem ne_of_find {fs gs : PathStore} (p : QString) (h : fs.find p ≠ gs.find p) : fs ≠ gs :=
  fun heq => h (heq ▸ rfl)

theorem childName_self (p : QString) : childName p p = none := by
  simp only [childName, ite_eq_right_iff]
  rintro ⟨hpre, hne, _⟩
  have hlen := (List.isPrefixOf_iff_prefix.mp hpre).length_le
  exact absurd (List.drop_eq_nil_iff.mpr (by unfold dirPrefix at *; split at * <;> simp_all)) hne

theorem children_single (p : QString) (n : Node) : children (single p n) p = [] := by
  change [(p, n)].filterMap (fun e => childName p e.1) = []
  simp [childName_self]

theorem resize_length (content : QByteArray) (n : Nat) : (resize content n).length = n := by
  simp only [resize, List.length_append, List.length_take, List.length_replicate]
  omega

theorem openWrite_empty {p : QString} (hp : p ≠ []) (body : QByteArray) :
    ∃ fs n, fileSystem.openWrite QMap.empty p body = some (fs, n) ∧ fs ≠ QMap.empty := by
  refine ⟨_, _, by simp only [fileSystem, writeFile, hp, if_false, find_empty]; rfl, ?_⟩
  exact ne_of_find p (by simp)

theorem openReadWrite_empty {p : QString} (hp : p ≠ []) (pos : Nat) (body : QByteArray) :
    ∃ fs n, fileSystem.openReadWrite QMap.empty p pos body = some (fs, n) ∧ fs ≠ QMap.empty := by
  refine ⟨_, _, by simp only [fileSystem, writeFile, hp, if_false, find_empty]; rfl, ?_⟩
  exact ne_of_find p (by simp)

theorem mkdir_empty {p : QString} (hp : p ≠ []) :
    ∃ fs, fileSystem.mkdir QMap.empty p = some fs ∧ fs ≠ QMap.empty :=
  ⟨_, by simp only [fileSystem, mkdir, hp, QMap.contains, find_empty]; rfl,
    ne_of_find p (by simp)⟩

theorem remove_single {p : QString} (hp : p ≠ []) (mode : UInt32) (content : QByteArray) :
    ∃ fs, fileSystem.remove (single p (.file mode content)) p = some fs ∧
      fs ≠ single p (.file mode content) :=
  ⟨_, by simp only [fileSystem, remove, find_single, if_true, hp, if_false]; rfl,
    ne_of_find p (by simp)⟩

theorem rmdir_single {p : QString} (hp : p ≠ []) (mode : UInt32) :
    ∃ fs, fileSystem.rmdir (single p (.dir mode)) p = some fs ∧ fs ≠ single p (.dir mode) :=
  ⟨_, by simp only [fileSystem, rmdir, find_single, if_true, hp, children_single]; rfl,
    ne_of_find p (by simp)⟩

theorem rename_single {p q : QString} (hp : p ≠ []) (hq : q ≠ [])
    (h : ¬ (QDir.Inside p q ∨ QDir.Inside q p)) (n : Node) :
    ∃ fs, fileSystem.rename (single p n) p q = some fs ∧ fs ≠ single p n := by
  have hne : q ≠ p := fun heq => h (.inl (.inl heq))
  have hmove : moveKey p q p = q := by simp [moveKey, QDir.Inside]
  refine ⟨single q n, ?_, ne_of_find p (by simp [Ne.symm hne])⟩
  simp only [fileSystem, rename, QMap.contains, find_single, hp, hq, hne, h, if_true, if_false]
  simp [single, QMap.insert, QMap.empty, QMap.insertEntry, hmove, QMap.ofList]

theorem chmod_single (p : QString) (mode : UInt32) (size : Option Int64) :
    let fs := single p (.dir (mode + 1))
    let gs := fileSystem.chmod fs p mode
    size.elim gs (fileSystem.truncate gs p) ≠ fs := by
  have hne : mode ≠ mode + 1 := by
    intro heq
    have := congrArg UInt32.toNat heq
    have := mode.toNat_lt
    simp only [UInt32.toNat_add, UInt32.toNat_one] at *
    omega
  have hfind : (fileSystem.chmod (single p (.dir (mode + 1))) p mode).find p = some (.dir mode) := by
    simp [fileSystem, chmod]
  refine ne_of_find p ?_
  cases size with
  | none => simp [hfind, hne]
  | some n =>
    have ht : fileSystem.truncate (fileSystem.chmod (single p (.dir (mode + 1))) p mode) p n =
        fileSystem.chmod (single p (.dir (mode + 1))) p mode := by
      change truncate _ p n = _
      rw [truncate, hfind]
    simp [ht, hfind, hne]

theorem truncate_single (p : QString) {n : Int64} (hn : ¬ n < 0) :
    ∃ fs, fileSystem.truncate fs p n ≠ fs := by
  refine ⟨single p (.file 0 (if n.toNatClampNeg = 0 then [0] else [])), ne_of_find p ?_⟩
  simp only [fileSystem, truncate, find_single, if_true, hn, if_false, QMap.find_insert]
  intro heq
  simp only [Option.some.injEq, Node.file.injEq, true_and] at heq
  have hlen := congrArg List.length heq
  rw [resize_length] at hlen
  split at hlen
  · rename_i h0
    simp [h0] at hlen
  · rename_i h0
    exact h0 hlen

theorem prefix_dirPrefix (p : QString) : p <+: dirPrefix p := by
  unfold dirPrefix
  split
  · exact List.prefix_rfl
  · exact List.prefix_append p ['/']

theorem beneath_trans {p q r : QString} (hpq : Beneath p q) (hqr : Beneath q r) : Beneath p r := by
  rcases hpq with rfl | hpq
  · exact hqr
  · rcases hqr with rfl | hqr
    · exact .inr hpq
    · exact .inr ((hpq.trans (prefix_dirPrefix q)).trans hqr)

theorem beneath_append (p q : QString) : Beneath p (p ++ '/' :: q) := by
  right
  unfold dirPrefix
  split
  · exact List.prefix_append p _
  · exact ⟨q, by simp⟩

theorem beneath_of_inside {p q : QString} (h : QDir.Inside p q) : Beneath p q := by
  rcases h with rfl | ⟨t, rfl⟩
  · exact .inl rfl
  · simpa using beneath_append p t

theorem object_congr {fs gs : PathStore} {p : QString} (h : gs.find p = fs.find p) :
    fileSystem.object gs p = fileSystem.object fs p := by
  simp only [FileSystem.object, fileSystem, stat, h]

theorem isDir_iff {fs : PathStore} {p : QString} :
    fileSystem.isDir fs p = true ↔ ∃ mode, fs.find p = some (.dir mode) := by
  simp only [FileSystem.isDir, fileSystem, stat]
  cases h : fs.find p with
  | none => simp
  | some n => cases n <;> simp

theorem find_filterKeys (fs : PathStore) (keep : QString → Bool) (p : QString) (h : keep p = true) :
    (filterKeys fs keep).find p = fs.find p := by
  apply Option.ext
  intro n
  rw [← QMap.mem_iff_find (filterKeys fs keep) (p, n), ← QMap.mem_iff_find fs (p, n)]
  simp [filterKeys, h]

theorem find_ofList_map {es : List (QString × Node)} {key : QString → QString} {p q : QString}
    (h : ∀ e ∈ es, key e.1 = q ↔ e.1 = p) :
    (QMap.ofList (es.map fun e => (key e.1, e.2))).find q = (QMap.ofList es).find p := by
  induction es using List.reverseRecOn with
  | nil => rfl
  | append_singleton es e ih =>
    have hes := ih fun d hd => h d (List.mem_append_left _ hd)
    have he := h e (by simp)
    simp only [QMap.ofList, List.map_append, List.map_cons, List.map_nil, List.foldl_append,
      List.foldl_cons, List.foldl_nil, QMap.find_insert] at hes ⊢
    rw [hes]
    by_cases hkey : e.1 = p
    · rw [if_pos (he.mpr hkey).symm, if_pos hkey.symm]
    · rw [if_neg fun heq => hkey (he.mp heq.symm), if_neg fun heq => hkey heq.symm]

theorem moveKey_eq_iff {p q r key : QString} (hp : ¬ Beneath p r) (hq : ¬ Beneath q r) :
    moveKey p q key = r ↔ key = r := by
  simp only [moveKey]
  split
  · rename_i hin
    constructor
    · intro hr
      rcases hin with hin | ⟨t, ht⟩
      · rw [hin, List.drop_length, List.append_nil] at hr
        exact absurd (.inl hr.symm) hq
      · rw [← ht, List.append_assoc, List.drop_left] at hr
        exact absurd (hr ▸ beneath_append q t) hq
    · intro hr
      exact absurd (hr ▸ beneath_of_inside hin) hp
  · rfl

theorem rename_find {fs gs : PathStore} {p q r : QString} (h : rename fs p q = some gs)
    (hp : ¬ Beneath p r) (hq : ¬ Beneath q r) : gs.find r = fs.find r := by
  simp only [rename] at h
  split at h
  · exact absurd h (by simp)
  · obtain rfl := Option.some.inj h
    conv_rhs => rw [← QMap.ofList_entries fs]
    exact find_ofList_map fun _ _ => moveKey_eq_iff hp hq

theorem beneath_of_dirPrefix {p q : QString} (h : dirPrefix p <+: dirPrefix q) :
    Beneath p q ∨ Beneath q p := by
  by_cases hq : q.getLast? = some '/'
  · rw [dirPrefix, dirPrefix, if_pos hq] at h
    exact .inl (.inr h)
  · have hd : dirPrefix q = q ++ ['/'] := if_neg hq
    rw [hd] at h
    rcases List.prefix_concat_iff.mp h with h | h
    · unfold dirPrefix at h
      split at h
      · subst h
        exact .inr (.inr (hd ▸ List.prefix_rfl))
      · exact .inl (.inl (List.append_cancel_right h).symm)
    · exact .inl (.inr h)

theorem beneath_comparable {p q r : QString} (hp : Beneath p r) (hq : Beneath q r) :
    Beneath p q ∨ Beneath q p := by
  rcases hp with rfl | hp
  · exact .inr hq
  · rcases hq with rfl | hq
    · exact .inl (.inr hp)
    · rcases List.prefix_or_prefix_of_prefix hp hq with h | h
      · exact beneath_of_dirPrefix h
      · exact (beneath_of_dirPrefix h).symm

theorem ensureDir_find (acc : Bool × PathStore) {p q : QString}
    (h : q ≠ p ∨ acc.2.find q ≠ none) : (ensureDir acc p).2.find q = acc.2.find q := by
  unfold ensureDir
  split
  · rename_i hn
    rcases h with h | h
    · simp [h]
    · by_cases hp : q = p
      · exact absurd (hp ▸ hn) h
      · simp [hp]
  · rfl
  · rfl

theorem mkpath_find (fs : PathStore) {p q : QString} (h : Beneath q p → fs.find q ≠ none) :
    (mkpath fs p).2.find q = fs.find q := by
  unfold mkpath
  split
  · rfl
  · have hall : ∀ r ∈ ancestors p, Beneath r p := by
      intro r hr
      have := (List.mem_filter.mp hr).2
      simp only [Bool.and_eq_true, decide_eq_true_eq] at this
      exact this.2
    have hfold : ∀ acc : Bool × PathStore, acc.2.find q = fs.find q →
        ((ancestors p).foldl ensureDir acc).2.find q = fs.find q := by
      generalize ancestors p = rs at hall
      induction rs with
      | nil => exact fun _ hacc => hacc
      | cons r rs ih =>
        intro acc hacc
        refine ih (fun t ht => hall t (List.mem_cons_of_mem _ ht)) (ensureDir acc r) ?_
        rw [ensureDir_find acc ?_, hacc]
        by_cases hq : q = r
        · exact .inr (hacc ▸ h (hq ▸ hall r List.mem_cons_self))
        · exact .inl hq
    exact hfold (true, fs) rfl

theorem fileSystem_hierarchy : fileSystem.Hierarchy Beneath where
  refl p := .inl rfl
  trans p q r := beneath_trans
  append := beneath_append
  comparable p q r := beneath_comparable
  openWrite_dir fs p body h := by
    obtain ⟨mode, hf⟩ := isDir_iff.mp h
    simp [fileSystem, writeFile, hf]
  mkpath_dir fs p h := by
    obtain ⟨mode, hf⟩ := isDir_iff.mp h
    simp [fileSystem, mkpath, hf]
  remove_dir fs p h := by
    obtain ⟨mode, hf⟩ := isDir_iff.mp h
    simp [fileSystem, remove, hf]
  rename_nested := fileSystem_lawful.rename_nested
  openWrite_frame fs p body r h q hq := by
    obtain ⟨gs, hw, rfl⟩ := Option.map_eq_some_iff.mp h
    have hne : q ≠ p := fun heq => hq (.inl heq)
    refine object_congr ?_
    simp only [writeFile] at hw
    split at hw
    · exact absurd hw (by simp)
    · split at hw
      · exact absurd hw (by simp)
      · simp [← Option.some.inj hw, hne]
      · simp [← Option.some.inj hw, hne]
  remove_frame fs p gs h q hq := by
    have hne : q ≠ p := fun heq => hq (.inl heq)
    refine object_congr ?_
    simp only [fileSystem, remove] at h
    split at h
    · split at h
      · exact absurd h (by simp)
      · simp [← Option.some.inj h, hne]
    · exact absurd h (by simp)
  removeRecursively_frame fs p q hq := by
    refine object_congr ?_
    simp only [fileSystem, removeRecursively]
    split
    · exact find_filterKeys fs _ q (by simp [hq])
    · rfl
  rename_frame fs p q gs h r hp hq := object_congr (rename_find h hp hq)
  mkpath_frame fs p q _ hq := by
    refine object_congr (mkpath_find fs fun hqp hnone => hq ⟨hqp, ?_⟩)
    simp [FileSystem.object, fileSystem, stat, hnone]

end PathStore

end Qt
