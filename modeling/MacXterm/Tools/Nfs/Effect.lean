import MacXterm.Qt.PathStore
import MacXterm.Tools.Nfs.Server

namespace Nfs

open Qt Xdr

variable {σ : Type}

-- What a call does to the names of the file system.
inductive Effect where
  | keep
  | create (p : QString)
  | rename (old new : QString)
deriving DecidableEq

def movedFrom (old new q : QString) : QString :=
  if QDir.Inside new q then old ++ q.drop new.length else q

-- Documented behaviour of the operations: only the named path comes to exist, a rename moves
-- what lies at and below the old path, and what can be read exists.
structure Naming (F : FileSystem σ) : Prop where
  openRead : ∀ fs p content, F.openRead fs p = some content → F.pathExists fs p = true
  openWrite : ∀ fs p body r, F.openWrite fs p body = some r →
    ∀ q, QDir.cleanPath q = q → F.pathExists r.1 q = true → F.pathExists fs q = true ∨ q = p
  openReadWrite : ∀ fs p pos body r, F.openReadWrite fs p pos body = some r →
    ∀ q, QDir.cleanPath q = q → F.pathExists r.1 q = true → F.pathExists fs q = true ∨ q = p
  mkdir : ∀ fs p gs, F.mkdir fs p = some gs →
    ∀ q, QDir.cleanPath q = q → F.pathExists gs q = true → F.pathExists fs q = true ∨ q = p
  remove : ∀ fs p gs, F.remove fs p = some gs →
    ∀ q, QDir.cleanPath q = q → F.pathExists gs q = true → F.pathExists fs q = true
  rmdir : ∀ fs p gs, F.rmdir fs p = some gs →
    ∀ q, QDir.cleanPath q = q → F.pathExists gs q = true → F.pathExists fs q = true
  chmod : ∀ fs p mode q, QDir.cleanPath q = q →
    F.pathExists (F.chmod fs p mode) q = true → F.pathExists fs q = true
  truncate : ∀ fs p size q, QDir.cleanPath q = q →
    F.pathExists (F.truncate fs p size) q = true → F.pathExists fs q = true
  rename : ∀ fs old new gs, F.rename fs old new = some gs →
    ∀ q, QDir.cleanPath q = q → F.pathExists gs q = true →
      ¬QDir.Inside old q ∧ F.pathExists fs q = true ∨
        QDir.Inside new q ∧ F.pathExists fs (movedFrom old new q) = true

def Effect.Before (F : FileSystem σ) (fs : σ) (q : QString) : Effect → Prop
  | .keep => F.pathExists fs q = true
  | .create p => F.pathExists fs q = true ∨ q = p
  | .rename old new =>
      ¬QDir.Inside old q ∧ F.pathExists fs q = true ∨
        QDir.Inside new q ∧ F.pathExists fs (movedFrom old new q) = true

structure Effect.Allows (F : FileSystem σ) (fs gs : σ) (q : QString) (e : Effect) : Prop where
  before : F.pathExists gs q = true → e.Before F fs q

section Procedures

variable (F : FileSystem σ) (s : NfsServer) (fs : σ) (r : XdrReader)

def writeEffect : Effect :=
  let a := readWrite s r
  if a.ok && (F.openReadWrite fs a.path (seek a.offset) a.data).isSome then .create a.path
  else .keep

def createEffect : Effect :=
  let a := readCreate s r
  let child := s.childWithin a.dir a.name
  if (a.ok && a.dir ≠ []) && (F.openWrite fs child []).isSome then .create child else .keep

def mkdirEffect : Effect :=
  let a := readMkdir s r
  let child := s.childWithin a.dir a.name
  if (a.ok && a.dir ≠ []) && (F.mkdir fs child).isSome then .create child else .keep

def renameEffect : Effect :=
  let source := readName s r
  let target := readName s source.rest
  let old := s.childWithin source.dir source.name
  let new := s.childWithin target.dir target.name
  if (target.ok && source.dir ≠ [] && target.dir ≠ []) && (F.rename fs old new).isSome then
    .rename old new
  else .keep

def procedureEffect (proc : UInt32) : Effect :=
  match proc with
  | 7 => writeEffect F s fs r
  | 8 => createEffect F s fs r
  | 9 => mkdirEffect F s fs r
  | 14 => renameEffect F s fs r
  | _ => .keep

def nfsCall (request : QByteArray) : Option (UInt32 × XdrReader) :=
  match acceptCall request with
  | none => none
  | some (call, r) =>
      if call.prog = PROG_NFS ∧ call.vers = 3 then some (call.proc, r) else none

def effect (request : QByteArray) : Effect :=
  match nfsCall request with
  | none => .keep
  | some (proc, r) => procedureEffect F s fs r proc

variable {F} (hF : Naming F) (w : XdrWriter)

include hF

theorem setattr_allows (q : QString) (hq : QDir.cleanPath q = q) :
    Effect.Allows F fs (setattr F s fs w r).fs q .keep := by
  refine ⟨fun h => ?_⟩
  simp only [setattr] at h
  generalize readSetattr s r = a at h
  split at h
  · simp only [applySetattr] at h
    have hchmod : F.pathExists
        (if a.setMode then F.chmod fs a.path (a.mode &&& 0o7777) else fs) q = true →
        F.pathExists fs q = true := by
      split
      · exact hF.chmod fs _ _ q hq
      · exact id
    split at h
    · exact hchmod (hF.truncate _ _ _ q hq h)
    · exact hchmod h
  · exact h

theorem write_allows (q : QString) (hq : QDir.cleanPath q = q) :
    (writeEffect F s fs r).Allows F fs (write F s fs w r).fs q := by
  simp only [writeEffect, write]
  generalize readWrite s r = a
  cases a.ok with
  | true =>
    cases hopen : F.openReadWrite fs a.path (seek a.offset) a.data with
    | none => exact ⟨id⟩
    | some result => exact ⟨hF.openReadWrite fs _ _ _ result hopen q hq⟩
  | false => exact ⟨id⟩

theorem create_allows (q : QString) (hq : QDir.cleanPath q = q) :
    (createEffect F s fs r).Allows F fs (create F s fs w r).fs q := by
  simp only [createEffect, create]
  generalize readCreate s r = a
  cases a.ok && a.dir ≠ [] with
  | true =>
    cases hopen : F.openWrite fs (s.childWithin a.dir a.name) [] with
    | none => exact ⟨id⟩
    | some result => exact ⟨hF.openWrite fs _ _ result hopen q hq⟩
  | false => exact ⟨id⟩

theorem mkdir_allows (q : QString) (hq : QDir.cleanPath q = q) :
    (mkdirEffect F s fs r).Allows F fs (mkdir F s fs w r).fs q := by
  simp only [mkdirEffect, mkdir]
  generalize readMkdir s r = a
  cases a.ok && a.dir ≠ [] with
  | true =>
    cases hmkdir : F.mkdir fs (s.childWithin a.dir a.name) with
    | none => exact ⟨id⟩
    | some gs => exact ⟨hF.mkdir fs _ gs hmkdir q hq⟩
  | false => exact ⟨id⟩

omit hF in
theorem removeEntry_allows {op : σ → QString → Option σ}
    (hop : ∀ fs p gs, op fs p = some gs → ∀ q, QDir.cleanPath q = q →
      F.pathExists gs q = true → F.pathExists fs q = true)
    (q : QString) (hq : QDir.cleanPath q = q) :
    Effect.Allows F fs (removeEntry F s fs w r op).fs q .keep := by
  simp only [removeEntry]
  generalize readName s r = a
  cases a.ok && a.dir ≠ [] with
  | true =>
    cases hgs : op fs (s.childWithin a.dir a.name) with
    | none => exact ⟨id⟩
    | some gs => exact ⟨hop fs _ gs hgs q hq⟩
  | false => exact ⟨id⟩

theorem rename_allows (q : QString) (hq : QDir.cleanPath q = q) :
    (renameEffect F s fs r).Allows F fs (rename F s fs w r).fs q := by
  unfold renameEffect rename
  extract_lets source target result refused old new
  have hresult : F.rename fs old new = result := rfl
  clear_value result refused old new
  rw [hresult]
  cases target.ok && source.dir ≠ [] && target.dir ≠ [] with
  | true =>
    cases result with
    | none => exact ⟨id⟩
    | some gs => exact ⟨hF.rename fs old new gs hresult q hq⟩
  | false =>
    cases result with
    | none => exact ⟨id⟩
    | some gs => exact ⟨id⟩

omit hF in
theorem nfsProcedure_keeps (proc : UInt32)
    (h : proc ≠ 2 ∧ proc ≠ 7 ∧ proc ≠ 8 ∧ proc ≠ 9 ∧ proc ≠ 12 ∧ proc ≠ 13 ∧ proc ≠ 14) :
    (nfsProcedure F s fs w r proc).fs = fs := by
  unfold nfsProcedure
  split
  · rfl
  · simp only [getattr]
    split <;> rfl
  · exact absurd rfl h.1
  · simp only [lookup]
    split <;> rfl
  · rfl
  · rfl
  · simp only [read]
    split <;> rfl
  · exact absurd rfl h.2.1
  · exact absurd rfl h.2.2.1
  · exact absurd rfl h.2.2.2.1
  · exact absurd rfl h.2.2.2.2.1
  · exact absurd rfl h.2.2.2.2.2.1
  · exact absurd rfl h.2.2.2.2.2.2
  · rfl
  · rfl
  · rfl
  · rfl
  · rfl
  · rfl
  · rfl

theorem nfsProcedure_allows (proc : UInt32) (q : QString) (hq : QDir.cleanPath q = q) :
    (procedureEffect F s fs r proc).Allows F fs (nfsProcedure F s fs w r proc).fs q := by
  have hwrite : nfsProcedure F s fs w r 7 = write F s fs w r := rfl
  have hcreate : nfsProcedure F s fs w r 8 = create F s fs w r := rfl
  have hmkdir : nfsProcedure F s fs w r 9 = mkdir F s fs w r := rfl
  have hrename : nfsProcedure F s fs w r 14 = rename F s fs w r := rfl
  unfold procedureEffect
  split
  · rw [hwrite]
    exact write_allows s fs r hF w q hq
  · rw [hcreate]
    exact create_allows s fs r hF w q hq
  · rw [hmkdir]
    exact mkdir_allows s fs r hF w q hq
  · rw [hrename]
    exact rename_allows s fs r hF w q hq
  · rename_i h7 h8 h9 h14
    by_cases h2 : proc = 2
    · have hsetattr : nfsProcedure F s fs w r 2 = setattr F s fs w r := rfl
      rw [h2, hsetattr]
      exact setattr_allows s fs r hF w q hq
    · by_cases h12 : proc = 12
      · have hremove : nfsProcedure F s fs w r 12 = removeEntry F s fs w r F.remove := rfl
        rw [h12, hremove]
        exact removeEntry_allows s fs r w hF.remove q hq
      · by_cases h13 : proc = 13
        · have hrmdir : nfsProcedure F s fs w r 13 = removeEntry F s fs w r F.rmdir := rfl
          rw [h13, hrmdir]
          exact removeEntry_allows s fs r w hF.rmdir q hq
        · rw [nfsProcedure_keeps s fs r w proc ⟨h2, h7, h8, h9, h12, h13, h14⟩]
          exact ⟨id⟩

theorem handleDatagram_allows (request : QByteArray) (q : QString) (hq : QDir.cleanPath q = q) :
    (effect F s fs request).Allows F fs (handleDatagram F s fs request).fs q := by
  unfold effect nfsCall handleDatagram
  cases acceptCall request with
  | none => exact ⟨id⟩
  | some accepted =>
    obtain ⟨call, r⟩ := accepted
    dsimp only
    by_cases hport : call.prog = PROG_PORTMAP
    · rw [if_pos hport, if_neg fun h => absurd (hport.symm.trans h.1) (by decide)]
      unfold portmapProcedure
      split <;> exact ⟨id⟩
    · rw [if_neg hport]
      by_cases hmount : call.prog = PROG_MOUNT
      · rw [if_pos hmount, if_neg fun h => absurd (hmount.symm.trans h.1) (by decide)]
        unfold mountProcedure
        split <;> exact ⟨id⟩
      · rw [if_neg hmount]
        by_cases hnfs : call.prog = PROG_NFS ∧ call.vers = 3
        · rw [if_pos hnfs, if_pos hnfs]
          exact nfsProcedure_allows s fs r hF _ call.proc q hq
        · rw [if_neg hnfs, if_neg hnfs]
          exact ⟨id⟩

end Procedures

theorem storeExists_iff {fs : PathStore} {q : QString} :
    PathStore.fileSystem.pathExists fs q = true ↔ fs.find q ≠ none := by
  simp only [FileSystem.pathExists, PathStore.fileSystem, PathStore.stat, Option.isSome_map,
    Option.isSome_iff_ne_none]

theorem writeFile_exists {fs gs : PathStore} {p q : QString} {change : QByteArray → QByteArray}
    (h : PathStore.writeFile fs p change = some gs) (hq : gs.find q ≠ none) :
    fs.find q ≠ none ∨ q = p := by
  by_cases hqp : q = p
  · exact Or.inr hqp
  · refine Or.inl ?_
    simp only [PathStore.writeFile] at h
    split at h
    · exact absurd h (by simp)
    · split at h
      · exact absurd h (by simp)
      · obtain rfl := Option.some.inj h
        simpa [hqp] using hq
      · obtain rfl := Option.some.inj h
        simpa [hqp] using hq

theorem find_of_remove {fs : PathStore} {p q : QString}
    (h : (QMap.remove fs p).find q ≠ none) : fs.find q ≠ none := by
  rw [QMap.find_remove] at h
  split at h
  · exact absurd rfl h
  · exact h

theorem movedFrom_moveKey {old key : QString} (new : QString) (h : QDir.Inside old key) :
    QDir.Inside new (PathStore.moveKey old new key) ∧
      movedFrom old new (PathStore.moveKey old new key) = key := by
  have hkey : PathStore.moveKey old new key = new ++ key.drop old.length := if_pos h
  have hinside : QDir.Inside new (new ++ key.drop old.length) := by
    rcases h with rfl | ⟨rest, rfl⟩
    · exact Or.inl (by simp)
    · exact Or.inr ⟨rest, by simp⟩
  have hprefix : old <+: key := by
    rcases h with rfl | h
    · exact List.prefix_rfl
    · exact (List.prefix_append old ['/']).trans h
  rw [hkey, movedFrom, if_pos hinside, List.drop_left]
  exact ⟨hinside, List.prefix_iff_eq_append.mp hprefix⟩

theorem mem_of_find_ofList {es : List (QString × Node)} {q : QString}
    (h : (QMap.ofList es).find q ≠ none) : ∃ e ∈ es, e.1 = q := by
  induction es using List.reverseRecOn with
  | nil => exact absurd rfl h
  | append_singleton es e ih =>
    simp only [QMap.ofList, List.foldl_append, List.foldl_cons, List.foldl_nil,
      QMap.find_insert] at h ih
    split at h
    · rename_i heq
      exact ⟨e, by simp, heq.symm⟩
    · obtain ⟨d, hd, hkey⟩ := ih h
      exact ⟨d, List.mem_append_left _ hd, hkey⟩

theorem rename_exists {fs gs : PathStore} {old new q : QString}
    (h : PathStore.rename fs old new = some gs) (hq : gs.find q ≠ none) :
    ¬QDir.Inside old q ∧ fs.find q ≠ none ∨
      QDir.Inside new q ∧ fs.find (movedFrom old new q) ≠ none := by
  simp only [PathStore.rename] at h
  split at h
  · exact absurd h (by simp)
  · obtain rfl := Option.some.inj h
    obtain ⟨e, he, rfl⟩ := mem_of_find_ofList hq
    obtain ⟨d, hd, rfl⟩ := List.mem_map.mp he
    have hfind : fs.find d.1 ≠ none := by
      rw [(QMap.mem_iff_find fs d).mp hd]
      exact Option.some_ne_none d.2
    by_cases hin : QDir.Inside old d.1
    · obtain ⟨hnew, hback⟩ := movedFrom_moveKey new hin
      exact Or.inr ⟨hnew, by rwa [hback]⟩
    · have hkey : PathStore.moveKey old new d.1 = d.1 := if_neg hin
      rw [hkey]
      exact Or.inl ⟨hin, hfind⟩

theorem fileSystem_naming : Naming PathStore.fileSystem where
  openRead fs p content h := by
    rw [storeExists_iff]
    intro hnone
    simp [PathStore.fileSystem, hnone] at h
  openWrite fs p body r h q _ hq := by
    obtain ⟨gs, hw, rfl⟩ := Option.map_eq_some_iff.mp h
    rw [storeExists_iff] at hq ⊢
    exact writeFile_exists hw hq
  openReadWrite fs p pos body r h q _ hq := by
    obtain ⟨gs, hw, rfl⟩ := Option.map_eq_some_iff.mp h
    rw [storeExists_iff] at hq ⊢
    exact writeFile_exists hw hq
  mkdir fs p gs h q _ hq := by
    rw [storeExists_iff] at hq ⊢
    simp only [PathStore.fileSystem, PathStore.mkdir] at h
    split at h
    · exact absurd h (by simp)
    · obtain rfl := Option.some.inj h
      by_cases hqp : q = p
      · exact Or.inr hqp
      · exact Or.inl (by simpa [hqp] using hq)
  remove fs p gs h q _ hq := by
    rw [storeExists_iff] at hq ⊢
    simp only [PathStore.fileSystem, PathStore.remove] at h
    split at h
    · split at h
      · exact absurd h (by simp)
      · obtain rfl := Option.some.inj h
        exact find_of_remove hq
    · exact absurd h (by simp)
  rmdir fs p gs h q _ hq := by
    rw [storeExists_iff] at hq ⊢
    simp only [PathStore.fileSystem, PathStore.rmdir] at h
    split at h
    · split at h
      · exact absurd h (by simp)
      · obtain rfl := Option.some.inj h
        exact find_of_remove hq
    · exact absurd h (by simp)
  chmod fs p mode q _ hq := by
    rw [storeExists_iff] at hq ⊢
    by_cases hqp : q = p
    · subst hqp
      intro hnone
      simp [PathStore.fileSystem, PathStore.chmod, hnone] at hq
    · simp only [PathStore.fileSystem, PathStore.chmod] at hq
      split at hq
      · simpa [hqp] using hq
      · simpa [hqp] using hq
      · exact hq
  truncate fs p size q _ hq := by
    rw [storeExists_iff] at hq ⊢
    by_cases hqp : q = p
    · subst hqp
      intro hnone
      simp [PathStore.fileSystem, PathStore.truncate, hnone] at hq
    · simp only [PathStore.fileSystem, PathStore.truncate] at hq
      split at hq
      · split at hq
        · exact hq
        · simpa [hqp] using hq
      · exact hq
  rename fs old new gs h q _ hq := by
    rw [storeExists_iff] at hq
    simp only [storeExists_iff]
    exact rename_exists h hq

end Nfs
