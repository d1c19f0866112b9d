import MacXterm.Qt.PathStore
import MacXterm.Tools.Nfs.Call

namespace Nfs

open Qt Xdr

variable {σ : Type} {F : FileSystem σ} (s : NfsServer) (fs : σ) (w : XdrWriter) (r : XdrReader)

def SetattrReaches (a : SetattrArgs) : Prop :=
  a.ok = true ∧ a.path ≠ [] ∧
    (a.setMode = true ∨ (a.setSize = true ∧ ¬ a.size.toInt64 < 0))

def WriteReaches (a : WriteArgs) : Prop := a.ok = true ∧ a.path ≠ []

def NameReaches (a : NameArgs) : Prop := a.ok = true ∧ s.childWithin a.dir a.name ≠ []

def RenameReaches (source target : NameArgs) : Prop :=
  let old := s.childWithin source.dir source.name
  let new := s.childWithin target.dir target.name
  target.ok = true ∧ old ≠ [] ∧ new ≠ [] ∧ ¬ (QDir.Inside old new ∨ QDir.Inside new old)

def procedureReaches (proc : UInt32) : Prop :=
  match proc with
  | 2 => SetattrReaches (readSetattr s r)
  | 7 => WriteReaches (readWrite s r)
  | 8 => NameReaches s (readCreate s r)
  | 9 => NameReaches s (readMkdir s r)
  | 12 => NameReaches s (readName s r)
  | 13 => NameReaches s (readName s r)
  | 14 => RenameReaches s (readName s r) (readName s (readName s r).rest)
  | _ => False

def Reaches (request : QByteArray) : Prop :=
  ∃ call ∈ acceptCall request, call.1.prog = PROG_NFS ∧ call.1.vers = 3 ∧
    procedureReaches s call.2 call.1.proc

section Kept

variable (hF : F.Lawful)

include hF

theorem setattr_fs (h : ¬ SetattrReaches (readSetattr s r)) : (setattr F s fs w r).fs = fs := by
  simp only [setattr]
  generalize readSetattr s r = a at h
  by_cases hok : a.ok = true
  · by_cases hp : a.path = []
    · simp [hp]
    · have hmode : a.setMode = false := by
        cases hm : a.setMode with
        | false => rfl
        | true => exact absurd ⟨hok, hp, .inl hm⟩ h
      have hsize : a.setSize = true → a.size.toInt64 < 0 := fun hs => by
        by_contra hn
        exact h ⟨hok, hp, .inr ⟨hs, hn⟩⟩
      simp only [applySetattr, hmode, Bool.false_eq_true, if_false]
      split
      · split
        · rename_i hs
          exact hF.truncate_negative fs _ _ (hsize hs)
        · rfl
      · rfl
  · simp [hok]

theorem write_fs (h : ¬ WriteReaches (readWrite s r)) : (write F s fs w r).fs = fs := by
  simp only [write]
  split
  · rename_i hok ho
    have hp : (readWrite s r).path = [] := by
      by_contra hp
      exact h ⟨hok, hp⟩
    rw [hp, hF.openReadWrite_nil] at ho
    exact absurd ho (by simp)
  · rfl

theorem create_fs (h : ¬ NameReaches s (readCreate s r)) : (create F s fs w r).fs = fs := by
  simp only [create]
  split
  · rename_i hok ho
    simp only [Bool.and_eq_true] at hok
    have hp : s.childWithin (readCreate s r).dir (readCreate s r).name = [] := by
      by_contra hp
      exact h ⟨hok.1, hp⟩
    rw [hp, hF.openWrite_nil] at ho
    exact absurd ho (by simp)
  · rfl

theorem mkdir_fs (h : ¬ NameReaches s (readMkdir s r)) : (mkdir F s fs w r).fs = fs := by
  simp only [mkdir]
  split
  · rename_i hok ho
    simp only [Bool.and_eq_true] at hok
    have hp : s.childWithin (readMkdir s r).dir (readMkdir s r).name = [] := by
      by_contra hp
      exact h ⟨hok.1, hp⟩
    rw [hp, hF.mkdir_nil] at ho
    exact absurd ho (by simp)
  · rfl

omit hF in
theorem removeEntry_fs {op : σ → QString → Option σ} (hop : op fs [] = none)
    (h : ¬ NameReaches s (readName s r)) : (removeEntry F s fs w r op).fs = fs := by
  simp only [removeEntry]
  split
  · rename_i hok ho
    simp only [Bool.and_eq_true] at hok
    have hp : s.childWithin (readName s r).dir (readName s r).name = [] := by
      by_contra hp
      exact h ⟨hok.1, hp⟩
    rw [hp, hop] at ho
    exact absurd ho (by simp)
  · rfl

theorem rename_fs (h : ¬ RenameReaches s (readName s r) (readName s (readName s r).rest)) :
    (rename F s fs w r).fs = fs := by
  unfold rename
  extract_lets source target result
  split
  · rename_i hok ho
    simp only [Bool.and_eq_true] at hok
    have hnone : result = none := by
      by_cases hold : s.childWithin source.dir source.name = []
      · simp only [result, hold, hF.rename_nil_left]
      · by_cases hnew : s.childWithin target.dir target.name = []
        · simp only [result, hnew, hF.rename_nil_right]
        · by_contra hres
          exact h ⟨hok.1.1, hold, hnew, fun hin => hres (hF.rename_nested fs _ _ hin)⟩
    rw [hnone] at ho
    exact absurd ho (by simp)
  · rfl

theorem nfsProcedure_fs (proc : UInt32) (h : ¬ procedureReaches s r proc) :
    (nfsProcedure F s fs w r proc).fs = fs := by
  unfold nfsProcedure
  split
  · rfl
  · simp only [getattr]
    split <;> rfl
  · exact setattr_fs s fs w r hF h
  · simp only [lookup]
    split <;> rfl
  · rfl
  · rfl
  · simp only [read]
    split <;> rfl
  · exact write_fs s fs w r hF h
  · exact create_fs s fs w r hF h
  · exact mkdir_fs s fs w r hF h
  · exact removeEntry_fs s fs w r (hF.remove_nil fs) h
  · exact removeEntry_fs s fs w r (hF.rmdir_nil fs) h
  · exact rename_fs s fs w r hF h
  · rfl
  · rfl
  · rfl
  · rfl
  · rfl
  · rfl
  · rfl

theorem handleDatagram_fs (request : QByteArray) (h : ¬ Reaches s request) :
    (handleDatagram F s fs request).fs = fs := by
  unfold handleDatagram
  split
  · rfl
  · rename_i call r hcall
    simp only
    split
    · unfold portmapProcedure
      split <;> rfl
    · split
      · unfold mountProcedure
        split <;> rfl
      · split
        · rename_i hnfs
          exact nfsProcedure_fs s fs _ r hF call.proc fun hp =>
            h ⟨(call, r), hcall, hnfs.1, hnfs.2, hp⟩
        · rfl

end Kept

section Changed

open PathStore

theorem setattr_changes (h : SetattrReaches (readSetattr s r)) :
    ∃ fs, (setattr fileSystem s fs w r).fs ≠ fs := by
  simp only [setattr]
  generalize readSetattr s r = a at h
  obtain ⟨hok, hp, h⟩ := h
  simp only [hok, hp, ne_eq, not_false_eq_true, decide_true, Bool.and_self, if_true]
  cases hm : a.setMode with
  | true =>
    refine ⟨single a.path (.dir ((a.mode &&& 0o7777) + 1)), ?_⟩
    cases hs : a.setSize with
    | true =>
      simpa [applySetattr, hm, hs] using
        chmod_single a.path (a.mode &&& 0o7777) (some a.size.toInt64)
    | false => simpa [applySetattr, hm, hs] using chmod_single a.path (a.mode &&& 0o7777) none
  | false =>
    obtain ⟨hs, hn⟩ := h.resolve_left (by simp [hm])
    obtain ⟨fs, hfs⟩ := truncate_single a.path hn
    exact ⟨fs, by simpa [applySetattr, hm, hs] using hfs⟩

theorem write_changes (h : WriteReaches (readWrite s r)) :
    ∃ fs, (write fileSystem s fs w r).fs ≠ fs := by
  obtain ⟨fs, n, ho, hne⟩ := openReadWrite_empty h.2 (seek (readWrite s r).offset)
    (readWrite s r).data
  exact ⟨QMap.empty, by simpa only [write, h.1, ho] using hne⟩

theorem create_changes (h : NameReaches s (readCreate s r)) :
    ∃ fs, (create fileSystem s fs w r).fs ≠ fs := by
  obtain ⟨fs, n, ho, hne⟩ := openWrite_empty h.2 []
  refine ⟨QMap.empty, ?_⟩
  simpa only [create, putCreated, h.1, NfsServer.dir_ne_nil h.2, ho, ne_eq, not_false_eq_true, decide_true,
    Bool.and_self] using hne

theorem mkdir_changes (h : NameReaches s (readMkdir s r)) :
    ∃ fs, (mkdir fileSystem s fs w r).fs ≠ fs := by
  obtain ⟨fs, ho, hne⟩ := mkdir_empty h.2
  refine ⟨QMap.empty, ?_⟩
  simpa only [mkdir, putCreated, h.1, NfsServer.dir_ne_nil h.2, ho, ne_eq, not_false_eq_true, decide_true,
    Bool.and_self] using hne

theorem removeEntry_changes (h : NameReaches s (readName s r))
    {op : PathStore → QString → Option PathStore} {fs gs : PathStore}
    (ho : op fs (s.childWithin (readName s r).dir (readName s r).name) = some gs) (hne : gs ≠ fs) :
    (removeEntry fileSystem s fs w r op).fs ≠ fs := by
  simpa only [removeEntry, h.1, NfsServer.dir_ne_nil h.2, ho, ne_eq, not_false_eq_true, decide_true,
    Bool.and_self] using hne

theorem rename_changes (h : RenameReaches s (readName s r) (readName s (readName s r).rest)) :
    ∃ fs, (rename fileSystem s fs w r).fs ≠ fs := by
  obtain ⟨hok, hold, hnew, hin⟩ := h
  obtain ⟨fs, ho, hne⟩ := rename_single hold hnew hin (.file 0 [])
  refine ⟨single (s.childWithin (readName s r).dir (readName s r).name) (.file 0 []), ?_⟩
  unfold rename
  extract_lets source target result
  have hres : result = some fs := ho
  have hdirs : (target.ok && source.dir ≠ [] && target.dir ≠ []) = true := by
    simp only [target, source, hok, NfsServer.dir_ne_nil hold, NfsServer.dir_ne_nil hnew, ne_eq,
      not_false_eq_true,
      decide_true, Bool.and_self]
  rw [hdirs, hres]
  exact hne

theorem nfsProcedure_changes (proc : UInt32) (h : procedureReaches s r proc) :
    ∃ fs, (nfsProcedure fileSystem s fs w r proc).fs ≠ fs := by
  unfold procedureReaches at h
  split at h
  · exact setattr_changes s w r h
  · exact write_changes s w r h
  · exact create_changes s w r h
  · exact mkdir_changes s w r h
  · obtain ⟨fs, ho, hne⟩ := remove_single h.2 0 []
    exact ⟨_, removeEntry_changes s w r h ho hne⟩
  · obtain ⟨fs, ho, hne⟩ := rmdir_single h.2 0
    exact ⟨_, removeEntry_changes s w r h ho hne⟩
  · exact rename_changes s w r h
  · exact absurd h (by simp)

theorem handleDatagram_changes (request : QByteArray) (h : Reaches s request) :
    ∃ fs, (handleDatagram fileSystem s fs request).fs ≠ fs := by
  obtain ⟨⟨call, r⟩, hcall, hprog, hvers, hproc⟩ := h
  obtain ⟨fs, hfs⟩ := nfsProcedure_changes s (putReplyHeader ⟨[]⟩ call.xid) r call.proc hproc
  have hp : call.prog = PROG_NFS := hprog
  have hv : call.vers = 3 := hvers
  refine ⟨fs, ?_⟩
  rw [handleDatagram, Option.mem_def.mp hcall]
  simp only [hp, hv, and_self, if_true]
  rw [if_neg (by decide), if_neg (by decide)]
  exact hfs

end Changed

def truncatedCreate : QByteArray :=
  rpcCall 1 PROG_NFS 3 8 (BigEndian.bytes32 32 ++ NfsServer.handleBytes 1 ++ BigEndian.bytes32 1 ++
    [110, 0, 0, 0] ++ BigEndian.bytes32 0)

end Nfs
