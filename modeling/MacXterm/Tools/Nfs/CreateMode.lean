import MacXterm.Tools.Nfs.FileBytes

namespace Nfs

open Qt Xdr

variable {σ : Type} {E : Environment σ} {F : FileSystem σ}

-- QIODevice::WriteOnly truncates a file that it opens.
def Environment.Truncates (E : Environment σ) (F : FileSystem σ) : Prop :=
  ∀ fs p r, F.openWrite fs p [] = some r → E.content r.1 p = []

-- A create mode other than 0 is GUARDED or EXCLUSIVE; with 0, UNCHECKED, the attributes may give
-- the file a size.
structure ModeRespected (E : Environment σ) (F : FileSystem σ) (fs : σ) (child : QString)
    (mode : UInt32) (size : Option UInt64) (o : Outcome σ) : Prop where
  guarded : mode ≠ 0 → nfsStat F fs child ≠ none →
    replyStatus o.reply ≠ NFS3_OK ∧ E.content o.fs child = E.content fs child
  unchecked : mode = 0 → size = none → nfsStat F fs child ≠ none →
    E.content o.fs child = E.content fs child

section Respected

variable {fs : σ} {child : QString} {mode : UInt32} {size : Option UInt64} {o : Outcome σ}

theorem respected_of_kept (hstatus : replyStatus o.reply = NFS3ERR_ACCES) (hfs : o.fs = fs) :
    ModeRespected E F fs child mode size o :=
  ⟨fun _ _ => ⟨fun hok => absurd (hstatus.symm.trans hok) (by decide), by rw [hfs]⟩,
    fun _ _ _ => by rw [hfs]⟩

theorem respected_of_emptied (hstatus : replyStatus o.reply = NFS3_OK)
    (hcontent : E.content o.fs child = []) :
    ModeRespected E F fs child mode size o ↔
      nfsStat F fs child = none ∨ mode = 0 ∧ (size ≠ none ∨ E.content fs child = []) := by
  constructor
  · intro h
    by_cases hexists : nfsStat F fs child = none
    · exact .inl hexists
    · have hmode : mode = 0 := by
        by_contra hmode
        exact (h.guarded hmode hexists).1 hstatus
      refine .inr ⟨hmode, ?_⟩
      by_cases hsize : size = none
      · exact .inr ((h.unchecked hmode hsize hexists).symm.trans hcontent)
      · exact .inl hsize
  · rintro (habsent | ⟨rfl, hsize | hempty⟩)
    · exact ⟨fun _ hexists => absurd habsent hexists, fun _ _ hexists => absurd habsent hexists⟩
    · exact ⟨fun hmode => absurd rfl hmode, fun _ hnone => absurd hnone hsize⟩
    · exact ⟨fun hmode => absurd rfl hmode, fun _ _ _ => hcontent.trans hempty.symm⟩

end Respected

theorem create_mode_iff (E : Environment σ) (F : FileSystem σ) (hF : F.Lawful)
    (hE : E.Truncates F) (s : NfsServer) (fs : σ) (v : Procedure.create.call.Value) :
    let child := s.named v.2.1
    let mode := v.2.2.1.val
    let size := v.2.2.2.1.val.bind sattrSize
    ModeRespected E F fs child mode size
        (handleDatagram F s fs (Procedure.create.call.encode v)) ↔
      F.openWrite fs child [] = none ∨ nfsStat F fs child = none ∨
        mode = 0 ∧ (size ≠ none ∨ E.content fs child = []) := by
  obtain ⟨xid, r, hr, hcall⟩ := handleDatagram_encode F s fs .create v
  rw [hcall, nfsProcedure_number, Procedure.perform]
  obtain ⟨r', hname⟩ := readCreate_encode s hr
  simp only [create, hname]
  split
  · rename_i gs n _ hopen
    change F.openWrite fs (s.named v.2.1) [] = some (gs, n) at hopen
    simp only [hopen, reduceCtorEq, false_or]
    exact respected_of_emptied (replyStatus_of_extends (putCreated_extends _ s gs _ _))
      (hE fs _ _ hopen)
  · rename_i hfail
    refine iff_of_true (respected_of_kept (replyStatus_of_extends (putWccData_extends _ fs _)) rfl)
      (Or.inl ?_)
    cases hopen : F.openWrite fs (s.named v.2.1) [] with
    | none => rfl
    | some result =>
      have hchild : s.named v.2.1 ≠ [] := by
        intro hnil
        rw [hnil, hF.openWrite_nil] at hopen
        exact absurd hopen (by simp)
      exact (hfail result.1 result.2 (guard_of_named hchild) hopen).elim

theorem storeEnvironment_truncates : storeEnvironment.Truncates PathStore.fileSystem := by
  intro fs p r h
  obtain ⟨gs, hwrite, rfl⟩ := Option.map_eq_some_iff.mp h
  rcases find_writeFile hwrite with ⟨mode, content, -, hafter⟩ | ⟨-, hafter⟩
  · simp only [storeEnvironment, hafter]
  · simp only [storeEnvironment, hafter]

-- GUARDED, without attributes.
def createGuarded (byte : UInt8) : Procedure.create.call.Value :=
  ⟨sampleHeader .create, ⟨⟨sampleHandle 2, oneByte byte⟩, ⟨⟨1, by decide⟩,
    ⟨⟨some noAttributes, rfl⟩, ⟨none, rfl⟩⟩⟩⟩⟩

theorem create_mode_fresh :
    ModeRespected storeEnvironment PathStore.fileSystem textStore
      (fileServer.named (createGuarded 103).2.1) 1 none
      (handleDatagram PathStore.fileSystem fileServer textStore
        (Procedure.create.call.encode (createGuarded 103))) :=
  (create_mode_iff storeEnvironment PathStore.fileSystem PathStore.fileSystem_lawful
    storeEnvironment_truncates fileServer textStore (createGuarded 103)).mpr
    (.inr (.inl (by decide +kernel)))

theorem guarded_create_empties :
    ¬ ∀ (σ : Type) (E : Environment σ) (F : FileSystem σ), F.Lawful → E.Truncates F →
      ∀ (s : NfsServer) (fs : σ) (v : Procedure.create.call.Value),
        ModeRespected E F fs (s.named v.2.1) v.2.2.1.val (v.2.2.2.1.val.bind sattrSize)
          (handleDatagram F s fs (Procedure.create.call.encode v)) := by
  intro h
  have hcall := h PathStore storeEnvironment PathStore.fileSystem PathStore.fileSystem_lawful
    storeEnvironment_truncates fileServer textStore (createGuarded 102)
  exact (hcall.guarded (by decide) (by decide +kernel)).1 (by decide +kernel)

end Nfs
