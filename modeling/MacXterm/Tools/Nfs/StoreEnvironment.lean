import MacXterm.Tools.Nfs.Change

namespace Nfs

open Qt Xdr

def storeEnvironment : Environment PathStore where
  content fs p := match fs.find p with
    | some (.file _ content) => content
    | _ => []
  chmod fs p m := (fs.find p).map fun _ => m &&& 0o7777
  truncate fs p n := match fs.find p with
    | some (.file mode _) => if n < 0 then none else some (mode &&& 0o7777)
    | _ => none
  createMode fs p := match fs.find p with
    | some (.file mode _) => mode &&& 0o7777
    | _ => 0o644
  mkdirMode _ _ := 0o755
  buffers _ _ _ := true
  takes _ _ _ data := data.length

theorem movedFrom_inside {new q : QString} (old : QString) (h : QDir.Inside new q) :
    QDir.Inside old (movedFrom old new q) ∧
      PathStore.moveKey old new (movedFrom old new q) = q := by
  obtain ⟨hold, hback⟩ := movedFrom_moveKey old h
  have hmoved : movedFrom old new q = PathStore.moveKey new old q := rfl
  rw [hmoved]
  refine ⟨hold, ?_⟩
  rw [PathStore.moveKey, if_pos hold]
  rwa [movedFrom, if_pos hold] at hback

theorem rename_moves {fs gs : PathStore} {old new : QString}
    (h : PathStore.rename fs old new = some gs) {q : QString} (hq : QDir.Inside new q)
    (hfree : fs.find q = none) : gs.find q = fs.find (movedFrom old new q) := by
  simp only [PathStore.rename] at h
  split at h
  · exact absurd h (by simp)
  · obtain rfl := Option.some.inj h
    conv_rhs => rw [← QMap.ofList_entries fs]
    apply PathStore.find_ofList_map
    intro e he
    have hfind := (QMap.mem_iff_find fs e).mp he
    obtain ⟨hold, hback⟩ := movedFrom_inside old hq
    constructor
    · intro hkey
      by_cases hin : QDir.Inside old e.1
      · rw [← hkey, (movedFrom_moveKey new hin).2]
      · rw [PathStore.moveKey, if_neg hin] at hkey
        rw [hkey, hfree] at hfind
        exact absurd hfind (by simp)
    · rintro heq
      rw [heq, hback]

theorem rename_leaves {fs gs : PathStore} {old new : QString}
    (h : PathStore.rename fs old new = some gs) : gs.find old = none := by
  by_contra hfound
  rcases rename_exists h hfound with ⟨hnot, -⟩ | ⟨hinside, -⟩
  · exact hnot (Or.inl rfl)
  · simp only [PathStore.rename, hinside, or_true, if_true, reduceCtorEq] at h

theorem stat_of_find {fs : PathStore} {p : QString} {n : Option Node} (h : fs.find p = n) :
    PathStore.fileSystem.stat fs p = n.map fun
      | .file mode content =>
          ⟨mode, 1, 0, 0, .ofNat content.length, 0, 0, 0, 0, 0, 0, false, false⟩
      | .dir mode => ⟨mode, 1, 0, 0, 0, 0, 0, 0, 0, 0, 0, true, false⟩ := by
  rw [← h]
  rfl

theorem find_writeFile {fs gs : PathStore} {p : QString} {change : QByteArray → QByteArray}
    (h : PathStore.writeFile fs p change = some gs) :
    (∃ mode content, fs.find p = some (.file mode content) ∧
        gs.find p = some (.file mode (change content))) ∨
      fs.find p = none ∧ gs.find p = some (.file 0o644 (change [])) := by
  simp only [PathStore.writeFile] at h
  split at h
  · exact absurd h (by simp)
  · split at h
    · exact absurd h (by simp)
    · rename_i mode content hfind
      obtain rfl := Option.some.inj h
      exact Or.inl ⟨mode, content, hfind, by simp⟩
    · rename_i hfind
      obtain rfl := Option.some.inj h
      exact Or.inr ⟨hfind, by simp⟩

section Store

variable {fs gs : PathStore} {p : QString}

theorem stat_chmod {node : Node} (m : UInt32) (h : fs.find p = some node) :
    ∃ st st', PathStore.fileSystem.stat fs p = some st ∧
      PathStore.fileSystem.stat (PathStore.chmod fs p m) p = some st' ∧
      permissions st' = m &&& 0o7777 ∧ st'.size = st.size := by
  cases node with
  | file mode content =>
    have hafter : (PathStore.chmod fs p m).find p = some (.file m content) := by
      simp [PathStore.chmod, h]
    exact ⟨_, _, stat_of_find h, stat_of_find hafter, rfl, rfl⟩
  | dir mode =>
    have hafter : (PathStore.chmod fs p m).find p = some (.dir m) := by
      simp [PathStore.chmod, h]
    exact ⟨_, _, stat_of_find h, stat_of_find hafter, rfl, rfl⟩

theorem stat_truncate {mode : UInt32} {content : QByteArray} {n : Int64}
    (h : fs.find p = some (.file mode content)) (hn : ¬ n < 0) :
    ∃ st, PathStore.fileSystem.stat (PathStore.truncate fs p n) p = some st ∧
      permissions st = mode &&& 0o7777 ∧ st.size = n.toUInt64 := by
  have hafter : (PathStore.truncate fs p n).find p =
      some (.file mode (PathStore.resize content n.toNatClampNeg)) := by
    simp [PathStore.truncate, h, hn]
  refine ⟨_, stat_of_find hafter, rfl, ?_⟩
  change UInt64.ofNat (PathStore.resize content n.toNatClampNeg).length = n.toUInt64
  rw [PathStore.resize_length, ← Int64.toNat_toUInt64_of_le (Int64.not_lt.mp hn),
    UInt64.ofNat_toNat]

theorem gone_of_remove (h : PathStore.remove fs p = some gs) : gs.find p = none := by
  simp only [PathStore.remove] at h
  split at h
  · split at h
    · exact absurd h (by simp)
    · simp [← Option.some.inj h]
  · exact absurd h (by simp)

theorem gone_of_rmdir (h : PathStore.rmdir fs p = some gs) : gs.find p = none := by
  simp only [PathStore.rmdir] at h
  split at h
  · split at h
    · exact absurd h (by simp)
    · simp [← Option.some.inj h]
  · exact absurd h (by simp)

theorem find_mkdir (h : PathStore.mkdir fs p = some gs) : gs.find p = some (.dir 0o755) := by
  simp only [PathStore.mkdir] at h
  split at h
  · exact absurd h (by simp)
  · simp [← Option.some.inj h]

end Store

theorem storeEnvironment_documents : storeEnvironment.Documents PathStore.fileSystem where
  chmod_refused fs p m h := by
    have hfind : fs.find p = none := Option.map_eq_none_iff.mp h
    simp only [PathStore.fileSystem, PathStore.chmod, hfind]
  chmod_done fs p m left h := by
    obtain ⟨node, hfind, rfl⟩ := Option.map_eq_some_iff.mp h
    exact stat_chmod m hfind
  truncate_refused fs p n h := by
    simp only [storeEnvironment] at h
    change PathStore.truncate fs p n = fs
    rw [PathStore.truncate]
    cases hfind : fs.find p with
    | none => rfl
    | some node =>
      cases node with
      | dir mode => rfl
      | file mode content =>
        simp only [hfind, ite_eq_left_iff, reduceCtorEq, imp_false, not_not] at h
        exact if_pos h
  truncate_done fs p n left h := by
    simp only [storeEnvironment] at h
    split at h
    · rename_i mode content hfind
      split at h
      · exact absurd h (by simp)
      · rename_i hpos
        obtain rfl := Option.some.inj h
        exact stat_truncate hfind hpos
    · exact absurd h (by simp)
  openReadWrite fs p pos data r h := by
    obtain ⟨gs, hwrite, rfl⟩ := Option.map_eq_some_iff.mp h
    refine ⟨rfl, Nat.le_refl _, ?_⟩
    rcases find_writeFile hwrite with ⟨mode, content, hbefore, hafter⟩ | ⟨hbefore, hafter⟩
    · simp only [storeEnvironment, hbefore, hafter, List.take_length]
    · simp only [storeEnvironment, hbefore, hafter, List.take_length]
  openWrite fs p r h := by
    obtain ⟨gs, hwrite, rfl⟩ := Option.map_eq_some_iff.mp h
    rcases find_writeFile hwrite with ⟨mode, content, hbefore, hafter⟩ | ⟨hbefore, hafter⟩
    · refine ⟨_, stat_of_find hafter, rfl, rfl, ?_⟩
      simp only [storeEnvironment, hbefore]
      rfl
    · refine ⟨_, stat_of_find hafter, rfl, rfl, ?_⟩
      simp only [storeEnvironment, hbefore]
      rfl
  mkdir fs p gs h := ⟨_, stat_of_find (find_mkdir h), rfl, rfl⟩
  remove fs p gs h := stat_of_find (gone_of_remove h)
  rmdir fs p gs h := stat_of_find (gone_of_rmdir h)
  rename fs old new gs h := by
    refine ⟨stat_of_find (rename_leaves h), fun q hq hfree => ?_⟩
    have hnone : fs.find q = none := Option.map_eq_none_iff.mp hfree
    have hmoved := rename_moves h hq hnone
    simp only [FileSystem.object, PathStore.fileSystem, PathStore.stat, hmoved]

end Nfs
