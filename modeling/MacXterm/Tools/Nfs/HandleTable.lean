import MacXterm.Qt.ByteArray
import MacXterm.Tools.Nfs.Containment

namespace Nfs

open Qt Xdr

variable {σ : Type} {F : FileSystem σ} {s t : NfsServer}

structure Table (s : NfsServer) : Prop where
  clean : ∀ fh p, s.handleToPath.find fh = some p → QDir.cleanPath p = p
  minted : ∀ fh p, s.handleToPath.find fh = some p →
    ∃ id : UInt32, id.toNat < s.nextHandle.toNat ∧ fh = NfsServer.handleBytes id

def KeepsHandles (s t : NfsServer) : Prop :=
  ∀ fh p, s.handleToPath.find fh = some p → t.handleToPath.find fh = some p

theorem KeepsHandles.refl (s : NfsServer) : KeepsHandles s s := fun _ _ h => h

theorem KeepsHandles.trans {u : NfsServer} (h : KeepsHandles s t) (h' : KeepsHandles t u) :
    KeepsHandles s u := fun fh p hf => h' fh p (h fh p hf)

theorem pathForHandle_eq (s : NfsServer) (fh : QByteArray) :
    s.pathForHandle fh = (s.handleToPath.find fh).getD [] := rfl

theorem find_of_pathForHandle {fh : QByteArray} (h : s.pathForHandle fh ≠ []) :
    s.handleToPath.find fh = some (s.pathForHandle fh) := by
  rw [pathForHandle_eq] at h ⊢
  cases hf : s.handleToPath.find fh with
  | none => simp [hf] at h
  | some p => rfl

theorem KeepsHandles.pathForHandle (h : KeepsHandles s t) {fh : QByteArray}
    (hne : s.pathForHandle fh ≠ []) : t.pathForHandle fh = s.pathForHandle fh := by
  have hf := h fh _ (find_of_pathForHandle hne)
  rw [pathForHandle_eq t, hf]
  rfl

theorem handleBytes_inj {i j : UInt32} (h : NfsServer.handleBytes i = NfsServer.handleBytes j) :
    i = j := by
  rw [NfsServer.handleBytes, NfsServer.handleBytes] at h
  have hl : (BigEndian.bytes32 i).length = (BigEndian.bytes32 j).length := rfl
  have hbytes := (List.append_inj h hl).1
  have hword := congrArg (fun b => rd32be (b ++ []) 0) hbytes
  simpa only [rd32be_bytes32] using hword

theorem find_start {exportDir : QString} {port : UInt16} {fh : QByteArray} {p : QString}
    (h : (NfsServer.start exportDir port).handleToPath.find fh = some p) :
    fh = NfsServer.handleBytes 1 ∧ p = QDir.cleanPath (QDir.cleanPath exportDir) := by
  have hroot : (QHash.insert [] (NfsServer.handleBytes 1)
      (QDir.cleanPath (QDir.cleanPath exportDir)) : QHash QByteArray QString).find fh = some p := h
  rw [QHash.find_insert] at hroot
  split at hroot
  · rename_i heq
    exact ⟨heq, (Option.some.inj hroot).symm⟩
  · exact absurd hroot (by simp [QHash.find])

theorem Table.start (exportDir : QString) (port : UInt16) : Table (.start exportDir port) := by
  constructor
  · intro fh p h
    rw [(find_start h).2]
    exact QDir.cleanPath_cleanPath _
  · intro fh p h
    have hnext : (NfsServer.start exportDir port).nextHandle = 2 := rfl
    exact ⟨1, by rw [hnext]; decide, (find_start h).1⟩

theorem Table.fileHandle (h : Table s) (hroom : s.nextHandle.toNat + 1 < 2 ^ 32) (p : QString) :
    Table (s.fileHandle p).2 ∧ KeepsHandles s (s.fileHandle p).2 ∧
      (s.fileHandle p).2.nextHandle.toNat ≤ s.nextHandle.toNat + 1 := by
  simp only [NfsServer.fileHandle]
  split
  · exact ⟨h, .refl s, by simp⟩
  · have hnext : (s.nextHandle + 1).toNat = s.nextHandle.toNat + 1 := by
      rw [UInt32.toNat_add]
      exact Nat.mod_eq_of_lt hroom
    have hold (fh' : QByteArray) (q : QString) (hq : s.handleToPath.find fh' = some q) :
        fh' ≠ NfsServer.handleBytes s.nextHandle := by
      obtain ⟨id, hid, rfl⟩ := h.minted fh' q hq
      intro heq
      rw [handleBytes_inj heq] at hid
      exact Nat.lt_irrefl _ hid
    refine ⟨⟨fun fh' q hq => ?_, fun fh' q hq => ?_⟩, fun fh' q hq => ?_, ?_⟩
    · rw [QHash.find_insert] at hq
      split at hq
      · rw [← Option.some.inj hq]
        exact QDir.cleanPath_cleanPath p
      · exact h.clean fh' q hq
    · rw [QHash.find_insert] at hq
      dsimp only
      rw [hnext]
      split at hq
      · exact ⟨s.nextHandle, by omega, by assumption⟩
      · obtain ⟨id, hid, heq⟩ := h.minted fh' q hq
        exact ⟨id, by omega, heq⟩
    · rw [QHash.find_insert, if_neg (hold fh' q hq)]
      exact hq
    · dsimp only
      omega

def mintAll (s : NfsServer) (paths : List QString) : NfsServer :=
  paths.foldl (fun s p => (s.fileHandle p).2) s

theorem Table.mintAll (h : Table s) (paths : List QString)
    (hroom : s.nextHandle.toNat + paths.length < 2 ^ 32) :
    Table (Nfs.mintAll s paths) ∧ KeepsHandles s (Nfs.mintAll s paths) := by
  induction paths generalizing s with
  | nil => exact ⟨h, .refl s⟩
  | cons p paths ih =>
    rw [List.length_cons] at hroom
    obtain ⟨htable, hkeeps, hnext⟩ := h.fileHandle (by omega) p
    obtain ⟨htable', hkeeps'⟩ := ih htable (by omega)
    exact ⟨htable', hkeeps.trans hkeeps'⟩

theorem MintsChild.minted (h : MintsChild s t) :
    ∃ paths, paths.length ≤ 64 ∧ t = mintAll s paths := by
  rcases h with rfl | ⟨dir, name, -, rfl⟩
  · exact ⟨[], by simp, rfl⟩
  · exact ⟨[s.childWithin dir name], by simp, rfl⟩

theorem mintListed_minted (fs : σ) (a : ReaddirArgs) :
    ∃ paths, paths.length ≤ 64 ∧ mintListed fs F a s = mintAll s paths := by
  refine ⟨(window (entries F fs a.path) a.cookie.toNat).map (QDir.filePath a.path), ?_, ?_⟩
  · rw [List.length_map]
    exact List.length_take_le _ _
  · rw [mintListed, mintAll, List.foldl_map]

theorem handleDatagram_server (hF : F.Lawful) (fs : σ) (request : QByteArray) :
    ∃ paths, paths.length ≤ 64 ∧ (handleDatagram F s fs request).server = mintAll s paths := by
  unfold handleDatagram
  split
  · exact ⟨[], by simp, rfl⟩
  · rename_i call r hcall
    simp only
    split
    · rw [portmapProcedure_server]
      exact ⟨[], by simp, rfl⟩
    · split
      · rcases mountProcedure_server (s := s) fs (putReplyHeader ⟨[]⟩ call.xid) call.proc with h | h
        · rw [h]
          exact ⟨[], by simp, rfl⟩
        · rw [h]
          exact ⟨[s.exportDir], by simp, rfl⟩
      · split
        · rcases nfsProcedure_server s fs (putReplyHeader ⟨[]⟩ call.xid) r hF call.proc with
            h | ⟨-, h⟩
          · exact h.minted
          · rw [h]
            exact mintListed_minted fs (readReaddir s r)
        · exact ⟨[], by simp, rfl⟩

theorem Table.handleDatagram (h : Table s) (hF : F.Lawful) (fs : σ) (request : QByteArray)
    (hroom : s.nextHandle.toNat + 64 < 2 ^ 32) :
    Table (Nfs.handleDatagram F s fs request).server ∧
      KeepsHandles s (Nfs.handleDatagram F s fs request).server := by
  obtain ⟨paths, hlength, heq⟩ := handleDatagram_server (s := s) hF fs request
  rw [heq]
  exact h.mintAll paths (by omega)

end Nfs
