import MacXterm.Qt.PathStore
import MacXterm.Tools.Nfs.Page

namespace Nfs

open Qt Xdr

variable {σ : Type} {F : FileSystem σ} {s : NfsServer}

inductive Served (F : FileSystem σ) (allowed : NfsServer → σ → QByteArray → Prop)
    (exportDir : QString) (port : UInt16) : NfsServer → Prop
  | start : Served F allowed exportDir port (.start exportDir port)
  | step {s : NfsServer} (fs : σ) (request : QByteArray) :
      Served F allowed exportDir port s → allowed s fs request →
      Served F allowed exportDir port (handleDatagram F s fs request).server

structure Contained (s : NfsServer) : Prop where
  clean : QDir.cleanPath s.exportDir = s.exportDir
  stored : ∀ e ∈ s.handleToPath, QDir.Inside s.exportDir e.2 ∧ QDir.cleanPath e.2 = e.2

theorem fileHandle_exportDir (p : QString) : (s.fileHandle p).2.exportDir = s.exportDir := by
  simp only [NfsServer.fileHandle]
  split <;> rfl

theorem Contained.fileHandle (h : Contained s) {p : QString}
    (hp : QDir.Inside s.exportDir (QDir.cleanPath p)) : Contained (s.fileHandle p).2 := by
  simp only [NfsServer.fileHandle]
  split
  · exact h
  · refine ⟨h.clean, fun e he => ?_⟩
    rcases QHash.mem_insert he with rfl | he
    · exact ⟨hp, QDir.cleanPath_cleanPath p⟩
    · exact h.stored e he

theorem Contained.start (exportDir : QString) (port : UInt16) :
    Contained (.start exportDir port) := by
  have h : Contained ⟨QDir.cleanPath exportDir, port, [], [], 1⟩ :=
    ⟨QDir.cleanPath_cleanPath exportDir, by simp⟩
  exact h.fileHandle (.inl (QDir.cleanPath_cleanPath exportDir))

theorem Contained.pathForHandle (h : Contained s) (fh : QByteArray) :
    s.pathForHandle fh = [] ∨ (QDir.Inside s.exportDir (s.pathForHandle fh) ∧
      QDir.cleanPath (s.pathForHandle fh) = s.pathForHandle fh) := by
  rcases QHash.value_cases s.handleToPath fh [] with hv | hv
  · exact .inl hv
  · exact .inr (h.stored _ hv)

theorem childWithin_inside (s : NfsServer) (dir name : QString) :
    s.childWithin dir name = [] ∨ (QDir.Inside s.exportDir (s.childWithin dir name) ∧
      QDir.cleanPath (s.childWithin dir name) = s.childWithin dir name) := by
  unfold NfsServer.childWithin
  split
  · exact .inl rfl
  · simp only
    split
    · rename_i h
      exact .inr ⟨h, QDir.cleanPath_cleanPath _⟩
    · exact .inl rfl

theorem Contained.childHandle (h : Contained s) {dir name : QString}
    (hc : s.childWithin dir name ≠ []) : Contained (s.fileHandle (s.childWithin dir name)).2 := by
  obtain ⟨hin, hclean⟩ := (childWithin_inside s dir name).resolve_left hc
  exact h.fileHandle (by rw [hclean]; exact hin)

def MintsChild (s t : NfsServer) : Prop :=
  t = s ∨ ∃ dir name, s.childWithin dir name ≠ [] ∧
    t = (s.fileHandle (s.childWithin dir name)).2

def mintListed (fs : σ) (F : FileSystem σ) (a : ReaddirArgs) (s : NfsServer) : NfsServer :=
  (window (entries F fs a.path) a.cookie.toNat).foldl
    (fun s name => (s.fileHandle (QDir.filePath a.path name)).2) s

section Procedures

variable (s) (fs : σ) (w : XdrWriter) (r : XdrReader)

theorem lookup_server : MintsChild s (lookup F s fs w r).server := by
  simp only [lookup]
  split
  · rename_i h
    simp only [Bool.and_eq_true] at h
    refine .inr ⟨_, _, fun hnil => ?_, rfl⟩
    rw [hnil] at h
    exact absurd h.2 (by simp [nfsStat])
  · exact .inl rfl

theorem create_server (hF : F.Lawful) : MintsChild s (create F s fs w r).server := by
  simp only [create]
  split
  · rename_i ho
    refine .inr ⟨_, _, fun hnil => ?_, rfl⟩
    rw [hnil, hF.openWrite_nil] at ho
    exact absurd ho (by simp)
  · exact .inl rfl

theorem mkdir_server (hF : F.Lawful) : MintsChild s (mkdir F s fs w r).server := by
  simp only [mkdir]
  split
  · rename_i ho
    refine .inr ⟨_, _, fun hnil => ?_, rfl⟩
    rw [hnil, hF.mkdir_nil] at ho
    exact absurd ho (by simp)
  · exact .inl rfl

theorem removeEntry_server (op : σ → QString → Option σ) :
    (removeEntry F s fs w r op).server = s := by
  simp only [removeEntry]
  split <;> rfl

theorem getattr_server : (getattr F s fs w r).server = s := by
  simp only [getattr]
  split <;> rfl

theorem read_server : (read F s fs w r).server = s := by
  simp only [read]
  split <;> rfl

theorem write_server : (write F s fs w r).server = s := by
  simp only [write]
  split <;> rfl

theorem rename_server : (rename F s fs w r).server = s := by
  unfold rename
  extract_lets source target result
  split <;> rfl

theorem readdirplus_server :
    (readdir F s fs w r true).server = mintListed fs F (readReaddir s r) s := by
  rw [readdir_eq]
  exact putEntries_server _ _ _ s

theorem nfsProcedure_server (hF : F.Lawful) (proc : UInt32) :
    MintsChild s (nfsProcedure F s fs w r proc).server ∨
      (proc = 17 ∧ (nfsProcedure F s fs w r proc).server = mintListed fs F (readReaddir s r) s) := by
  unfold nfsProcedure
  split
  · exact .inl (.inl rfl)
  · exact .inl (.inl (getattr_server s fs w r))
  · exact .inl (.inl rfl)
  · exact .inl (lookup_server s fs w r)
  · exact .inl (.inl rfl)
  · exact .inl (.inl rfl)
  · exact .inl (.inl (read_server s fs w r))
  · exact .inl (.inl (write_server s fs w r))
  · exact .inl (create_server s fs w r hF)
  · exact .inl (mkdir_server s fs w r hF)
  · exact .inl (.inl (removeEntry_server s fs w r F.remove))
  · exact .inl (.inl (removeEntry_server s fs w r F.rmdir))
  · exact .inl (.inl (rename_server s fs w r))
  · refine .inl (.inl ?_)
    rw [readdir_eq]
    exact putEntries_server_readdir _ _ _ s
  · exact .inr ⟨rfl, readdirplus_server s fs w r⟩
  · exact .inl (.inl rfl)
  · exact .inl (.inl rfl)
  · exact .inl (.inl rfl)
  · exact .inl (.inl rfl)
  · exact .inl (.inl rfl)

end Procedures

def ListsInside (exportDir path name : QString) : Prop :=
  path ≠ [] ∧ QDir.isAbsolutePath name = false ∧
    (path = exportDir → name = ['.'] ∨
      (name ≠ ['.', '.'] ∧ exportDir ≠ ['/'] ∧ exportDir ≠ ['.']) ∨
      (name = ['.', '.'] ∧ exportDir = ['/']))

instance (exportDir path name : QString) : Decidable (ListsInside exportDir path name) :=
  inferInstanceAs (Decidable (_ ∧ _ ∧ (_ → _)))

def SafeListing (F : FileSystem σ) (s : NfsServer) (fs : σ) (request : QByteArray) : Prop :=
  ∀ call ∈ acceptCall request, call.1.prog = PROG_NFS → call.1.vers = 3 → call.1.proc = 17 →
    ∀ name ∈ window (entries F fs (readReaddir s call.2).path) (readReaddir s call.2).cookie.toNat,
      ListsInside s.exportDir (readReaddir s call.2).path name

instance (s : NfsServer) (fs : σ) (request : QByteArray) : Decidable (SafeListing F s fs request) :=
  inferInstanceAs (Decidable (∀ call ∈ acceptCall request, _ → _ → _ → ∀ name ∈ _, _))

theorem Contained.mintListed (h : Contained s) (hF : F.Lawful) (fs : σ) (a : ReaddirArgs)
    (ha : QDir.Inside s.exportDir a.path ∧ QDir.cleanPath a.path = a.path)
    (hn : ∀ name ∈ window (entries F fs a.path) a.cookie.toNat,
      ListsInside s.exportDir a.path name) :
    Contained (mintListed fs F a s) ∧ (mintListed fs F a s).exportDir = s.exportDir := by
  have hname : ∀ name ∈ window (entries F fs a.path) a.cookie.toNat, name ≠ [] ∧ '/' ∉ name :=
    fun name hm => hF.entryList_name fs _ name (List.mem_of_mem_drop (List.mem_of_mem_take hm))
  unfold Nfs.mintListed
  generalize window (entries F fs a.path) a.cookie.toNat = names at hn hname
  induction names generalizing s with
  | nil => exact ⟨h, rfl⟩
  | cons name names ih =>
    obtain ⟨hp, habs, hroot⟩ := hn name List.mem_cons_self
    obtain ⟨hne, hslash⟩ := hname name List.mem_cons_self
    have hin := QDir.inside_cleanPath_filePath hp ha.2 ha.1 hne hslash habs hroot
    have he := fileHandle_exportDir (s := s) (QDir.filePath a.path name)
    rw [List.foldl_cons, ← he]
    exact ih (h.fileHandle hin) (he.symm ▸ ha) (fun n hm => he.symm ▸ hn n (List.mem_cons_of_mem _ hm))
      fun n hm => hname n (List.mem_cons_of_mem _ hm)

theorem mountProcedure_server (fs : σ) (w : XdrWriter) (proc : UInt32) :
    (mountProcedure s fs w proc).server = s ∨
      (mountProcedure s fs w proc).server = (s.fileHandle s.exportDir).2 := by
  unfold mountProcedure
  split
  · exact .inl rfl
  · exact .inr rfl
  · exact .inl rfl
  · exact .inl rfl
  · exact .inl rfl

theorem portmapProcedure_server (fs : σ) (w : XdrWriter) (proc : UInt32) :
    (portmapProcedure s fs w proc).server = s := by
  unfold portmapProcedure
  split <;> rfl

theorem MintsChild.contained {t : NfsServer} (h : MintsChild s t) (hs : Contained s) :
    Contained t ∧ t.exportDir = s.exportDir := by
  rcases h with rfl | ⟨dir, name, hne, rfl⟩
  · exact ⟨hs, rfl⟩
  · exact ⟨hs.childHandle hne, fileHandle_exportDir _⟩

theorem Contained.handleDatagram (hs : Contained s) (hF : F.Lawful) (fs : σ) (request : QByteArray)
    (hl : SafeListing F s fs request) :
    Contained (handleDatagram F s fs request).server ∧
      (handleDatagram F s fs request).server.exportDir = s.exportDir := by
  unfold Nfs.handleDatagram
  split
  · exact ⟨hs, rfl⟩
  · rename_i call r hcall
    simp only
    split
    · rw [portmapProcedure_server]
      exact ⟨hs, rfl⟩
    · split
      · rcases mountProcedure_server (s := s) fs (putReplyHeader ⟨[]⟩ call.xid) call.proc with h | h
        · rw [h]
          exact ⟨hs, rfl⟩
        · rw [h]
          exact ⟨hs.fileHandle (.inl hs.clean), fileHandle_exportDir _⟩
      · split
        · rename_i hnfs
          rcases nfsProcedure_server s fs (putReplyHeader ⟨[]⟩ call.xid) r hF call.proc with
            h | ⟨hproc, h⟩
          · exact h.contained hs
          · rw [h]
            have hnames := hl (call, r) hcall hnfs.1 hnfs.2 hproc
            rcases hs.pathForHandle (r.opaqueVar).1 with hp | hp
            · have hw : window (entries F fs (readReaddir s r).path)
                  (readReaddir s r).cookie.toNat = [] := by
                apply List.eq_nil_iff_forall_not_mem.mpr
                intro name hm
                exact (hnames name hm).1 hp
              rw [Nfs.mintListed, hw]
              exact ⟨hs, rfl⟩
            · exact hs.mintListed hF fs _ hp hnames
        · exact ⟨hs, rfl⟩

theorem Served.contained (hF : F.Lawful) {exportDir : QString} {port : UInt16}
    (h : Served F (SafeListing F) exportDir port s) :
    Contained s ∧ s.exportDir = QDir.cleanPath exportDir := by
  induction h with
  | start => exact ⟨.start exportDir port, fileHandle_exportDir _⟩
  | step fs request _ hl ih =>
    obtain ⟨hc, he⟩ := ih.1.handleDatagram hF fs request hl
    exact ⟨hc, he.trans ih.2⟩

def sharedStore : PathStore :=
  .ofList [("/srv".toList, .dir 0o755), ("/srv/a".toList, .dir 0o755),
    ("/srv/a/f".toList, .file 0o644 [1, 2, 3])]

def handleArg (id : UInt32) : QByteArray := BigEndian.bytes32 32 ++ NfsServer.handleBytes id

def lookupRequest : QByteArray :=
  rpcCall 1 PROG_NFS 3 3 (handleArg 1 ++ BigEndian.bytes32 1 ++ [97, 0, 0, 0])

def readdirplusRequest (id : UInt32) : QByteArray :=
  rpcCall 2 PROG_NFS 3 17 (handleArg id ++ List.replicate 16 0 ++
    [512, 8192].flatMap BigEndian.bytes32)

def serve (s : NfsServer) (request : QByteArray) : NfsServer :=
  (handleDatagram PathStore.fileSystem s sharedStore request).server

end Nfs
