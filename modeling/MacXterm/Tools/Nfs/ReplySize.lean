import Mathlib.Algebra.GroupWithZero.Nat
import MacXterm.Tools.Nfs.Identity
import MacXterm.Tools.Nfs.Reading

namespace Nfs

open Qt Xdr

variable {σ : Type} {F : FileSystem σ}

-- What a UDP datagram over IPv4 holds: 65535 less the headers of IP and UDP.
def maxPayload : Nat := 65507

def opaqueSize (n : Nat) : Nat := 4 + (n + padding n)

section Sizes

variable (F) (fs : σ)

def attrSize (path : QString) : Nat := if (nfsStat F fs path).isSome then 88 else 4

def entrySize (plus : Bool) (path name : QString) : Nat :=
  20 + opaqueSize (toUtf8 name).length +
    if plus then attrSize F fs (QDir.filePath path name) + 40 else 0

def pageSize (plus : Bool) (path : QString) (names : List QString) : Nat :=
  (names.map (entrySize F fs plus path)).sum

theorem attrSize_le (path : QString) : attrSize F fs path ≤ 88 := by
  unfold attrSize
  split <;> decide

end Sizes

-- What has been written since w₀: so many bytes, in whole words.
structure Grown (w₀ w : XdrWriter) (n : Nat) : Prop where
  begins : w₀.data <+: w.data
  length : w.data.length = w₀.data.length + n
  aligned : w.data.length % 4 = 0

namespace Grown

variable {w₀ w : XdrWriter} {n : Nat}

theorem refl (h : w.data.length % 4 = 0) : Grown w w 0 := ⟨List.prefix_refl _, rfl, h⟩

theorem append (h : Grown w₀ w n) (b : QByteArray) (hb : b.length % 4 = 0) :
    Grown w₀ ⟨w.data ++ b⟩ (n + b.length) := by
  refine ⟨h.begins.trans (List.prefix_append _ _), ?_, ?_⟩
  · rw [List.length_append, h.length, Nat.add_assoc]
  · rw [List.length_append]
    have haligned := h.aligned
    omega

theorem u32 (h : Grown w₀ w n) (v : UInt32) : Grown w₀ (w.u32 v) (n + 4) :=
  h.append (BigEndian.bytes32 v) (by rw [BigEndian.length_bytes32])

theorem u64 (h : Grown w₀ w n) (v : UInt64) : Grown w₀ (w.u64 v) (n + 8) := (h.u32 _).u32 _

theorem opaqueFixed (h : Grown w₀ w n) (b : QByteArray) :
    Grown w₀ (w.opaqueFixed b) (n + (b.length + padding b.length)) := by
  have hwords : (b ++ List.replicate (padding b.length) 0).length % 4 = 0 := by
    rw [List.length_append, List.length_replicate, padding]
    omega
  have happend := h.append (b ++ List.replicate (padding b.length) 0) hwords
  rw [List.length_append, List.length_replicate, ← XdrWriter.opaqueFixed_data h.aligned] at happend
  exact happend

theorem opaqueVar (h : Grown w₀ w n) (b : QByteArray) :
    Grown w₀ (w.opaqueVar b) (n + opaqueSize b.length) := by
  rw [opaqueSize, ← Nat.add_assoc]
  exact (h.u32 _).opaqueFixed b

theorem str (h : Grown w₀ w n) (t : QString) :
    Grown w₀ (w.str t) (n + opaqueSize (toUtf8 t).length) := h.opaqueVar (toUtf8 t)

theorem putFattr3 (h : Grown w₀ w n) (st : Stat) : Grown w₀ (putFattr3 w st) (n + 84) := by
  unfold Nfs.putFattr3
  exact ((((((((((((((((h.u32 _).u32 _).u32 _).u32 _).u32 _).u64 _).u64 _).u32 _).u32 _).u64
    _).u64 _).u32 _).u32 _).u32 _).u32 _).u32 _).u32 _

theorem putPostOpAttr (h : Grown w₀ w n) (fs : σ) (path : QString) :
    Grown w₀ (putPostOpAttr F fs w path) (n + attrSize F fs path) := by
  unfold Nfs.putPostOpAttr attrSize
  cases nfsStat F fs path with
  | none => exact h.u32 0
  | some st => exact (h.u32 1).putFattr3 st

theorem putWccData (h : Grown w₀ w n) (fs : σ) (path : QString) :
    Grown w₀ (putWccData F fs w path) (n + 4 + attrSize F fs path) := (h.u32 0).putPostOpAttr fs path

end Grown

-- Every handle that the server has given out has the 32 bytes of fileHandle.
def Handles (s : NfsServer) : Prop := ∀ p fh, s.pathToHandle.find p = some fh → fh.length = 32

section Handles

variable {s : NfsServer}

theorem Handles.fileHandle (h : Handles s) (p : QString) :
    (s.fileHandle p).1.length = 32 ∧ Handles (s.fileHandle p).2 := by
  simp only [NfsServer.fileHandle]
  split
  · rename_i hknown
    obtain ⟨fh, hfind⟩ := Option.isSome_iff_exists.mp hknown
    have hvalue : s.pathToHandle.value (QDir.cleanPath p) [] = fh := by
      rw [QHash.value, hfind, Option.getD_some]
    exact ⟨hvalue ▸ h _ _ hfind, h⟩
  · refine ⟨rfl, fun q fh hq => ?_⟩
    rw [QHash.find_insert] at hq
    split at hq
    · rw [← Option.some.inj hq]
      rfl
    · exact h q fh hq

theorem Handles.mintAll (h : Handles s) (paths : List QString) : Handles (mintAll s paths) := by
  induction paths generalizing s with
  | nil => exact h
  | cons p paths ih => exact ih (h.fileHandle p).2

theorem handles_served (hF : F.Lawful) {exportDir : QString} {port : UInt16}
    {allowed : NfsServer → σ → QByteArray → Prop} (hs : Served F allowed exportDir port s) :
    Handles s := by
  induction hs with
  | start =>
    have hempty : Handles ⟨QDir.cleanPath exportDir, port, [], [], 1⟩ := by
      intro p fh hfind
      cases hfind
    exact (hempty.fileHandle _).2
  | step fs request _ _ ih =>
    obtain ⟨paths, -, heq⟩ := handleDatagram_server hF fs request
    rw [heq]
    exact ih.mintAll paths

end Handles

-- The replies with no more data than attributes and handles.
def Short (w : XdrWriter) (reply : QByteArray) : Prop := ∃ w' n, reply = w'.data ∧ Grown w w' n ∧ n ≤ 224

theorem Grown.short {w w' : XdrWriter} {n : Nat} (h : Grown w w' n) (hn : n ≤ 224) :
    Short w w'.data := ⟨w', n, rfl, h, hn⟩

theorem verified_short {w w' : XdrWriter} {n : Nat} (h : Grown w w' n) (hn : n ≤ 200) :
    Short w (w'.opaqueFixed (List.replicate 8 0)).data := by
  have hverf := h.opaqueFixed (List.replicate 8 0)
  simp only [List.length_replicate, padding, Nat.reduceMod, Nat.reduceSub, Nat.add_zero] at hverf
  exact hverf.short (by omega)

theorem putEntries_grown (fs : σ) {s : NfsServer} {w w' : XdrWriter} {n : Nat}
    (hg : Grown w w' n) (hs : Handles s) (plus : Bool) (path : QString) (names : List QString)
    (idx : Nat) :
    Grown w (putEntries F fs plus path names idx w' s).1 (n + pageSize F fs plus path names) := by
  induction names generalizing idx w' n s with
  | nil => exact hg
  | cons name names ih =>
    rw [pageSize, List.map_cons, List.sum_cons, ← Nat.add_assoc]
    have hentry := (((hg.u32 1).u64 (fileid F fs path (idx + 1) name)).str name).u64
      (.ofNat (idx + 1))
    cases plus with
    | false =>
      have hsize : n + 4 + 8 + opaqueSize (toUtf8 name).length + 8 =
          n + entrySize F fs false path name := by
        simp only [entrySize, Bool.false_eq_true, if_false]
        omega
      exact ih (hsize ▸ hentry) hs (idx + 1)
    | true =>
      obtain ⟨hfh, hs'⟩ := hs.fileHandle (QDir.filePath path name)
      have hplus := ((hentry.putPostOpAttr (F := F) fs (QDir.filePath path name)).u32 1).opaqueVar
        (s.fileHandle (QDir.filePath path name)).1
      have hsize : n + 4 + 8 + opaqueSize (toUtf8 name).length + 8 +
          attrSize F fs (QDir.filePath path name) + 4 +
          opaqueSize (s.fileHandle (QDir.filePath path name)).1.length =
          n + entrySize F fs true path name := by
        have hthirtysix : opaqueSize 32 = 36 := rfl
        simp only [entrySize, if_true, hfh, hthirtysix]
        omega
      exact ih (hsize ▸ hplus) hs' (idx + 1)

section Procedures

variable {s : NfsServer} (fs : σ) {w : XdrWriter} (r : XdrReader) (hw : w.data.length % 4 = 0)

include hw

theorem postOpAttr_short (v : UInt32) (path : QString) :
    Short w (putPostOpAttr F fs (w.u32 v) path).data := by
  have hattr := attrSize_le F fs path
  exact (((Grown.refl hw).u32 v).putPostOpAttr fs path).short (by omega)

theorem wccData_short (v : UInt32) (path : QString) :
    Short w (putWccData F fs (w.u32 v) path).data := by
  have hattr := attrSize_le F fs path
  exact (((Grown.refl hw).u32 v).putWccData fs path).short (by omega)

theorem getattr_short : Short w (getattr F s fs w r).reply := by
  simp only [getattr]
  split
  · rename_i st _ _
    exact (((Grown.refl hw).u32 NFS3_OK).putFattr3 st).short (by omega)
  · exact ((Grown.refl hw).u32 NFS3ERR_NOENT).short (by omega)

theorem lookup_short (hs : Handles s) : Short w (lookup F s fs w r).reply := by
  simp only [lookup]
  generalize s.childWithin (readName s r).dir (readName s r).name = child
  generalize (readName s r).dir = dir
  obtain ⟨hfh, -⟩ := hs.fileHandle child
  generalize s.fileHandle child = minted at hfh ⊢
  split
  · have hattr := attrSize_le F fs child
    have hattr' := attrSize_le F fs dir
    have hsize : opaqueSize minted.1.length = 36 := by rw [hfh]; rfl
    exact (((((Grown.refl hw).u32 NFS3_OK).opaqueVar minted.1).putPostOpAttr fs
      child).putPostOpAttr fs dir).short (by omega)
  · exact postOpAttr_short fs hw _ _

theorem access_short : Short w (access F s fs w r).reply := by
  simp only [access]
  generalize s.pathForHandle r.opaqueVar.1 = path
  have hattr := attrSize_le F fs path
  exact ((((Grown.refl hw).u32 NFS3_OK).putPostOpAttr fs _).u32 _).short (by omega)

theorem fsstat_short : Short w (fsstat F s fs w r).reply := by
  simp only [fsstat]
  generalize s.pathForHandle r.opaqueVar.1 = path
  have hattr := attrSize_le F fs path
  exact ((((((((((Grown.refl hw).u32 NFS3_OK).putPostOpAttr fs path).u64 (bit 40)).u64 (bit 39)).u64
    (bit 39)).u64 (bit 20)).u64 (bit 19)).u64 (bit 19)).u32 0).short (by omega)

theorem fsinfo_short : Short w (fsinfo F s fs w r).reply := by
  simp only [fsinfo]
  generalize s.pathForHandle r.opaqueVar.1 = path
  have hattr := attrSize_le F fs path
  exact (((((((((((((Grown.refl hw).u32 NFS3_OK).putPostOpAttr fs path).u32 65536).u32 65536).u32
    4096).u32 65536).u32 65536).u32 4096).u32 4096).u64 (bit 40)).u32 1).u32 0).u32 0x1B
    |>.short (by omega)

theorem pathconf_short : Short w (pathconf F s fs w r).reply := by
  simp only [pathconf]
  generalize s.pathForHandle r.opaqueVar.1 = path
  have hattr := attrSize_le F fs path
  exact ((((((((Grown.refl hw).u32 NFS3_OK).putPostOpAttr fs path).u32 32000).u32 255).u32 0).u32
    1).u32 1).u32 0 |>.short (by omega)

theorem setattr_short : Short w (setattr F s fs w r).reply := by
  simp only [setattr]
  exact wccData_short _ hw _ _

theorem write_short : Short w (write F s fs w r).reply := by
  simp only [write]
  split
  · rename_i gs wrote _ _
    have hattr := attrSize_le F gs (readWrite s r).path
    exact verified_short (((((Grown.refl hw).u32 NFS3_OK).putWccData gs _).u32 _).u32 2)
      (by omega)
  · simp only
    exact wccData_short fs hw _ _

theorem putCreated_short (hs : Handles s) (dir child : QString) :
    Short w (putCreated F s fs w dir child).reply := by
  simp only [putCreated]
  obtain ⟨hfh, -⟩ := hs.fileHandle child
  generalize s.fileHandle child = minted at hfh ⊢
  have hattr := attrSize_le F fs child
  have hattr' := attrSize_le F fs dir
  have hsize : opaqueSize minted.1.length = 36 := by rw [hfh]; rfl
  exact ((((((Grown.refl hw).u32 NFS3_OK).u32 1).opaqueVar minted.1).putPostOpAttr fs
    child).putWccData fs dir).short (by omega)

theorem create_short (hs : Handles s) : Short w (create F s fs w r).reply := by
  simp only [create]
  split
  · exact putCreated_short _ hw hs _ _
  · simp only
    exact wccData_short fs hw _ _

theorem mkdir_short (hs : Handles s) : Short w (mkdir F s fs w r).reply := by
  simp only [mkdir]
  split
  · exact putCreated_short _ hw hs _ _
  · simp only
    exact wccData_short fs hw _ _

theorem removeEntry_short (op : σ → QString → Option σ) :
    Short w (removeEntry F s fs w r op).reply := by
  simp only [removeEntry]
  split
  · exact wccData_short _ hw _ _
  · simp only
    exact wccData_short fs hw _ _

theorem wccData_twice_short (v : UInt32) (p q : QString) :
    Short w (putWccData F fs (putWccData F fs (w.u32 v) p) q).data := by
  have hattr := attrSize_le F fs p
  have hattr' := attrSize_le F fs q
  exact ((((Grown.refl hw).u32 v).putWccData fs p).putWccData fs q).short (by omega)

theorem rename_short : Short w (rename F s fs w r).reply := by
  unfold rename
  extract_lets source target result
  clear_value source target result
  split
  · exact wccData_twice_short _ hw _ _ _
  · exact wccData_twice_short _ hw _ _ _

theorem commit_short : Short w (commit F s fs w r).reply := by
  simp only [commit]
  generalize s.pathForHandle r.opaqueVar.1 = path
  have hattr := attrSize_le F fs path
  exact verified_short (((Grown.refl hw).u32 NFS3_OK).putWccData fs path) (by omega)

theorem readlink_grown :
    ∃ w', (readlink F s fs w r).reply = w'.data ∧
      Grown w w' (4 + attrSize F fs (s.pathForHandle r.opaqueVar.1) +
        opaqueSize (toUtf8 (F.symLinkTarget fs (s.pathForHandle r.opaqueVar.1))).length) := by
  simp only [readlink]
  generalize s.pathForHandle r.opaqueVar.1 = path
  have hgrown := (((Grown.refl hw).u32 NFS3_OK).putPostOpAttr (F := F) fs path).opaqueVar
    (toUtf8 (F.symLinkTarget fs path))
  rw [Nat.zero_add] at hgrown
  exact ⟨_, rfl, hgrown⟩

theorem readdir_grown (hs : Handles s) (plus : Bool) :
    ∃ w', (readdir F s fs w r plus).reply = w'.data ∧
      Grown w w' (20 + attrSize F fs (readReaddir s r).path +
        pageSize F fs plus (readReaddir s r).path
          (window (entries F fs (readReaddir s r).path) (readReaddir s r).cookie.toNat)) := by
  rw [readdir_eq]
  generalize readReaddir s r = a
  have hhead := (((Grown.refl hw).u32 NFS3_OK).putPostOpAttr (F := F) fs a.path).opaqueFixed
    (List.replicate 8 0)
  have hpage := putEntries_grown (F := F) fs hhead hs plus a.path
    (window (entries F fs a.path) a.cookie.toNat) a.cookie.toNat
  have hgrown := (hpage.u32 0).u32 (if (entries F fs a.path).length ≤ a.cookie.toNat + 64 then 1
    else 0)
  refine ⟨_, rfl, ?_⟩
  have hverf : (List.replicate 8 (0 : UInt8)).length + padding (List.replicate 8 (0 : UInt8)).length
    = 8 := rfl
  rw [hverf] at hgrown
  have hsize : ∀ p, 0 + 4 + attrSize F fs a.path + 8 + p + 4 + 4 = 20 + attrSize F fs a.path + p := by
    intro p
    omega
  rw [hsize] at hgrown
  exact hgrown

theorem read_grown {content : QByteArray} (hok : (readRead s r).ok = true)
    (hopen : F.openRead fs (readRead s r).path = some content) :
    ∃ w', (read F s fs w r).reply = w'.data ∧
      Grown w w' (12 + attrSize F fs (readRead s r).path + opaqueSize
        (min (min (readRead s r).count.toNat 65536)
          (content.length - seek (readRead s r).offset))) := by
  rw [read_eq]
  generalize readRead s r = a at hok hopen ⊢
  simp only [hok, hopen]
  generalize hdata : (content.drop (seek a.offset)).take (min a.count.toNat 65536) = data
  have hlength : data.length = min (min a.count.toNat 65536) (content.length - seek a.offset) := by
    rw [← hdata, List.length_take, List.length_drop]
  rw [← hlength]
  have hgrown := (((((Grown.refl hw).u32 NFS3_OK).putPostOpAttr (F := F) fs a.path).u32
    (.ofNat data.length)).u32
      (if content.length ≤ seek a.offset + data.length then 1 else 0)).opaqueVar data
  have hsize : 0 + 4 + attrSize F fs a.path + 4 + 4 = 12 + attrSize F fs a.path := by omega
  rw [hsize] at hgrown
  exact ⟨_, rfl, hgrown⟩

theorem read_refused_short (h : ∀ content, (readRead s r).ok = true →
    F.openRead fs (readRead s r).path ≠ some content) : Short w (read F s fs w r).reply := by
  rw [read_eq]
  generalize readRead s r = a at h ⊢
  simp only
  exact postOpAttr_short fs hw _ _

end Procedures

-- The reply to a call that returns what a file, a link or a directory holds.
structure Fits (F : FileSystem σ) (s : NfsServer) (fs : σ) (proc : UInt32) (r : XdrReader) :
    Prop where
  readlink : proc = 5 → let path := s.pathForHandle r.opaqueVar.1
    28 + attrSize F fs path + opaqueSize (toUtf8 (F.symLinkTarget fs path)).length ≤ maxPayload
  read : proc = 6 → let a := readRead s r
    ∀ content, a.ok = true → F.openRead fs a.path = some content →
      36 + attrSize F fs a.path + opaqueSize
        (min (min a.count.toNat 65536) (content.length - seek a.offset)) ≤ maxPayload
  readdir : ∀ plus : Bool, proc = (if plus then 17 else 16) → let a := readReaddir s r
    44 + attrSize F fs a.path + pageSize F fs plus a.path
      (window (entries F fs a.path) a.cookie.toNat) ≤ maxPayload

def ReplyFits (F : FileSystem σ) (s : NfsServer) (fs : σ) (request : QByteArray) : Prop :=
  ∀ proc r, nfsCall request = some (proc, r) → Fits F s fs proc r

section Replies

variable {s : NfsServer} {fs : σ} {w : XdrWriter}

theorem Short.le (hw : w.data.length = 24) {reply : QByteArray} (h : Short w reply) :
    reply.length ≤ maxPayload := by
  obtain ⟨w', n, rfl, hgrown, hn⟩ := h
  rw [hgrown.length, hw, maxPayload]
  omega

theorem fits_other {proc : UInt32} (r : XdrReader) (h5 : proc ≠ 5) (h6 : proc ≠ 6)
    (h16 : proc ≠ 16) (h17 : proc ≠ 17) : Fits F s fs proc r := by
  refine ⟨fun h => absurd h h5, fun h => absurd h h6, fun plus h => ?_⟩
  cases plus with
  | false => exact absurd h h16
  | true => exact absurd h h17

theorem readlink_fits_iff (hw : w.data.length = 24) (r : XdrReader) :
    (Nfs.readlink F s fs w r).reply.length ≤ maxPayload ↔ Fits F s fs 5 r := by
  obtain ⟨w', hreply, hgrown⟩ := readlink_grown (F := F) (s := s) fs r (by rw [hw])
  have hsize : (Nfs.readlink F s fs w r).reply.length = 28 + attrSize F fs
      (s.pathForHandle r.opaqueVar.1) +
        opaqueSize (toUtf8 (F.symLinkTarget fs (s.pathForHandle r.opaqueVar.1))).length := by
    rw [hreply, hgrown.length, hw]
    omega
  rw [hsize]
  refine ⟨fun h => ⟨fun _ => h, fun h6 => absurd h6 (by decide), ?_⟩, fun h => h.readlink rfl⟩
  intro plus h16
  cases plus <;> exact absurd h16 (by decide)

theorem read_fits_iff (hw : w.data.length = 24) (r : XdrReader) :
    (Nfs.read F s fs w r).reply.length ≤ maxPayload ↔ Fits F s fs 6 r := by
  have hother : ∀ plus : Bool, (6 : UInt32) ≠ if plus then 17 else 16 := by decide
  by_cases hopen : ∃ content, (readRead s r).ok = true ∧
      F.openRead fs (readRead s r).path = some content
  · obtain ⟨content, hok, hcontent⟩ := hopen
    obtain ⟨w', hreply, hgrown⟩ := read_grown (F := F) fs r (by rw [hw]) hok hcontent
    have hsize : (Nfs.read F s fs w r).reply.length = 36 + attrSize F fs (readRead s r).path +
        opaqueSize (min (min (readRead s r).count.toNat 65536)
          (content.length - seek (readRead s r).offset)) := by
      rw [hreply, hgrown.length, hw]
      omega
    rw [hsize]
    refine ⟨fun h => ⟨fun h5 => absurd h5 (by decide), fun _ content' _ hcontent' => ?_,
      fun plus hp => absurd hp (hother plus)⟩, fun h => h.read rfl content hok hcontent⟩
    rw [hcontent] at hcontent'
    obtain rfl := Option.some.inj hcontent'
    exact h
  · have hnone : ∀ content, (readRead s r).ok = true →
        F.openRead fs (readRead s r).path ≠ some content :=
      fun content hok hcontent => hopen ⟨content, hok, hcontent⟩
    refine iff_of_true ((read_refused_short fs r (by rw [hw]) hnone).le hw) ?_
    exact ⟨fun h5 => absurd h5 (by decide),
      fun _ content hok hcontent => absurd hcontent (hnone content hok),
      fun plus hp => absurd hp (hother plus)⟩

theorem readdir_fits_iff (hw : w.data.length = 24) (hs : Handles s) (plus : Bool)
    (r : XdrReader) :
    (Nfs.readdir F s fs w r plus).reply.length ≤ maxPayload ↔
      Fits F s fs (if plus then 17 else 16) r := by
  obtain ⟨w', hreply, hgrown⟩ := readdir_grown (F := F) fs r (by rw [hw]) hs plus
  have hsize : (Nfs.readdir F s fs w r plus).reply.length =
      44 + attrSize F fs (readReaddir s r).path + pageSize F fs plus (readReaddir s r).path
        (window (entries F fs (readReaddir s r).path) (readReaddir s r).cookie.toNat) := by
    rw [hreply, hgrown.length, hw]
    omega
  rw [hsize]
  refine ⟨fun h => ⟨fun h5 => ?_, fun h6 => ?_, fun plus' hp => ?_⟩, fun h => h.readdir plus rfl⟩
  · cases plus <;> exact absurd h5 (by decide)
  · cases plus <;> exact absurd h6 (by decide)
  · have hplus : plus = plus' := by
      revert hp
      cases plus <;> cases plus' <;> decide
    subst hplus
    exact h

theorem nfsProcedure_fits_iff (hw : w.data.length = 24) (hs : Handles s) (proc : UInt32)
    (r : XdrReader) :
    (nfsProcedure F s fs w r proc).reply.length ≤ maxPayload ↔ Fits F s fs proc r := by
  have hwords : w.data.length % 4 = 0 := by rw [hw]
  have hshort {proc : UInt32} {reply : QByteArray} (h : Short w reply)
      (hproc : proc ≠ 5 ∧ proc ≠ 6 ∧ proc ≠ 16 ∧ proc ≠ 17) :
      reply.length ≤ maxPayload ↔ Fits F s fs proc r :=
    iff_of_true (h.le hw) (fits_other r hproc.1 hproc.2.1 hproc.2.2.1 hproc.2.2.2)
  unfold nfsProcedure
  split
  · exact hshort ((Grown.refl hwords).short (by omega)) (by decide)
  · exact hshort (getattr_short fs r hwords) (by decide)
  · exact hshort (setattr_short fs r hwords) (by decide)
  · exact hshort (lookup_short fs r hwords hs) (by decide)
  · exact hshort (access_short fs r hwords) (by decide)
  · exact readlink_fits_iff hw r
  · exact read_fits_iff hw r
  · exact hshort (write_short fs r hwords) (by decide)
  · exact hshort (create_short fs r hwords hs) (by decide)
  · exact hshort (mkdir_short fs r hwords hs) (by decide)
  · exact hshort (removeEntry_short fs r hwords F.remove) (by decide)
  · exact hshort (removeEntry_short fs r hwords F.rmdir) (by decide)
  · exact hshort (rename_short fs r hwords) (by decide)
  · exact readdir_fits_iff hw hs false r
  · exact readdir_fits_iff hw hs true r
  · exact hshort (fsstat_short fs r hwords) (by decide)
  · exact hshort (fsinfo_short fs r hwords) (by decide)
  · exact hshort (pathconf_short fs r hwords) (by decide)
  · exact hshort (commit_short fs r hwords) (by decide)
  · rename_i h0 h1 h2 h3 h4 h5 h6 h7 h8 h9 h12 h13 h14 h16 h17 h18 h19 h20 h21
    exact hshort (((Grown.refl hwords).u32 NFS3ERR_ACCES).short (by omega)) ⟨h5, h6, h16, h17⟩

theorem other_reply_le (hs : Handles s) {request : QByteArray} (h : nfsCall request = none) :
    (handleDatagram F s fs request).reply.length ≤ maxPayload := by
  unfold handleDatagram
  unfold nfsCall at h
  split
  · exact Nat.zero_le _
  · rename_i call r hcall
    rw [hcall] at h
    simp only at h ⊢
    have hheader : (putReplyHeader ⟨[]⟩ call.xid).data.length = 24 := rfl
    have hgrown := Grown.refl (w := putReplyHeader ⟨[]⟩ call.xid) (by rw [hheader])
    split
    · unfold portmapProcedure
      split
      · exact (hgrown.short (by omega)).le hheader
      · exact ((hgrown.u32 _).short (by omega)).le hheader
      · exact ((hgrown.u32 _).short (by omega)).le hheader
    · split
      · unfold mountProcedure
        obtain ⟨hfh, -⟩ := hs.fileHandle s.exportDir
        have hsize : opaqueSize (s.fileHandle s.exportDir).1.length = 36 := by rw [hfh]; rfl
        split
        · exact (hgrown.short (by omega)).le hheader
        · generalize s.fileHandle s.exportDir = minted at hsize ⊢
          exact (((((hgrown.u32 NFS3_OK).opaqueVar minted.1).u32 1).u32 0).short (by omega)).le
            hheader
        · exact ((hgrown.u32 _).short (by omega)).le hheader
        · exact ((hgrown.u32 _).short (by omega)).le hheader
        · exact ((hgrown.u32 _).short (by omega)).le hheader
      · split
        · rename_i hnfs
          rw [if_pos hnfs] at h
          exact absurd h (by simp)
        · exact Nat.zero_le _

theorem handleDatagram_fits_iff (hs : Handles s) (request : QByteArray) :
    (handleDatagram F s fs request).reply.length ≤ maxPayload ↔ ReplyFits F s fs request := by
  cases hcall : nfsCall request with
  | none =>
    refine iff_of_true (other_reply_le hs hcall) ?_
    intro proc r h
    exact absurd (hcall.symm.trans h) (by simp)
  | some pair =>
    obtain ⟨proc, r⟩ := pair
    obtain ⟨xid, heq⟩ := handleDatagram_eq (F := F) hcall
    rw [heq, nfsProcedure_fits_iff rfl hs]
    constructor
    · intro h proc' r' h'
      obtain ⟨rfl, rfl⟩ := Prod.mk.inj (Option.some.inj (hcall.symm.trans h'))
      exact h
    · intro h
      exact h proc r hcall

theorem pageSize_le {plus : Bool} {path : QString} {names : List QString} {n : Nat}
    (h : ∀ name ∈ names, entrySize F fs plus path name ≤ n) :
    pageSize F fs plus path names ≤ names.length * n := by
  induction names with
  | nil => exact Nat.zero_le _
  | cons name names ih =>
    have hname := h name List.mem_cons_self
    have hnames := ih fun m hm => h m (List.mem_cons_of_mem _ hm)
    rw [pageSize, List.map_cons, List.sum_cons, List.length_cons, Nat.succ_mul, Nat.add_comm]
    exact Nat.add_le_add hnames hname

-- A page of names as long as a file system allows is sent whole.
theorem page_fits {plus : Bool} {path : QString} {names : List QString}
    (hcount : names.length ≤ 64) (hnames : ∀ name ∈ names, (toUtf8 name).length ≤ 255) :
    44 + attrSize F fs path + pageSize F fs plus path names ≤ maxPayload := by
  have hentry : ∀ name ∈ names, entrySize F fs plus path name ≤ 408 := by
    intro name hname
    have hlength := hnames name hname
    have hattr := attrSize_le F fs (QDir.filePath path name)
    simp only [entrySize, opaqueSize, padding]
    split <;> omega
  have hpage := pageSize_le hentry
  have hattr := attrSize_le F fs path
  unfold maxPayload
  omega

end Replies

theorem reply_fits_iff (hF : F.Lawful) {allowed : NfsServer → σ → QByteArray → Prop}
    {exportDir : QString} {port : UInt16} {s : NfsServer}
    (hs : Served F allowed exportDir port s) (fs : σ) (request : QByteArray) :
    (handleDatagram F s fs request).reply.length ≤ maxPayload ↔ ReplyFits F s fs request :=
  handleDatagram_fits_iff (handles_served hF hs) request

def fileServer : NfsServer := serve (serve (.start "/srv" 2049) lookupRequest) lookupFileRequest

def fileStore (n : Nat) : PathStore :=
  .single "/srv/a/f" (.file 0o644 (List.replicate n 0))

def readRequest (offset : UInt32 × UInt32) (count : UInt32) : QByteArray :=
  rpcCall 9 PROG_NFS 3 6 (handleArg 3 ++ [offset.1, offset.2, count].flatMap BigEndian.bytes32)

theorem fileServer_served : Served PathStore.fileSystem (fun _ _ _ => True) "/srv" 2049 fileServer :=
  .step sharedStore lookupFileRequest (.step sharedStore lookupRequest .start trivial) trivial

theorem openRead_fileStore (n : Nat) :
    PathStore.fileSystem.openRead (fileStore n) "/srv/a/f" = some (List.replicate n 0) := by
  simp only [PathStore.fileSystem, fileStore, PathStore.find_single, if_true]

theorem nfsCall_readRequest :
    nfsCall (readRequest (0, 0) 65536) = some (6, ⟨readRequest (0, 0) 65536, 40⟩) := by
  decide +kernel

theorem readRead_readRequest :
    readRead fileServer ⟨readRequest (0, 0) 65536, 40⟩ = ⟨"/srv/a/f", 0, 65536, true⟩ := by
  decide +kernel

theorem readRequest_fits {n : Nat} (hn : n ≤ 65536) :
    ReplyFits PathStore.fileSystem fileServer (fileStore n) (readRequest (0, 0) 65536) ↔
      36 + attrSize PathStore.fileSystem (fileStore n) "/srv/a/f" + opaqueSize n ≤ maxPayload := by
  have hcount : min (min (65536 : UInt32).toNat 65536) ((List.replicate n (0 : UInt8)).length - 0) =
      n := by
    rw [List.length_replicate, Nat.sub_zero]
    exact Nat.min_eq_right hn
  constructor
  · intro h
    have hread := (h 6 _ nfsCall_readRequest).read rfl
    rw [readRead_readRequest] at hread
    have hsize := hread _ rfl (openRead_fileStore n)
    change 36 + _ + opaqueSize (min (min (65536 : UInt32).toNat 65536)
      ((List.replicate n (0 : UInt8)).length - 0)) ≤ _ at hsize
    rw [hcount] at hsize
    exact hsize
  · intro h proc r hcall
    obtain ⟨rfl, rfl⟩ := Prod.mk.inj (Option.some.inj (nfsCall_readRequest.symm.trans hcall))
    refine ⟨fun h5 => absurd h5 (by decide), ?_, fun plus hp => ?_⟩
    · rw [readRead_readRequest]
      intro _ a content hok hopen
      obtain rfl := Option.some.inj ((openRead_fileStore n).symm.trans hopen)
      change 36 + _ + opaqueSize (min (min (65536 : UInt32).toNat 65536)
        ((List.replicate n (0 : UInt8)).length - 0)) ≤ _
      rw [hcount]
      exact h
    · cases plus <;> exact absurd hp (by decide)

theorem reply_fits_small :
    (handleDatagram PathStore.fileSystem fileServer (fileStore 5)
      (readRequest (0, 0) 65536)).reply.length ≤ maxPayload := by
  refine (reply_fits_iff PathStore.fileSystem_lawful fileServer_served (fileStore 5)
    (readRequest (0, 0) 65536)).mpr ((readRequest_fits (by decide)).mpr ?_)
  have hattr := attrSize_le PathStore.fileSystem (fileStore 5) "/srv/a/f"
  have hdata : opaqueSize 5 = 12 := rfl
  unfold maxPayload
  omega

theorem full_read_oversized :
    maxPayload < (handleDatagram PathStore.fileSystem fileServer (fileStore 65536)
      (readRequest (0, 0) 65536)).reply.length := by
  refine Nat.lt_of_not_le fun hle => ?_
  have hfits := (handleDatagram_fits_iff (handles_served PathStore.fileSystem_lawful
    fileServer_served) _).mp hle
  have hsize := (readRequest_fits (Nat.le_refl _)).mp hfits
  have hdata : opaqueSize 65536 = 65540 := rfl
  unfold maxPayload at hsize
  omega

end Nfs
