import MacXterm.Tools.Nfs.ReplySize
import MacXterm.Tools.Nfs.Status

namespace Nfs

open Qt Xdr

variable {σ : Type} {E : Environment σ} {F : FileSystem σ}

-- The byte that a file has at i after data has been written at an offset: the new one, the old
-- one, or a zero between the old end and the offset.
def byteAfter (offset : Nat) (data before : QByteArray) (i : Nat) : Option UInt8 :=
  if offset ≤ i ∧ i < offset + data.length then data[i - offset]?
  else if i < before.length then before[i]?
  else if i < offset ∧ data ≠ [] then some 0
  else none

def Overwrites (offset : Nat) (data before after : QByteArray) : Prop :=
  ∀ i, after[i]? = byteAfter offset data before i

section Bytes

variable {offset : Nat} {data before : QByteArray}

theorem splice_overwrites (offset : Nat) (data before : QByteArray) :
    Overwrites offset data before (PathStore.splice before offset data) := by
  intro i
  by_cases hdata : data = []
  · rw [PathStore.splice, if_pos hdata, byteAfter, hdata]
    have hrange : ¬ (offset ≤ i ∧ i < offset + ([] : QByteArray).length) := by
      rw [List.length_nil]
      omega
    rw [if_neg hrange]
    split
    · rfl
    · rename_i hend
      rw [List.getElem?_eq_none (Nat.not_lt.mp hend)]
      simp
  · have hstart : ((before ++ List.replicate (offset - before.length) 0).take offset).length =
        offset := by
      simp only [List.length_take, List.length_append, List.length_replicate]
      omega
    rw [PathStore.splice, if_neg hdata, byteAfter, List.append_assoc]
    by_cases hlow : i < offset
    · rw [List.getElem?_append_left (by rw [hstart]; exact hlow), List.getElem?_take_of_lt hlow,
        if_neg (by omega)]
      split
      · rename_i hold
        rw [List.getElem?_append_left hold]
      · rename_i hgap
        rw [if_pos ⟨hlow, hdata⟩, List.getElem?_append_right (Nat.not_lt.mp hgap),
          List.getElem?_replicate, if_pos (by omega)]
    · rw [List.getElem?_append_right (by omega), hstart]
      by_cases hnew : i < offset + data.length
      · rw [if_pos ⟨by omega, hnew⟩, List.getElem?_append_left (by omega)]
      · rw [if_neg (by omega), List.getElem?_append_right (by omega), List.getElem?_drop]
        have hpos : offset + data.length + (i - offset - data.length) = i := by omega
        rw [hpos]
        split
        · rfl
        · rename_i hend
          rw [if_neg fun h => hlow h.1, List.getElem?_eq_none (Nat.not_lt.mp hend)]

theorem Overwrites.unique {after after' : QByteArray} (h : Overwrites offset data before after)
    (h' : Overwrites offset data before after') : after = after' :=
  List.ext_getElem? fun i => (h i).trans (h' i).symm

-- Some of the bytes may be left out where they stand in the file already.
theorem splice_take_iff {t : Nat} (ht : t ≤ data.length) :
    Overwrites offset data before (PathStore.splice before offset (data.take t)) ↔
      data.drop t <+: before.drop (offset + t) := by
  have htaken : (data.take t).length = t := by
    rw [List.length_take]
    omega
  constructor
  · intro h
    refine List.prefix_iff_getElem?.mpr fun i hi => ?_
    rw [List.length_drop] at hi
    have hbyte := (splice_overwrites offset (data.take t) before (offset + t + i)).symm.trans
      (h (offset + t + i))
    have hout : ¬ (offset ≤ offset + t + i ∧ offset + t + i < offset + t) := by omega
    have hin : offset ≤ offset + t + i ∧ offset + t + i < offset + data.length := by omega
    have hgap : ∀ P : Prop, ¬ (offset + t + i < offset ∧ P) := fun P hP => by omega
    have hindex : offset + t + i - offset = t + i := by omega
    have hdata : t + i < data.length := by omega
    rw [byteAfter, byteAfter, htaken, if_neg hout, if_pos hin, hindex, if_neg (hgap _),
      List.getElem?_eq_getElem hdata] at hbyte
    rw [List.getElem?_drop, List.getElem_drop]
    split at hbyte
    · exact hbyte
    · exact absurd hbyte (by simp)
  · intro hprefix i
    have h := List.prefix_iff_getElem?.mp hprefix
    rw [splice_overwrites offset (data.take t) before i, byteAfter, byteAfter, htaken]
    by_cases htail : offset + t ≤ i ∧ i < offset + data.length
    · have hbyte := h (i - (offset + t)) (by rw [List.length_drop]; omega)
      have hpos : offset + t + (i - (offset + t)) = i := by omega
      have hindex : t + (i - (offset + t)) = i - offset := by omega
      rw [List.getElem?_drop, List.getElem_drop, hpos] at hbyte
      have hend : i < before.length := by
        by_contra hend
        rw [List.getElem?_eq_none (Nat.not_lt.mp hend)] at hbyte
        exact absurd hbyte (by simp)
      rw [if_neg (by omega), if_pos hend, if_pos (by omega), hbyte,
        ← List.getElem?_eq_getElem, hindex]
    · by_cases hsame : t = data.length
      · rw [hsame, List.take_length]
      have hlen := hprefix.length_le
      rw [List.length_drop, List.length_drop] at hlen
      by_cases hhead : offset ≤ i ∧ i < offset + t
      · rw [if_pos hhead, if_pos (by omega), List.getElem?_take_of_lt (by omega)]
      · have hout : ¬ (offset ≤ i ∧ i < offset + data.length) := by omega
        rw [if_neg hhead, if_neg hout]
        by_cases hend : i < before.length
        · rw [if_pos hend, if_pos hend]
        · have hgap : ∀ P : Prop, ¬ (i < offset ∧ P) := fun P hP => by omega
          rw [if_neg hend, if_neg hend, if_neg (hgap _), if_neg (hgap _)]

end Bytes

section Reply

structure ReadReply where
  count : UInt32
  eof : Bool
  data : QByteArray
  ok : Bool
  deriving DecidableEq

def readReply (reply : QByteArray) : ReadReply :=
  let r := skipAttributes ⟨reply, 28⟩ 84
  let (count, _, r) := r.u32
  let (eof, _, r) := r.u32
  let (data, ok, _) := r.opaqueVar
  ⟨count, eof ≠ 0, data, ok⟩

theorem postOpAttr_written (fs : σ) (w : XdrWriter) (p : QString) :
    Written w (putPostOpAttr F fs w p) fun r r' => skipAttributes r 84 = r' := by
  obtain ⟨post, hdata, hpost⟩ := putPostOpAttr_data (F := F) w fs p
  refine ⟨post, hdata, ?_, fun r rest hr => ⟨_, rfl, ?_⟩⟩
  · rcases hpost with rfl | ⟨attributes, hlen, rfl⟩
    · rw [BigEndian.length_bytes32]
    · rw [List.length_append, BigEndian.length_bytes32, hlen]
  · rcases hpost with rfl | ⟨attributes, hlen, rfl⟩
    · exact skipAttributes_none 84 hr
    · rw [List.append_assoc] at hr
      rw [← hlen]
      exact skipAttributes_some hr

theorem readReply_written {w : XdrWriter} (hw : w.data.length = 28) (fs : σ) (p : QString)
    (count eof : UInt32) {data : QByteArray} (hlen : data.length < 2 ^ 32) :
    readReply ((((putPostOpAttr F fs w p).u32 count).u32 eof).opaqueVar data).data =
      ⟨count, eof ≠ 0, data, true⟩ := by
  have hhead := ((postOpAttr_written (F := F) fs w p).trans (.u32 _ count)).trans (.u32 _ eof)
  have hreply := hhead.trans (.opaqueVar (hhead.aligned (by rw [hw])) hlen)
  obtain ⟨r₄, ⟨r₃, ⟨r₂, ⟨r₁, h₁, h₂⟩, h₃⟩, h₄⟩, -⟩ := hreply.read
  rw [hw] at h₁
  simp only [readReply, h₁, h₂, h₃, h₄]

end Reply

structure ReadExact (F : FileSystem σ) (fs : σ) (path : QString) (offset : UInt64)
    (count : UInt32) (o : Outcome σ) : Prop where
  data : replyStatus o.reply = NFS3_OK → ∃ content, F.openRead fs path = some content ∧
    let size := min count.toNat 65536
    let bytes := (content.drop offset.toNat).take size
    readReply o.reply =
      ⟨.ofNat bytes.length, content.length ≤ offset.toNat + size, bytes, true⟩
  refused : 2 ^ 63 ≤ offset.toNat → replyStatus o.reply ≠ NFS3_OK
  kept : o.fs = fs

structure WriteExact (E : Environment σ) (fs : σ) (path : QString) (offset : UInt64)
    (data : QByteArray) (o : Outcome σ) : Prop where
  written : replyStatus o.reply = NFS3_OK →
    Overwrites offset.toNat data (E.content fs path) (E.content o.fs path)
  refused : 2 ^ 63 ≤ offset.toNat → replyStatus o.reply ≠ NFS3_OK ∧ o.fs = fs

-- What the system does not take of the data stands in the file already.
def Absorbs (E : Environment σ) (fs : σ) (path : QString) (offset : Nat) (data : QByteArray) :
    Prop :=
  let t := E.takes fs path offset data
  data.drop t <+: (E.content fs path).drop (offset + t)

section Exact

variable {s : NfsServer} {fs : σ} {r : XdrReader} {rest : QByteArray} {xid : UInt32}

theorem read_exact_iff {v}
    (hr : r.At ((Grammar.nfsFh3.pair (Grammar.uint64.pair Codec.word)).encode v ++ rest)) :
    ReadExact F fs (s.pathForHandle v.1.2.val) (hyper v.2.1) v.2.2
        (read F s fs (putReplyHeader ⟨[]⟩ xid) r) ↔
      F.openRead fs (s.pathForHandle v.1.2.val) = none ∨ (hyper v.2.1).toNat < 2 ^ 63 := by
  have hargs := readRead_encode s hr
  simp only [read_eq, hargs]
  generalize s.pathForHandle v.1.2.val = p
  generalize hyper v.2.1 = offset
  generalize v.2.2 = count
  cases hopen : F.openRead fs p with
  | none =>
    have hstatus : replyStatus (putPostOpAttr F fs
        ((putReplyHeader ⟨[]⟩ xid).u32 NFS3ERR_ACCES) p).data = NFS3ERR_ACCES :=
      replyStatus_of_extends (putPostOpAttr_extends _ fs p)
    simp only [true_or, iff_true]
    exact ⟨fun hok => absurd (hstatus.symm.trans hok) (by decide),
      fun _ hok => absurd (hstatus.symm.trans hok) (by decide), rfl⟩
  | some content =>
    have hstatus (size eof : UInt32) (data : QByteArray) : replyStatus
        ((((putPostOpAttr F fs ((putReplyHeader ⟨[]⟩ xid).u32 NFS3_OK) p).u32 size).u32
          eof).opaqueVar data).data = NFS3_OK :=
      replyStatus_of_extends ((putPostOpAttr_extends _ fs p).trans ((u32_extends _ _).trans
        ((u32_extends _ _).trans (opaqueVar_extends _ _))))
    simp only [reduceCtorEq, false_or]
    constructor
    · intro hexact
      by_contra hlarge
      exact hexact.refused (Nat.not_lt.mp hlarge) (hstatus _ _ _)
    · intro hsmall
      have hseek : seek offset = offset.toNat := if_pos hsmall
      refine ⟨fun _ => ⟨content, hopen, ?_⟩,
        fun hlarge => absurd hsmall (Nat.not_lt.mpr hlarge), rfl⟩
      have hlen : ((content.drop offset.toNat).take (min count.toNat 65536)).length < 2 ^ 32 := by
        rw [List.length_take]
        omega
      have heof : (content.length ≤ offset.toNat +
          ((content.drop offset.toNat).take (min count.toNat 65536)).length) ↔
          content.length ≤ offset.toNat + min count.toNat 65536 := by
        rw [List.length_take, List.length_drop]
        omega
      simp only [hseek, readReply_written (header_length xid NFS3_OK) fs p _ _ hlen, heof]
      split
      · rename_i hend
        simp [hend]
      · rename_i hend
        simp [hend]

theorem write_exact_iff (hE : E.Documents F) {v}
    (hr : r.At ((Grammar.nfsFh3.pair (Grammar.uint64.pair (Codec.word.pair
      ((Grammar.enum 3).pair (Grammar.opaqueVar (2 ^ 32 - 1)))))).encode v ++ rest)) :
    WriteExact E fs (s.pathForHandle v.1.2.val) (hyper v.2.1) v.2.2.2.2.2.val
        (write F s fs (putReplyHeader ⟨[]⟩ xid) r) ↔
      F.openReadWrite fs (s.pathForHandle v.1.2.val) (seek (hyper v.2.1)) v.2.2.2.2.2.val = none ∨
        (hyper v.2.1).toNat < 2 ^ 63 ∧
          Absorbs E fs (s.pathForHandle v.1.2.val) (hyper v.2.1).toNat v.2.2.2.2.2.val := by
  have hargs := readWrite_encode s hr
  simp only [write, hargs]
  generalize s.pathForHandle v.1.2.val = p
  generalize hyper v.2.1 = offset
  generalize v.2.2.2.2.2.val = data
  cases hopen : F.openReadWrite fs p (seek offset) data with
  | none =>
    have hstatus : replyStatus (putWccData F fs
        ((putReplyHeader ⟨[]⟩ xid).u32 NFS3ERR_ACCES) p).data = NFS3ERR_ACCES :=
      replyStatus_of_extends (putWccData_extends _ fs p)
    simp only [true_or, iff_true]
    exact ⟨fun hok => absurd (hstatus.symm.trans hok) (by decide),
      fun _ => ⟨fun hok => absurd (hstatus.symm.trans hok) (by decide), rfl⟩⟩
  | some result =>
    obtain ⟨gs, n⟩ := result
    obtain ⟨-, htakes, hcontent⟩ := hE.openReadWrite _ _ _ _ _ hopen
    have hstatus : replyStatus (((((putWccData F gs ((putReplyHeader ⟨[]⟩ xid).u32 NFS3_OK) p).u32
        (.ofInt n)).u32 2).opaqueFixed (List.replicate 8 0))).data = NFS3_OK :=
      replyStatus_of_extends (written_extends _ gs p _ _)
    simp only [reduceCtorEq, false_or]
    constructor
    · intro hexact
      have hsmall : offset.toNat < 2 ^ 63 := by
        by_contra hlarge
        exact (hexact.refused (Nat.not_lt.mp hlarge)).1 hstatus
      have hseek : seek offset = offset.toNat := if_pos hsmall
      rw [hseek] at htakes hcontent
      have hover := hexact.written hstatus
      simp only [hcontent] at hover
      exact ⟨hsmall, (splice_take_iff htakes).mp hover⟩
    · rintro ⟨hsmall, habsorbs⟩
      have hseek : seek offset = offset.toNat := if_pos hsmall
      rw [hseek] at htakes hcontent
      refine ⟨fun _ => ?_, fun hlarge => absurd hsmall (Nat.not_lt.mpr hlarge)⟩
      simp only [hcontent]
      exact (splice_take_iff htakes).mpr habsorbs

end Exact

def Grammar.readArgs := Grammar.nfsFh3.pair (Grammar.uint64.pair Codec.word)

def readCall := Grammar.callOf 6 Grammar.readArgs

theorem file_bytes_exact_iff (E : Environment σ) (F : FileSystem σ) (hE : E.Documents F)
    (s : NfsServer) (fs : σ) :
    (∀ v : readCall.Value,
      let path := s.pathForHandle v.2.1.2.val
      ReadExact F fs path (hyper v.2.2.1) v.2.2.2 (handleDatagram F s fs (readCall.encode v)) ↔
        F.openRead fs path = none ∨ (hyper v.2.2.1).toNat < 2 ^ 63) ∧
      ∀ v : Procedure.write.call.Value,
        let path := s.pathForHandle v.2.1.2.val
        let data := v.2.2.2.2.2.2.val
        WriteExact E fs path (hyper v.2.2.1) data
            (handleDatagram F s fs (Procedure.write.call.encode v)) ↔
          F.openReadWrite fs path (seek (hyper v.2.2.1)) data = none ∨
            (hyper v.2.2.1).toNat < 2 ^ 63 ∧ Absorbs E fs path (hyper v.2.2.1).toNat data := by
  constructor
  · intro v
    obtain ⟨xid, r, hr, hcall⟩ := handleDatagram_call 6 Grammar.readArgs F s fs v
    rw [readCall, hcall]
    exact read_exact_iff hr
  · intro v
    obtain ⟨xid, r, hr, hcall⟩ := handleDatagram_encode F s fs .write v
    rw [hcall, nfsProcedure_number, Procedure.perform]
    exact write_exact_iff hE hr

def textStore : PathStore := .single "/srv/a/f" (.file 0o644 [1, 2, 3])

def writeByte (offset : UInt32 × UInt32) (byte : UInt8) : Procedure.write.call.Value :=
  ⟨sampleHeader .write, ⟨sampleHandle 3, ⟨offset, ⟨1, ⟨⟨2, by decide⟩, oneByte byte⟩⟩⟩⟩⟩

theorem file_bytes_exact_store :
    WriteExact storeEnvironment textStore (fileServer.pathForHandle (NfsServer.handleBytes 3)) 4 [9]
      (handleDatagram PathStore.fileSystem fileServer textStore
        (Procedure.write.call.encode (writeByte (0, 4) 9))) :=
  ((file_bytes_exact_iff storeEnvironment PathStore.fileSystem storeEnvironment_documents fileServer
    textStore).2 (writeByte (0, 4) 9)).mpr (.inr ⟨by decide, List.nil_prefix⟩)

theorem huge_offset_overwrites :
    ¬ ∀ (σ : Type) (E : Environment σ) (F : FileSystem σ), E.Documents F →
      ∀ (s : NfsServer) (fs : σ),
        (∀ v : readCall.Value, ReadExact F fs (s.pathForHandle v.2.1.2.val) (hyper v.2.2.1) v.2.2.2
          (handleDatagram F s fs (readCall.encode v))) ∧
        ∀ v : Procedure.write.call.Value,
          WriteExact E fs (s.pathForHandle v.2.1.2.val) (hyper v.2.2.1) v.2.2.2.2.2.2.val
            (handleDatagram F s fs (Procedure.write.call.encode v)) := by
  intro h
  have hexact := (h PathStore storeEnvironment PathStore.fileSystem storeEnvironment_documents
    fileServer textStore).2 (writeByte (0x80000000, 0) 9)
  exact (hexact.refused (by decide)).1 (by decide +kernel)

end Nfs
