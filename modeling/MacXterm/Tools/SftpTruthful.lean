import MacXterm.Qt.PathStore
import MacXterm.Tools.SftpServer

namespace SshServer

open Qt

-- What each descriptor reads and writes.
abbrev Contents := Int32 → QByteArray

-- pread gives bytes of the file from the offset on, none only past its end; pwrite stores no more
-- than it was given.
structure Os.Posix (os : Os) (files : Contents) : Prop where
  read : ∀ fd size offset bytes, os.pread fd size offset = some bytes →
    bytes <+: (files fd).drop offset.toNat ∧
      (bytes = [] → size = 0 ∨ (files fd).length ≤ offset.toNat)
  write : ∀ fd data offset n, os.pwrite fd data offset = some n → n ≤ data.length

def Os.after (os : Os) (files : Contents) : Call → Contents
  | .pwrite fd data offset =>
      match os.pwrite fd data offset with
      | some n => Function.update files fd
          (PathStore.splice (files fd) offset.toNat (data.take n))
      | none => files
  | _ => files

def Stored (files : Contents) (fd : Int32) (offset : UInt64) (data : QByteArray) : Prop :=
  data <+: (files fd).drop offset.toNat

def Truthful (H : HandleTable) (os : Os) (files : Contents) (t : H.Table) (v : Served H.Table) :
    Message → Prop
  | .read handle offset _ =>
      (∀ text, v.reply = .status .eof text →
        (files (toDescriptor (H.find t handle))).length ≤ offset.toNat) ∧
      ∀ fd size, .pread fd size offset ∈ v.calls → os.pread fd size offset = none →
        v.reply.Failure
  | .write handle offset data =>
      ∀ text, v.reply = .status .ok text →
        Stored (v.calls.foldl os.after files) (toDescriptor (H.find t handle)) offset data
  | _ => True

def askedSize (len : UInt32) : UInt32 := if len = 0 then 16384 else len

-- What the system leaves out of a write stands in the file already.
def Settled (H : HandleTable) (os : Os) (files : Contents) (t : H.Table) : Message → Prop
  | .read handle offset len =>
      os.pread (toDescriptor (H.find t handle)) (askedSize len) offset ≠ none
  | .write handle offset data =>
      ∀ n, os.pwrite (toDescriptor (H.find t handle)) data offset = some n →
        data.drop n <+: (files (toDescriptor (H.find t handle))).drop (offset.toNat + n)
  | _ => True

section Serve

variable {H : HandleTable} {os : Os} {files : Contents} (hos : os.Posix files) (t : H.Table)

theorem askedSize_ne_zero (len : UInt32) : askedSize len ≠ 0 := by
  unfold askedSize
  split
  · decide
  · assumption

theorem stored_update {fd : Int32} {offset : UInt64} {data : QByteArray} {n : Nat}
    (hn : n ≤ data.length) :
    Stored (Function.update files fd (PathStore.splice (files fd) offset.toNat (data.take n)))
        fd offset data ↔
      data.drop n <+: (files fd).drop (offset.toNat + n) := by
  have htaken : (data.take n).length = n := List.length_take_of_le hn
  rw [Stored, Function.update_self, PathStore.drop_splice, htaken]
  constructor
  · intro h
    rw [← List.take_append_drop n data, List.take_append_of_le_length (by omega),
      List.take_take, Nat.min_self] at h
    exact (List.prefix_append_right_inj _).mp h
  · intro h
    have happend := (List.prefix_append_right_inj (data.take n)).mpr h
    rwa [List.take_append_drop] at happend

include hos in
theorem write_truthful_iff (handle : QByteArray) (offset : UInt64) (data : QByteArray) :
    Truthful H os files t (serveWrite H os t handle offset data) (.write handle offset data) ↔
      Settled H os files t (.write handle offset data) := by
  simp only [Truthful, Settled, serveWrite]
  generalize toDescriptor (H.find t handle) = fd
  cases hwrite : os.pwrite fd data offset with
  | none => simp
  | some n =>
    have hstored := @stored_update files fd offset data n (hos.write fd data offset n hwrite)
    simp only [List.foldl_cons, List.foldl_nil, Os.after, hwrite, Option.some.injEq,
      forall_eq', hstored]
    exact ⟨fun h => h [] rfl, fun h _ _ => h⟩

include hos in
theorem read_truthful_iff (handle : QByteArray) (offset : UInt64) (len : UInt32) :
    Truthful H os files t (serveRead H os t handle offset len) (.read handle offset len) ↔
      Settled H os files t (.read handle offset len) := by
  have hsize := askedSize_ne_zero len
  simp only [Truthful, Settled, serveRead]
  rw [← askedSize]
  generalize toDescriptor (H.find t handle) = fd
  generalize askedSize len = size at hsize
  cases hread : os.pread fd size offset with
  | none =>
    refine iff_of_false ?_ (not_not_intro rfl)
    rintro ⟨-, hfailed⟩
    exact (hfailed fd size (List.mem_singleton.mpr rfl) hread).2 rfl
  | some bytes =>
    refine iff_of_true ⟨fun text htext => ?_, ?_⟩ (Option.some_ne_none bytes)
    · cases bytes with
      | nil => exact ((hos.read fd size offset [] hread).2 rfl).resolve_left hsize
      | cons b bytes => cases htext
    · intro fd' size' hcall hnone
      obtain ⟨rfl, rfl, -⟩ := Call.pread.inj (List.mem_singleton.mp hcall)
      rw [hread] at hnone
      cases hnone

end Serve

-- A disk that takes one byte of each write.
def fullDisk : Os := { failing with pwrite := fun _ data _ => some (min 1 data.length) }

theorem fullDisk_posix : fullDisk.Posix fun _ => [] :=
  ⟨fun _ _ _ _ h => absurd h (by simp [fullDisk, failing]),
    fun _ data _ n h => by
      obtain rfl : min 1 data.length = n := Option.some.inj h
      exact Nat.min_le_right _ _⟩

end SshServer
