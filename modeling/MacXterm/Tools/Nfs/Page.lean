import MacXterm.Tools.Nfs.Server

namespace Nfs

open Qt Xdr

section Entries

variable {σ : Type} (F : FileSystem σ) (fs : σ) (plus : Bool) (path : QString)

def fileid (idx : Nat) (name : QString) : UInt64 :=
  let ino := ((nfsStat F fs (QDir.filePath path name)).map (·.ino)).getD 0
  if ino ≠ 0 then ino else .ofNat idx

def putEntry (idx : Nat) (name : QString) (w : XdrWriter) (s : NfsServer) :
    XdrWriter × NfsServer :=
  let w := w.u32 1 |>.u64 (fileid F fs path idx name) |>.str name |>.u64 (.ofNat idx)
  if plus then
    let child := QDir.filePath path name
    let w := putPostOpAttr F fs w child
    let (fh, s) := s.fileHandle child
    ((w.u32 1).opaqueVar fh, s)
  else (w, s)

def putEntries : List QString → Nat → XdrWriter → NfsServer → XdrWriter × NfsServer
  | [], _, w, s => (w, s)
  | name :: names, idx, w, s =>
      let (w, s) := putEntry F fs plus path (idx + 1) name w s
      putEntries names (idx + 1) w s

end Entries

variable {σ : Type} {F : FileSystem σ} {fs : σ} {plus : Bool} {path : QString}

theorem listEntries_cons (cookie : Nat) (name : QString) (names : List QString) (idx : Nat)
    (w : XdrWriter) (s : NfsServer) :
    listEntries F fs plus path cookie (name :: names) idx w s =
      if idx < cookie then listEntries F fs plus path cookie names (idx + 1) w s
      else
        let r := putEntry F fs plus path (idx + 1) name w s
        if idx + 1 - cookie ≥ 64 then ⟨r.1, r.2, idx + 1⟩
        else listEntries F fs plus path cookie names (idx + 1) r.1 r.2 := by
  cases plus <;> rfl

-- The loop skips to the cookie, writes at most 64 entries and stops behind the last one written.
theorem listEntries_eq (cookie : Nat) (names : List QString) (idx : Nat) (w : XdrWriter)
    (s : NfsServer) (hi : idx < cookie + 64) :
    listEntries F fs plus path cookie names idx w s =
      let r := putEntries F fs plus path
        ((names.drop (cookie - idx)).take (64 - (idx - cookie))) (max idx cookie) w s
      ⟨r.1, r.2, min (idx + names.length) (cookie + 64)⟩ := by
  induction names generalizing idx w s with
  | nil =>
    have hstop : min idx (cookie + 64) = idx := by omega
    simp [listEntries, putEntries, hstop]
  | cons name names ih =>
    rw [listEntries_cons]
    by_cases hskip : idx < cookie
    · have hdrop : cookie - idx = cookie - (idx + 1) + 1 := by omega
      have htake : 64 - (idx - cookie) = 64 - (idx + 1 - cookie) := by omega
      have hmax : max idx cookie = max (idx + 1) cookie := by omega
      rw [if_pos hskip, ih _ _ _ (by omega), hdrop, htake, hmax, List.drop_succ_cons,
        List.length_cons, Nat.add_right_comm, Nat.add_assoc idx]
    · have hdrop : cookie - idx = 0 := by omega
      have htake : 64 - (idx - cookie) = 64 - (idx + 1 - cookie) + 1 := by omega
      have hmax : max idx cookie = idx := by omega
      simp only [if_neg hskip, hdrop, htake, hmax, List.drop_zero, List.take_succ_cons,
        putEntries, List.length_cons]
      by_cases hfull : idx + 1 - cookie ≥ 64
      · have hnone : 64 - (idx + 1 - cookie) = 0 := by omega
        have hstop : min (idx + (names.length + 1)) (cookie + 64) = idx + 1 := by omega
        rw [if_pos hfull, hnone, List.take_zero, hstop]
        rfl
      · have hdrop' : cookie - (idx + 1) = 0 := by omega
        have hmax' : max (idx + 1) cookie = idx + 1 := by omega
        rw [if_neg hfull, ih _ _ _ (by omega), hdrop', hmax', List.drop_zero,
          Nat.add_right_comm, Nat.add_assoc idx]

def window (names : List QString) (cookie : Nat) : List QString := (names.drop cookie).take 64

theorem listEntries_start (cookie : Nat) (names : List QString) (w : XdrWriter) (s : NfsServer) :
    listEntries F fs plus path cookie names 0 w s =
      let r := putEntries F fs plus path (window names cookie) cookie w s
      ⟨r.1, r.2, min names.length (cookie + 64)⟩ := by
  rw [listEntries_eq cookie names 0 w s (by omega)]
  simp only [Nat.sub_zero, Nat.zero_sub, Nat.zero_add, Nat.zero_max, window]

def putPage (F : FileSystem σ) (s : NfsServer) (fs : σ) (w : XdrWriter) (plus : Bool)
    (a : ReaddirArgs) : XdrWriter × NfsServer :=
  putEntries F fs plus a.path (window (entries F fs a.path) a.cookie.toNat) a.cookie.toNat
    ((putPostOpAttr F fs (w.u32 NFS3_OK) a.path).opaqueFixed (List.replicate 8 0)) s

theorem readdir_eq (s : NfsServer) (w : XdrWriter) (r : XdrReader) :
    readdir F s fs w r plus =
      let a := readReaddir s r
      let page := putPage F s fs w plus a
      let eof := (entries F fs a.path).length ≤ a.cookie.toNat + 64
      ⟨((page.1.u32 0).u32 (if eof then 1 else 0)).data, page.2, fs⟩ := by
  simp only [readdir, putPage, listEntries_start, Nat.le_min, Nat.le_refl, true_and]

theorem putEntries_server (names : List QString) (idx : Nat) (w : XdrWriter) (s : NfsServer) :
    (putEntries F fs true path names idx w s).2 =
      names.foldl (fun s name => (s.fileHandle (QDir.filePath path name)).2) s := by
  induction names generalizing idx w s with
  | nil => rfl
  | cons name names ih => exact ih _ _ _

theorem putEntries_server_readdir (names : List QString) (idx : Nat) (w : XdrWriter)
    (s : NfsServer) : (putEntries F fs false path names idx w s).2 = s := by
  induction names generalizing idx w with
  | nil => rfl
  | cons name names ih => exact ih _ _

end Nfs
