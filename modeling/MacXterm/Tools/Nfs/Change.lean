import MacXterm.Tools.Nfs.Effect
import MacXterm.Tools.Nfs.Reading

namespace Nfs

open Qt Xdr

variable {σ : Type}

-- What the system answers to a call and what it leaves behind: `none` is a refusal, and a mode is
-- the one the file has afterwards, for bits may be taken away (the umask, set-id bits). A write
-- reaches the file at once or, where QFile buffers it, at the close; `takes` of its bytes do.
structure Environment (σ : Type) where
  content : σ → QString → QByteArray
  chmod : σ → QString → UInt32 → Option UInt32
  truncate : σ → QString → Int64 → Option UInt32
  createMode : σ → QString → UInt32
  mkdirMode : σ → QString → UInt32
  buffers : σ → QString → QByteArray → Bool
  takes : σ → QString → Nat → QByteArray → Nat

def permissions (st : Stat) : UInt32 := st.mode &&& 0o7777

namespace Environment

variable (E : Environment σ)

def reported (fs : σ) (p : QString) (pos : Nat) (data : QByteArray) : Int :=
  if E.buffers fs p data then data.length
  else if E.takes fs p pos data = 0 ∧ data ≠ [] then -1
  else E.takes fs p pos data

structure Documents (F : FileSystem σ) : Prop where
  chmod_refused : ∀ fs p m, E.chmod fs p m = none → F.chmod fs p m = fs
  chmod_done : ∀ fs p m left, E.chmod fs p m = some left →
    ∃ st st', F.stat fs p = some st ∧ F.stat (F.chmod fs p m) p = some st' ∧
      permissions st' = left ∧ st'.size = st.size
  truncate_refused : ∀ fs p n, E.truncate fs p n = none → F.truncate fs p n = fs
  truncate_done : ∀ fs p n left, E.truncate fs p n = some left →
    ∃ st, F.stat (F.truncate fs p n) p = some st ∧ permissions st = left ∧ st.size = n.toUInt64
  openReadWrite : ∀ fs p pos data r, F.openReadWrite fs p pos data = some r →
    r.2 = E.reported fs p pos data ∧ E.takes fs p pos data ≤ data.length ∧
      E.content r.1 p =
        PathStore.splice (E.content fs p) pos (data.take (E.takes fs p pos data))
  openWrite : ∀ fs p r, F.openWrite fs p [] = some r →
    ∃ st, F.stat r.1 p = some st ∧ st.isDir = false ∧ st.size = 0 ∧
      permissions st = E.createMode fs p
  mkdir : ∀ fs p gs, F.mkdir fs p = some gs →
    ∃ st, F.stat gs p = some st ∧ st.isDir = true ∧ permissions st = E.mkdirMode fs p
  remove : ∀ fs p gs, F.remove fs p = some gs → F.stat gs p = none
  rmdir : ∀ fs p gs, F.rmdir fs p = some gs → F.stat gs p = none
  rename : ∀ fs old new gs, F.rename fs old new = some gs →
    F.stat gs old = none ∧ ∀ q, QDir.Inside new q → F.stat fs q = none →
      F.object gs q = F.object fs (movedFrom old new q)

-- The length of a file is a qint64.
def Fits (fs : σ) : Prop := ∀ p, (E.content fs p).length < 2 ^ 63

end Environment

inductive Change where
  | setattr (path : QString) (mode : Option UInt32) (size : Option UInt64)
      (guard : Option (UInt32 × UInt32))
  | write (path : QString) (offset : UInt64) (data : QByteArray)
  | create (child : QString) (fresh : Bool) (mode : Option UInt32) (size : Option UInt64)
  | mkdir (child : QString) (mode : Option UInt32)
  | remove (child : QString)
  | rename (old new : QString)
  deriving DecidableEq

def NfsServer.named (s : NfsServer) (v : Grammar.diropargs3.Value) : QString :=
  s.childWithin (s.pathForHandle v.1.2.val) (fromUtf8 v.2.2.val)

def permitted (m : UInt32) : UInt32 := m &&& 0o7777

-- GUARDED and EXCLUSIVE, the create modes other than 0, ask that nothing stands there before.
def Procedure.change (s : NfsServer) : (p : Procedure) → p.args.1 → Change
  | .setattr, v => .setattr (s.pathForHandle v.1.2.val) ((sattrMode v.2.1).map permitted)
      (sattrSize v.2.1) v.2.2.2.val
  | .write, v => .write (s.pathForHandle v.1.2.val) (hyper v.2.1) v.2.2.2.2.2.val
  | .create, v => .create (s.named v.1) (v.2.1.val ≠ 0)
      ((v.2.2.1.val.bind sattrMode).map permitted) (v.2.2.1.val.bind sattrSize)
  | .mkdir, v => .mkdir (s.named v.1) ((sattrMode v.2).map permitted)
  | .remove, v => .remove (s.named v)
  | .rmdir, v => .remove (s.named v)
  | .rename, v => .rename (s.named v.1) (s.named v.2)

section Reply

def replyStatus (reply : QByteArray) : UInt32 := (XdrReader.u32 ⟨reply, 24⟩).1

def skipAttributes (r : XdrReader) (n : Nat) : XdrReader :=
  let (follows, _, r) := r.u32
  if follows ≠ 0 then { r with pos := r.pos + n } else r

def replyCount (reply : QByteArray) : UInt32 :=
  (skipAttributes (skipAttributes ⟨reply, 28⟩ 24) 84).u32.1

end Reply

section Truth

variable (E : Environment σ) (F : FileSystem σ)

def modeAt (fs : σ) (p : QString) : Option UInt32 := (nfsStat F fs p).map permissions

def sizeAt (fs : σ) (p : QString) : Option UInt64 := (nfsStat F fs p).map (·.size)

-- The time that the server reports for a file is its ctime in seconds.
def GuardFails (fs : σ) (p : QString) (guard : Option (UInt32 × UInt32)) : Prop :=
  ∃ t, guard = some t ∧ ∀ st, nfsStat F fs p = some st → t ≠ (st.ctime.toUInt64.toUInt32, 0)

def Change.Done (fs gs : σ) (reply : QByteArray) : Change → Prop
  | .setattr p mode size guard =>
      (∀ m, mode = some m → modeAt F gs p = some m) ∧
        (∀ n, size = some n → sizeAt F gs p = some n) ∧
        (GuardFails F fs p guard → modeAt F gs p = modeAt F fs p ∧ sizeAt F gs p = sizeAt F fs p)
  | .write p offset data =>
      let count := (replyCount reply).toNat
      count ≤ data.length ∧ count = E.takes fs p (seek offset) data ∧
        E.content gs p = PathStore.splice (E.content fs p) offset.toNat (data.take count)
  | .create child fresh mode size =>
      (fresh = true → nfsStat F fs child = none) ∧
        ∃ st, nfsStat F gs child = some st ∧ st.isDir = false ∧
          (∀ m, mode = some m → permissions st = m) ∧ ∀ n, size = some n → st.size = n
  | .mkdir child mode =>
      ∃ st, nfsStat F gs child = some st ∧ st.isDir = true ∧
        ∀ m, mode = some m → permissions st = m
  | .remove child => nfsStat F gs child = none
  | .rename old new =>
      nfsStat F gs old = none ∧ ∀ q, QDir.Inside new q → F.stat fs q = none →
        F.object gs q = F.object fs (movedFrom old new q)

def Truthful (fs : σ) (change : Change) (o : Outcome σ) : Prop :=
  (replyStatus o.reply = NFS3_OK → change.Done E F fs o.fs o.reply) ∧
    (replyStatus o.reply ≠ NFS3_OK → o.fs = fs)

end Truth

section Condition

variable (E : Environment σ) (F : FileSystem σ) (fs : σ)

def chmodAnswer (p : QString) (mode : Option UInt32) : Option UInt32 :=
  mode.bind (E.chmod fs p)

def truncateAnswer (p : QString) (mode : Option UInt32) (size : Option UInt64) : Option UInt32 :=
  size.bind fun n => E.truncate (mode.elim fs (F.chmod fs p)) p n.toInt64

-- The mode in the end: what the last call that the system carries out leaves, or the old one.
def leftMode (p : QString) (mode : Option UInt32) (size : Option UInt64) : Option UInt32 :=
  truncateAnswer E F fs p mode size <|> chmodAnswer E fs p mode <|> modeAt F fs p

def Change.Honoured : Change → Prop
  | .setattr p mode size guard =>
      if p = [] then mode = none ∧ size = none
      else
        (∀ m, mode = some m → leftMode E F fs p mode size = some m) ∧
          (∀ n, size = some n →
            truncateAnswer E F fs p mode size ≠ none ∨ sizeAt F fs p = some n) ∧
          (GuardFails F fs p guard → leftMode E F fs p mode size = modeAt F fs p ∧
            ∀ n, size = some n → sizeAt F fs p = some n)
  | .write p offset data =>
      F.openReadWrite fs p (seek offset) data = none ∨ data = [] ∨
        offset.toNat < 2 ^ 63 ∧ 0 < E.takes fs p (seek offset) data ∧
          (E.buffers fs p data = true → E.takes fs p (seek offset) data = data.length)
  | .create child fresh mode size =>
      F.openWrite fs child [] = none ∨
        (fresh = true → nfsStat F fs child = none) ∧
          (∀ m, mode = some m → E.createMode fs child = m) ∧ ∀ n, size = some n → n = 0
  | .mkdir child mode =>
      F.mkdir fs child = none ∨ ∀ m, mode = some m → E.mkdirMode fs child = m
  | .remove _ => True
  | .rename _ _ => True

end Condition

end Nfs
