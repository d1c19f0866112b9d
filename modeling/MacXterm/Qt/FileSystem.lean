import MacXterm.Qt.Path

namespace Qt

structure Stat where
  mode : UInt32
  nlink : UInt32
  uid : UInt32
  gid : UInt32
  size : UInt64
  blocks : UInt64
  dev : UInt64
  ino : UInt64
  atime : Int64
  mtime : Int64
  ctime : Int64
  isDir : Bool
  isLnk : Bool
  deriving DecidableEq

structure FileInfo where
  fileName : QString
  isDir : Bool
  size : Nat
  lastModified : QString
  deriving DecidableEq

-- What the servers ask of the operating system. An operation that reports failure has no
-- successor state; `openWrite` is QFile::open(WriteOnly) and a write, `openReadWrite` is
-- QFile::open(ReadWrite), a seek and a write.
structure FileSystem (σ : Type) where
  stat : σ → QString → Option Stat
  symLinkTarget : σ → QString → QString
  entryList : σ → QString → List QString
  entryInfoList : σ → QString → List FileInfo
  openRead : σ → QString → Option QByteArray
  openWrite : σ → QString → QByteArray → Option (σ × Int)
  openReadWrite : σ → QString → Nat → QByteArray → Option (σ × Int)
  chmod : σ → QString → UInt32 → σ
  truncate : σ → QString → Int64 → σ
  mkdir : σ → QString → Option σ
  mkpath : σ → QString → Bool × σ
  remove : σ → QString → Option σ
  rmdir : σ → QString → Option σ
  removeRecursively : σ → QString → Bool × σ
  rename : σ → QString → QString → Option σ

namespace FileSystem

variable {σ : Type} (F : FileSystem σ)

def pathExists (fs : σ) (p : QString) : Bool := (F.stat fs p).isSome

def isDir (fs : σ) (p : QString) : Bool := (F.stat fs p).any (·.isDir)

structure Lawful : Prop where
  entryList_name : ∀ fs p, ∀ name ∈ F.entryList fs p, name ≠ [] ∧ '/' ∉ name
  openWrite_nil : ∀ fs body, F.openWrite fs [] body = none
  openReadWrite_nil : ∀ fs pos body, F.openReadWrite fs [] pos body = none
  truncate_negative : ∀ fs p n, n < 0 → F.truncate fs p n = fs
  mkdir_nil : ∀ fs, F.mkdir fs [] = none
  remove_nil : ∀ fs, F.remove fs [] = none
  rmdir_nil : ∀ fs, F.rmdir fs [] = none
  rename_nil_left : ∀ fs p, F.rename fs [] p = none
  rename_nil_right : ∀ fs p, F.rename fs p [] = none
  rename_nested : ∀ fs p q, QDir.Inside p q ∨ QDir.Inside q p → F.rename fs p q = none

def object (fs : σ) (p : QString) : Option (Bool × Option QByteArray) :=
  (F.stat fs p).map fun st => (st.isDir, F.openRead fs p)

def SameOutside (beneath : QString → QString → Prop) (p : QString) (fs gs : σ) : Prop :=
  ∀ q, ¬ beneath p q → F.object gs q = F.object fs q

-- `beneath p q`: the path q names p or something in the directory tree at p.
structure Hierarchy (beneath : QString → QString → Prop) : Prop where
  refl : ∀ p, beneath p p
  trans : ∀ p q r, beneath p q → beneath q r → beneath p r
  append : ∀ p q, beneath p (p ++ '/' :: q)
  comparable : ∀ p q r, beneath p r → beneath q r → beneath p q ∨ beneath q p
  openWrite_dir : ∀ fs p body, F.isDir fs p = true → F.openWrite fs p body = none
  mkpath_dir : ∀ fs p, F.isDir fs p = true → F.mkpath fs p = (true, fs)
  remove_dir : ∀ fs p, F.isDir fs p = true → F.remove fs p = none
  rename_nested : ∀ fs p q, QDir.Inside p q ∨ QDir.Inside q p → F.rename fs p q = none
  openWrite_frame : ∀ fs p body r, F.openWrite fs p body = some r →
    F.SameOutside beneath p fs r.1
  remove_frame : ∀ fs p gs, F.remove fs p = some gs → F.SameOutside beneath p fs gs
  removeRecursively_frame : ∀ fs p, F.SameOutside beneath p fs (F.removeRecursively fs p).2
  rename_frame : ∀ fs p q gs, F.rename fs p q = some gs →
    ∀ r, ¬ beneath p r → ¬ beneath q r → F.object gs r = F.object fs r
  mkpath_frame : ∀ fs p q, ¬ beneath p q → ¬ (beneath q p ∧ F.object fs q = none) →
    F.object (F.mkpath fs p).2 q = F.object fs q

end FileSystem

end Qt
