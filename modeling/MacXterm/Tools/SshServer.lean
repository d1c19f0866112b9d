import MacXterm.Lib.Holding
import MacXterm.Qt.Path

namespace SshServer

open Qt QDir

def resolveRooted (root : QString) (path : QByteArray) : QString :=
  let p := fromUtf8 path
  let p := if p.head? = some '/' then p else '/' :: p
  let full := cleanPath (root ++ p)
  if full ≠ root ∧ ¬(root ++ ['/']) <+: full then [] else full

inductive StatusCode where
  | ok | eof | noSuchFile | permissionDenied | failure | opUnsupported
deriving DecidableEq

structure Attributes where
  size : UInt64
  uid : UInt32
  gid : UInt32
  permissions : UInt32
  atime : UInt32
  mtime : UInt32
deriving DecidableEq

-- S_IFDIR | 0755 and S_IFREG | 0644.
def dirPermissions : UInt32 := 0x41ED
def filePermissions : UInt32 := 0x81A4

inductive Reply where
  | status (code : StatusCode) (text : QString)
  | handle (h : QByteArray)
  | data (bytes : QByteArray)
  | name (path : QByteArray) (permissions : UInt32)
  | names (entries : List (QByteArray × UInt32))
  | attr (a : Attributes)
  | nothing
deriving DecidableEq

inductive Message where
  | realpath (fname : Option QByteArray)
  | stat (fname : Option QByteArray)
  | lstat (fname : Option QByteArray)
  | opendir (fname : Option QByteArray)
  | readdir (handle : QByteArray)
  | openFile (fname : Option QByteArray) (flags : UInt32)
  | read (handle : QByteArray) (offset : UInt64) (len : UInt32)
  | write (handle : QByteArray) (offset : UInt64) (data : QByteArray)
  | close (handle : QByteArray)
  | mkdir (fname : Option QByteArray)
  | rmdir (fname : Option QByteArray)
  | remove (fname : Option QByteArray)
  | setstat
  | fsetstat (handle : QByteArray)
  | other

inductive Access where
  | rdonly | wronly | rdwr
deriving DecidableEq

structure OpenFlags where
  access : Access
  creat : Bool
  trunc : Bool
  append : Bool
deriving DecidableEq

-- SSH_FXF_READ, WRITE, APPEND, CREAT and TRUNC are the bits from 0 on.
def openFlags (flags : UInt32) : OpenFlags :=
  let access :=
    if flags &&& 0x02 ≠ 0 ∧ flags &&& 0x01 ≠ 0 then .rdwr
    else if flags &&& 0x02 ≠ 0 then .wronly
    else .rdonly
  ⟨access, flags &&& 0x08 ≠ 0, flags &&& 0x10 ≠ 0, flags &&& 0x04 ≠ 0⟩

structure Dirent where
  name : QByteArray
  isDir : Bool

-- What the system answers while one message is served; 0 is the null pointer, and `none` is -1.
structure Os where
  stat : QString → Option Attributes
  opendir : QString → UInt64
  entries : UInt64 → List Dirent
  openFile : QString → OpenFlags → Int32
  pread : Int32 → UInt32 → UInt64 → Option QByteArray
  pwrite : Int32 → QByteArray → UInt64 → Option Nat
  mkdir : QString → Bool
  rmdir : QString → Bool
  unlink : QString → Bool

-- The handle table of libssh: handles to pointers, of which it knows nothing.
structure HandleTable where
  Table : Type
  empty : Table
  find : Table → QByteArray → UInt64
  alloc : Table → UInt64 → Option QByteArray × Table
  remove : Table → UInt64 → Table
  find_empty : ∀ h, find empty h = 0
  find_alloc : ∀ t v h t', alloc t v = (some h, t') →
    find t h = 0 ∧ ∀ k, find t' k = if k = h then v else find t k
  find_full : ∀ t v t', alloc t v = (none, t') → ∀ k, find t' k = find t k
  find_remove : ∀ t v h, find t h = v →
    ∃ g, find t g = v ∧ ∀ k, find (remove t v) k = if k = g then 0 else find t k

inductive Resource where
  | file (fd : Int32)
  | dir (d : UInt64)
deriving DecidableEq

-- The calls that a handle can reach.
inductive Call where
  | opendir (path : QString) (d : UInt64)
  | readdir (d : UInt64)
  | closedir (d : UInt64)
  | openFile (path : QString) (flags : OpenFlags) (fd : Int32)
  | pread (fd : Int32) (size : UInt32) (offset : UInt64)
  | pwrite (fd : Int32) (data : QByteArray) (offset : UInt64)
  | close (fd : Int32)
deriving DecidableEq

def Call.act : Call → Option (Act Resource)
  | .opendir _ d => if d = 0 then none else some (.acquire (.dir d))
  | .readdir d => some (.use (.dir d))
  | .closedir d => some (.release (.dir d))
  | .openFile _ _ fd => if fd < 0 then none else some (.acquire (.file fd))
  | .pread fd _ _ => some (.use (.file fd))
  | .pwrite fd _ _ => some (.use (.file fd))
  | .close fd => some (.release (.file fd))

structure Served (T : Type) where
  reply : Reply
  calls : List Call
  table : T

def Served.acts {T : Type} (v : Served T) : List (Act Resource) := v.calls.filterMap Call.act

-- The names of one answer and the calls that gave them; the null that ends a directory is a call.
def readNames (d : UInt64) : Nat → List Dirent → List (QByteArray × UInt32) × List Call
  | _, [] => ([], [.readdir d])
  | count, de :: rest =>
      let entry := (de.name, if de.isDir then dirPermissions else filePermissions)
      if 50 ≤ count + 1 then ([entry], [.readdir d])
      else
        let more := readNames d (count + 1) rest
        (entry :: more.1, .readdir d :: more.2)

def statusIf (ok : Bool) : Reply := .status (if ok then .ok else .failure) []

def toPointer (fd : Int32) : UInt64 := fd.toInt64.toUInt64

def toDescriptor (p : UInt64) : Int32 := p.toInt64.toInt32

def isDescriptor (p : UInt64) : Prop := 0 < p.toInt64 ∧ p.toInt64 < 0x100000

instance (p : UInt64) : Decidable (isDescriptor p) := inferInstanceAs (Decidable (_ ∧ _))

def replyHandle : Option QByteArray → Reply
  | some h => .handle h
  | none => .nothing

def replyStat (os : Os) (full : QString) : Reply :=
  if full = [] then .status .permissionDenied "denied"
  else
    match os.stat full with
    | none => .status .noSuchFile "not found"
    | some a => .attr a

section Serve

variable (H : HandleTable) (root : QString) (os : Os)

def serveOpendir (t : H.Table) (full : QString) : Served H.Table :=
  let d := if full = [] then 0 else os.opendir full
  let calls := if full = [] then [] else [.opendir full d]
  if d = 0 then ⟨.status .noSuchFile "no dir", calls, t⟩
  else ⟨replyHandle (H.alloc t d).1, calls, (H.alloc t d).2⟩

def serveReaddir (t : H.Table) (handle : QByteArray) : Served H.Table :=
  let d := H.find t handle
  if d = 0 then ⟨.status .failure "bad handle", [], t⟩
  else
    let (entries, calls) := readNames d 0 (os.entries d)
    ⟨if 0 < entries.length then .names entries else .status .eof "eof", calls, t⟩

def serveOpen (t : H.Table) (full : QString) (flags : UInt32) : Served H.Table :=
  let oflags := openFlags flags
  let fd := if full = [] then -1 else os.openFile full oflags
  let calls := if full = [] then [] else [.openFile full oflags fd]
  if fd < 0 then ⟨.status .permissionDenied "open failed", calls, t⟩
  else ⟨replyHandle (H.alloc t (toPointer fd)).1, calls, (H.alloc t (toPointer fd)).2⟩

def serveRead (t : H.Table) (handle : QByteArray) (offset : UInt64) (len : UInt32) :
    Served H.Table :=
  let fd := toDescriptor (H.find t handle)
  let size := if len = 0 then 16384 else len
  let reply := match os.pread fd size offset with
    | some (b :: bytes) => .data (b :: bytes)
    | _ => .status .eof "eof"
  ⟨reply, [.pread fd size offset], t⟩

def serveWrite (t : H.Table) (handle : QByteArray) (offset : UInt64) (data : QByteArray) :
    Served H.Table :=
  let fd := toDescriptor (H.find t handle)
  let reply := match os.pwrite fd data offset with
    | some _ => .status .ok []
    | none => .status .failure "write failed"
  ⟨reply, [.pwrite fd data offset], t⟩

def serveClose (t : H.Table) (handle : QByteArray) : Served H.Table :=
  let h := H.find t handle
  let calls :=
    if isDescriptor h then [.close (toDescriptor h)]
    else if h ≠ 0 then [.closedir h]
    else []
  ⟨.status .ok [], calls, H.remove t h⟩

def serve (t : H.Table) : Message → Served H.Table
  | .realpath fname =>
      let p := fromUtf8 (fname.getD (toUtf8 "."))
      let p := if p = ['.'] then ['/'] else p
      let p := if p.head? = some '/' then p else '/' :: p
      ⟨.name (toUtf8 (cleanPath p)) dirPermissions, [], t⟩
  | .stat fname | .lstat fname =>
      ⟨replyStat os (resolveRooted root (fname.getD (toUtf8 "/"))), [], t⟩
  | .opendir fname => serveOpendir H os t (resolveRooted root (fname.getD (toUtf8 "/")))
  | .readdir handle => serveReaddir H os t handle
  | .openFile fname flags => serveOpen H os t (resolveRooted root (fname.getD [])) flags
  | .read handle offset len => serveRead H os t handle offset len
  | .write handle offset data => serveWrite H os t handle offset data
  | .close handle => serveClose H t handle
  | .mkdir fname =>
      let full := resolveRooted root (fname.getD [])
      ⟨statusIf (full ≠ [] && os.mkdir full), [], t⟩
  | .rmdir fname =>
      let full := resolveRooted root (fname.getD [])
      ⟨statusIf (full ≠ [] && os.rmdir full), [], t⟩
  | .remove fname =>
      let full := resolveRooted root (fname.getD [])
      ⟨statusIf (full ≠ [] && os.unlink full), [], t⟩
  | .setstat | .fsetstat _ => ⟨.status .ok [], [], t⟩
  | .other => ⟨.status .opUnsupported "unsupported", [], t⟩

end Serve

end SshServer
