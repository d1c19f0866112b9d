import MacXterm.Qt.FileSystem
import MacXterm.Qt.Map
import MacXterm.Tools.Xdr

namespace Nfs

open Qt Xdr

def PROG_PORTMAP : UInt32 := 100000
def PROG_MOUNT : UInt32 := 100005
def PROG_NFS : UInt32 := 100003
def NFS3_OK : UInt32 := 0
def NFS3ERR_NOENT : UInt32 := 2
def NFS3ERR_ACCES : UInt32 := 13
def NF3REG : UInt32 := 1
def NF3DIR : UInt32 := 2
def NF3LNK : UInt32 := 5

structure NfsServer where
  exportDir : QString
  port : UInt16
  handleToPath : QHash QByteArray QString
  pathToHandle : QHash QString QByteArray
  nextHandle : UInt32
  deriving DecidableEq

structure Outcome (σ : Type) where
  reply : QByteArray
  server : NfsServer
  fs : σ
  deriving DecidableEq

namespace NfsServer

def handleBytes (id : UInt32) : QByteArray := BigEndian.bytes32 id ++ List.replicate 28 0

def fileHandle (s : NfsServer) (path : QString) : QByteArray × NfsServer :=
  let clean := QDir.cleanPath path
  if s.pathToHandle.contains clean then (s.pathToHandle.value clean [], s)
  else
    let fh := handleBytes s.nextHandle
    (fh, { s with
      nextHandle := s.nextHandle + 1
      pathToHandle := s.pathToHandle.insert clean fh
      handleToPath := s.handleToPath.insert fh clean })

def pathForHandle (s : NfsServer) (fh : QByteArray) : QString := s.handleToPath.value fh []

def childWithin (s : NfsServer) (dir name : QString) : QString :=
  if dir = [] then []
  else
    let child := QDir.cleanPath (QDir.filePath dir name)
    if QDir.Inside s.exportDir child then child else []

theorem childWithin_nil_left (s : NfsServer) (name : QString) : s.childWithin [] name = [] := rfl

theorem dir_ne_nil {s : NfsServer} {dir name : QString} (h : s.childWithin dir name ≠ []) :
    dir ≠ [] := by
  rintro rfl
  exact h (childWithin_nil_left s name)

def start (exportDir : QString) (port : UInt16) : NfsServer :=
  let s : NfsServer := ⟨QDir.cleanPath exportDir, port, [], [], 1⟩
  (s.fileHandle s.exportDir).2

end NfsServer

section Attributes

variable {σ : Type} (F : FileSystem σ) (fs : σ)

def nfsStat (path : QString) : Option Stat := if path = [] then none else F.stat fs path

def putFattr3 (w : XdrWriter) (st : Stat) : XdrWriter :=
  let type := if st.isDir then NF3DIR else if st.isLnk then NF3LNK else NF3REG
  w.u32 type |>.u32 (st.mode &&& 0o7777) |>.u32 st.nlink |>.u32 st.uid |>.u32 st.gid
    |>.u64 st.size |>.u64 (st.blocks * 512) |>.u32 0 |>.u32 0 |>.u64 st.dev |>.u64 st.ino
    |>.u32 st.atime.toUInt64.toUInt32 |>.u32 0 |>.u32 st.mtime.toUInt64.toUInt32 |>.u32 0
    |>.u32 st.ctime.toUInt64.toUInt32 |>.u32 0

def putPostOpAttr (w : XdrWriter) (path : QString) : XdrWriter :=
  match nfsStat F fs path with
  | some st => putFattr3 (w.u32 1) st
  | none => w.u32 0

def putWccData (w : XdrWriter) (path : QString) : XdrWriter := putPostOpAttr F fs (w.u32 0) path

end Attributes

section Arguments

def optional32 (r : XdrReader) : Bool × UInt32 × Bool × XdrReader :=
  let (follows, ok, r) := r.u32
  if follows ≠ 0 then
    let (v, ok, r) := r.u32
    (true, v, ok, r)
  else (false, 0, ok, r)

def optional64 (r : XdrReader) : Bool × UInt64 × Bool × XdrReader :=
  let (follows, ok, r) := r.u32
  if follows ≠ 0 then
    let (v, ok, r) := r.u64
    (true, v, ok, r)
  else (false, 0, ok, r)

def optionalTime (r : XdrReader) : Bool × XdrReader :=
  let (how, ok, r) := r.u32
  if how = 2 then
    let (_, _, r) := r.u32
    let (_, ok, r) := r.u32
    (ok, r)
  else (ok, r)

def skipSattr3 (r : XdrReader) : XdrReader :=
  let (_, _, _, r) := optional32 r
  let (_, _, _, r) := optional32 r
  let (_, _, _, r) := optional32 r
  let (_, _, _, r) := optional64 r
  let (_, r) := optionalTime r
  let (_, r) := optionalTime r
  r

structure RpcCall where
  xid : UInt32
  msgType : UInt32
  rpcvers : UInt32
  prog : UInt32
  vers : UInt32
  proc : UInt32
  ok : Bool
  args : XdrReader

def readRpcCall (request : QByteArray) : RpcCall :=
  let r : XdrReader := ⟨request, 0⟩
  let (xid, _, r) := r.u32
  let (msgType, _, r) := r.u32
  let (rpcvers, _, r) := r.u32
  let (prog, _, r) := r.u32
  let (vers, _, r) := r.u32
  let (proc, ok, r) := r.u32
  ⟨xid, msgType, rpcvers, prog, vers, proc, ok, r⟩

def skipAuth (r : XdrReader) : Bool × XdrReader :=
  let (_, _, r) := r.u32
  let (_, ok, r) := r.opaqueVar
  (ok, r)

structure SetattrArgs where
  path : QString
  setMode : Bool
  mode : UInt32
  setSize : Bool
  size : UInt64
  ok : Bool

def readSetattr (s : NfsServer) (r : XdrReader) : SetattrArgs :=
  let (fh, _, r) := r.opaqueVar
  let (setMode, mode, _, r) := optional32 r
  let (_, _, _, r) := optional32 r
  let (_, _, _, r) := optional32 r
  let (setSize, size, _, r) := optional64 r
  let (_, r) := optionalTime r
  let (_, r) := optionalTime r
  let (_, ok, _) := r.u32
  ⟨s.pathForHandle fh, setMode, mode, setSize, size, ok⟩

structure WriteArgs where
  path : QString
  offset : UInt64
  data : QByteArray
  ok : Bool

def readWrite (s : NfsServer) (r : XdrReader) : WriteArgs :=
  let (fh, _, r) := r.opaqueVar
  let (offset, _, r) := r.u64
  let (_, _, r) := r.u32
  let (_, _, r) := r.u32
  let (data, ok, _) := r.opaqueVar
  ⟨s.pathForHandle fh, offset, data, ok⟩

structure NameArgs where
  dir : QString
  name : QString
  ok : Bool
  rest : XdrReader

def readName (s : NfsServer) (r : XdrReader) : NameArgs :=
  let (fh, _, r) := r.opaqueVar
  let (name, ok, r) := r.str
  ⟨s.pathForHandle fh, name, ok, r⟩

def readCreate (s : NfsServer) (r : XdrReader) : NameArgs :=
  let a := readName s r
  let (_, ok, r) := a.rest.u32
  { a with ok := ok, rest := skipSattr3 r }

def readMkdir (s : NfsServer) (r : XdrReader) : NameArgs :=
  let a := readName s r
  { a with rest := skipSattr3 a.rest }

end Arguments

section Procedures

variable {σ : Type} (F : FileSystem σ) (s : NfsServer) (fs : σ) (w : XdrWriter) (r : XdrReader)

-- QFile::seek refuses a position that is negative as a qint64 and leaves the cursor at 0.
def seek (offset : UInt64) : Nat := if offset.toNat < 2 ^ 63 then offset.toNat else 0

def getattr : Outcome σ :=
  let (fh, ok, _) := r.opaqueVar
  match ok, nfsStat F fs (s.pathForHandle fh) with
  | true, some st => ⟨(putFattr3 (w.u32 NFS3_OK) st).data, s, fs⟩
  | _, _ => ⟨(w.u32 NFS3ERR_NOENT).data, s, fs⟩

def lookup : Outcome σ :=
  let a := readName s r
  let child := s.childWithin a.dir a.name
  if a.ok && a.dir ≠ [] && (nfsStat F fs child).isSome then
    let (fh, s) := s.fileHandle child
    let w := (w.u32 NFS3_OK).opaqueVar fh
    ⟨(putPostOpAttr F fs (putPostOpAttr F fs w child) a.dir).data, s, fs⟩
  else ⟨(putPostOpAttr F fs (w.u32 NFS3ERR_NOENT) a.dir).data, s, fs⟩

def access : Outcome σ :=
  let (fh, _, r) := r.opaqueVar
  let (mask, _, _) := r.u32
  let w := putPostOpAttr F fs (w.u32 NFS3_OK) (s.pathForHandle fh)
  ⟨(w.u32 (mask &&& 0x1F)).data, s, fs⟩

def readlink : Outcome σ :=
  let (fh, _, _) := r.opaqueVar
  let path := s.pathForHandle fh
  let target := toUtf8 (F.symLinkTarget fs path)
  ⟨((putPostOpAttr F fs (w.u32 NFS3_OK) path).opaqueVar target).data, s, fs⟩

def read : Outcome σ :=
  let (fh, _, r) := r.opaqueVar
  let (offset, _, r) := r.u64
  let (count, ok, _) := r.u32
  let path := s.pathForHandle fh
  match ok, F.openRead fs path with
  | true, some content =>
      let data := (content.drop (seek offset)).take (min count.toNat 65536)
      let eof := content.length ≤ seek offset + data.length
      let w := (putPostOpAttr F fs (w.u32 NFS3_OK) path).u32 (.ofNat data.length)
      ⟨((w.u32 (if eof then 1 else 0)).opaqueVar data).data, s, fs⟩
  | _, _ => ⟨(putPostOpAttr F fs (w.u32 NFS3ERR_ACCES) path).data, s, fs⟩

structure Listing where
  w : XdrWriter
  server : NfsServer
  idx : Nat

def listEntries (plus : Bool) (path : QString) (cookie : Nat) :
    List QString → Nat → XdrWriter → NfsServer → Listing
  | [], idx, w, s => ⟨w, s, idx⟩
  | name :: entries, idx, w, s =>
      if idx < cookie then listEntries plus path cookie entries (idx + 1) w s
      else
        let idx := idx + 1
        let child := QDir.filePath path name
        let ino := ((nfsStat F fs child).map (·.ino)).getD 0
        let w := w.u32 1 |>.u64 (if ino ≠ 0 then ino else .ofNat idx) |>.str name
          |>.u64 (.ofNat idx)
        let (w, s) :=
          if plus then
            let w := putPostOpAttr F fs w child
            let (fh, s) := s.fileHandle child
            ((w.u32 1).opaqueVar fh, s)
          else (w, s)
        if idx - cookie ≥ 64 then ⟨w, s, idx⟩ else listEntries plus path cookie entries idx w s

def entries (path : QString) : List QString := F.entryList fs (if path = [] then ['.'] else path)

structure ReaddirArgs where
  path : QString
  cookie : UInt64

def readReaddir : ReaddirArgs :=
  let (fh, _, r) := r.opaqueVar
  let (cookie, _, _) := r.u64
  ⟨s.pathForHandle fh, cookie⟩

def readdir (plus : Bool) : Outcome σ :=
  let a := readReaddir s r
  let w := (putPostOpAttr F fs (w.u32 NFS3_OK) a.path).opaqueFixed (List.replicate 8 0)
  let names := entries F fs a.path
  let l := listEntries F fs plus a.path a.cookie.toNat names 0 w s
  ⟨((l.w.u32 0).u32 (if names.length ≤ l.idx then 1 else 0)).data, l.server, fs⟩

def bit (n : UInt64) : UInt64 := 1 <<< n

def fsstat : Outcome σ :=
  let (fh, _, _) := r.opaqueVar
  let w := putPostOpAttr F fs (w.u32 NFS3_OK) (s.pathForHandle fh)
  ⟨(w.u64 (bit 40) |>.u64 (bit 39) |>.u64 (bit 39) |>.u64 (bit 20) |>.u64 (bit 19)
    |>.u64 (bit 19) |>.u32 0).data, s, fs⟩

def fsinfo : Outcome σ :=
  let (fh, _, _) := r.opaqueVar
  let w := putPostOpAttr F fs (w.u32 NFS3_OK) (s.pathForHandle fh)
  ⟨(w.u32 65536 |>.u32 65536 |>.u32 4096 |>.u32 65536 |>.u32 65536 |>.u32 4096 |>.u32 4096
    |>.u64 (bit 40) |>.u32 1 |>.u32 0 |>.u32 0x1B).data, s, fs⟩

def pathconf : Outcome σ :=
  let (fh, _, _) := r.opaqueVar
  let w := putPostOpAttr F fs (w.u32 NFS3_OK) (s.pathForHandle fh)
  ⟨(w.u32 32000 |>.u32 255 |>.u32 0 |>.u32 1 |>.u32 1 |>.u32 0).data, s, fs⟩

def applySetattr (a : SetattrArgs) : σ :=
  let fs := if a.setMode then F.chmod fs a.path (a.mode &&& 0o7777) else fs
  if a.setSize then F.truncate fs a.path a.size.toInt64 else fs

def setattr : Outcome σ :=
  let a := readSetattr s r
  let fs := if a.ok && a.path ≠ [] then applySetattr F fs a else fs
  ⟨(putWccData F fs (w.u32 NFS3_OK) a.path).data, s, fs⟩

def write : Outcome σ :=
  let a := readWrite s r
  match a.ok, F.openReadWrite fs a.path (seek a.offset) a.data with
  | true, some (fs, wrote) =>
      let w := putWccData F fs (w.u32 NFS3_OK) a.path
      ⟨(w.u32 (.ofInt wrote) |>.u32 2 |>.opaqueFixed (List.replicate 8 0)).data, s, fs⟩
  | _, _ => ⟨(putWccData F fs (w.u32 NFS3ERR_ACCES) a.path).data, s, fs⟩

def putCreated (dir child : QString) : Outcome σ :=
  let (fh, s) := s.fileHandle child
  let w := (w.u32 NFS3_OK |>.u32 1).opaqueVar fh
  ⟨(putWccData F fs (putPostOpAttr F fs w child) dir).data, s, fs⟩

def create : Outcome σ :=
  let a := readCreate s r
  let child := s.childWithin a.dir a.name
  match a.ok && a.dir ≠ [], F.openWrite fs child [] with
  | true, some (fs, _) => putCreated F s fs w a.dir child
  | _, _ => ⟨(putWccData F fs (w.u32 NFS3ERR_ACCES) a.dir).data, s, fs⟩

def mkdir : Outcome σ :=
  let a := readMkdir s r
  let child := s.childWithin a.dir a.name
  match a.ok && a.dir ≠ [], F.mkdir fs child with
  | true, some fs => putCreated F s fs w a.dir child
  | _, _ => ⟨(putWccData F fs (w.u32 NFS3ERR_ACCES) a.dir).data, s, fs⟩

def removeEntry (op : σ → QString → Option σ) : Outcome σ :=
  let a := readName s r
  match a.ok && a.dir ≠ [], op fs (s.childWithin a.dir a.name) with
  | true, some fs => ⟨(putWccData F fs (w.u32 NFS3_OK) a.dir).data, s, fs⟩
  | _, _ => ⟨(putWccData F fs (w.u32 NFS3ERR_ACCES) a.dir).data, s, fs⟩

def remove : Outcome σ := removeEntry F s fs w r F.remove

def rmdir : Outcome σ := removeEntry F s fs w r F.rmdir

def rename : Outcome σ :=
  let source := readName s r
  let target := readName s source.rest
  let result := F.rename fs (s.childWithin source.dir source.name)
    (s.childWithin target.dir target.name)
  match target.ok && source.dir ≠ [] && target.dir ≠ [], result with
  | true, some fs =>
      let w := putWccData F fs (w.u32 NFS3_OK) source.dir
      ⟨(putWccData F fs w target.dir).data, s, fs⟩
  | _, _ =>
      let w := putWccData F fs (w.u32 NFS3ERR_ACCES) source.dir
      ⟨(putWccData F fs w target.dir).data, s, fs⟩

def commit : Outcome σ :=
  let (fh, _, _) := r.opaqueVar
  let w := putWccData F fs (w.u32 NFS3_OK) (s.pathForHandle fh)
  ⟨(w.opaqueFixed (List.replicate 8 0)).data, s, fs⟩

def nfsProcedure (proc : UInt32) : Outcome σ :=
  match proc with
  | 0 => ⟨w.data, s, fs⟩
  | 1 => getattr F s fs w r
  | 2 => setattr F s fs w r
  | 3 => lookup F s fs w r
  | 4 => access F s fs w r
  | 5 => readlink F s fs w r
  | 6 => read F s fs w r
  | 7 => write F s fs w r
  | 8 => create F s fs w r
  | 9 => mkdir F s fs w r
  | 12 => remove F s fs w r
  | 13 => rmdir F s fs w r
  | 14 => rename F s fs w r
  | 16 => readdir F s fs w r false
  | 17 => readdir F s fs w r true
  | 18 => fsstat F s fs w r
  | 19 => fsinfo F s fs w r
  | 20 => pathconf F s fs w r
  | 21 => commit F s fs w r
  | _ => ⟨(w.u32 NFS3ERR_ACCES).data, s, fs⟩

def mountProcedure (proc : UInt32) : Outcome σ :=
  match proc with
  | 0 => ⟨w.data, s, fs⟩
  | 1 =>
      let (fh, s) := s.fileHandle s.exportDir
      ⟨((w.u32 NFS3_OK).opaqueVar fh |>.u32 1 |>.u32 0).data, s, fs⟩
  | 3 => ⟨(w.u32 0).data, s, fs⟩
  | 5 => ⟨(w.u32 0).data, s, fs⟩
  | _ => ⟨(w.u32 NFS3ERR_ACCES).data, s, fs⟩

def portmapProcedure (proc : UInt32) : Outcome σ :=
  match proc with
  | 0 => ⟨w.data, s, fs⟩
  | 3 => ⟨(w.u32 s.port.toUInt32).data, s, fs⟩
  | _ => ⟨(w.u32 0).data, s, fs⟩

end Procedures

def putReplyHeader (w : XdrWriter) (xid : UInt32) : XdrWriter :=
  w.u32 xid |>.u32 1 |>.u32 0 |>.u32 0 |>.u32 0 |>.u32 0

def acceptCall (request : QByteArray) : Option (RpcCall × XdrReader) :=
  let call := readRpcCall request
  if !call.ok || call.msgType ≠ 0 || call.rpcvers ≠ 2 then none
  else
    let (_, r) := skipAuth call.args
    let (ok, r) := skipAuth r
    if !ok then none else some (call, r)

def handleDatagram {σ : Type} (F : FileSystem σ) (s : NfsServer) (fs : σ) (request : QByteArray) :
    Outcome σ :=
  match acceptCall request with
  | none => ⟨[], s, fs⟩
  | some (call, r) =>
      let w := putReplyHeader ⟨[]⟩ call.xid
      if call.prog = PROG_PORTMAP then portmapProcedure s fs w call.proc
      else if call.prog = PROG_MOUNT then mountProcedure s fs w call.proc
      else if call.prog = PROG_NFS ∧ call.vers = 3 then nfsProcedure F s fs w r call.proc
      else ⟨[], s, fs⟩

def rpcCall (xid prog vers proc : UInt32) (args : QByteArray) : QByteArray :=
  [xid, 0, 2, prog, vers, proc, 0, 0, 0, 0].flatMap BigEndian.bytes32 ++ args

end Nfs
