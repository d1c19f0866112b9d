import MacXterm.Tools.Nfs.Call
import MacXterm.Tools.XdrReading

namespace Xdr

open Qt

namespace XdrReader

variable {r : XdrReader} {rest : QByteArray}

theorem At.opaqueVar {max : Nat} {v : Nfs.Grammar.OpaqueValue max}
    (h : r.At ((Nfs.Grammar.opaqueVar max).encode v ++ rest)) :
    ∃ r', r.opaqueVar = (v.2.val, true, r') ∧ r'.At rest := by
  obtain ⟨⟨n, hn⟩, bytes, hbytes⟩ := v
  have hcode : (Nfs.Grammar.opaqueVar max).encode ⟨⟨n, hn⟩, ⟨bytes, hbytes⟩⟩ =
      BigEndian.bytes32 n ++ (bytes ++ List.replicate (padding n.toNat) 0) := rfl
  change bytes.length = n.toNat at hbytes
  have hword : UInt32.ofNat bytes.length = n := by rw [hbytes, UInt32.ofNat_toNat]
  rw [hcode, ← hbytes, ← hword, List.append_assoc, List.append_assoc] at h
  have hlen : bytes.length < 2 ^ 32 := by
    rw [hbytes]
    exact n.toNat_lt
  exact h.opaqueVar_written hlen

theorem At.str {max : Nat} {v : Nfs.Grammar.OpaqueValue max}
    (h : r.At ((Nfs.Grammar.opaqueVar max).encode v ++ rest)) :
    ∃ r', r.str = (fromUtf8 v.2.val, true, r') ∧ r'.At rest := by
  obtain ⟨r₁, h₁, hr₁⟩ := h.opaqueVar
  exact ⟨r₁, by rw [XdrReader.str, h₁], hr₁⟩

end XdrReader

end Xdr

namespace Nfs

open Qt Xdr Grammar

variable {r : XdrReader} {rest : QByteArray}

def hyper (v : UInt32 × UInt32) : UInt64 := v.1.toUInt64 <<< 32 ||| v.2.toUInt64

-- What follows a word that says whether it follows: the word is 1 where there is a value.
theorem at_follows {α : Type} {c : Codec α} {v} (h : r.At ((Grammar.optional c).encode v ++ rest)) :
    ∃ r', r.u32 = (v.1.val, true, r') ∧
      (v.2.val = none ∧ ¬ v.1.val ≠ 0 ∧ r'.At rest ∨
        ∃ a, v.2.val = some a ∧ v.1.val ≠ 0 ∧ r'.At (c.encode a ++ rest)) := by
  obtain ⟨⟨follows, hfollows⟩, ⟨x, hx⟩⟩ := v
  have hcode : (Grammar.optional c).encode ⟨⟨follows, hfollows⟩, ⟨x, hx⟩⟩ =
      BigEndian.bytes32 follows ++ x.elim [] c.encode := rfl
  rw [hcode, List.append_assoc] at h
  obtain ⟨r₁, h₁, hr₁⟩ := h.u32
  refine ⟨r₁, h₁, ?_⟩
  change x.isSome = decide (follows = 1) at hx
  cases x with
  | none =>
    have hne : follows.toNat ≠ 1 := fun hone =>
      of_decide_eq_false hx.symm (UInt32.toNat_inj.mp hone)
    refine Or.inl ⟨rfl, fun hnonzero => hnonzero (UInt32.toNat_inj.mp ?_), hr₁⟩
    change follows.toNat = 0
    omega
  | some a =>
    have hone : (1 : UInt32) ≠ 0 := by decide
    obtain rfl := of_decide_eq_true hx.symm
    exact Or.inr ⟨a, rfl, hone, hr₁⟩

theorem at_optional32 {v} (h : r.At ((Grammar.optional .word).encode v ++ rest)) :
    ∃ r', optional32 r = (v.2.val.isSome, v.2.val.getD 0, true, r') ∧ r'.At rest := by
  obtain ⟨r₁, h₁, ⟨hx, hzero, hr₁⟩ | ⟨a, hx, hnonzero, hr₁⟩⟩ := at_follows h
  · exact ⟨r₁, by simp only [optional32, h₁, hx, if_neg hzero, Option.isSome_none,
      Option.getD_none], hr₁⟩
  · obtain ⟨r₂, h₂, hr₂⟩ := XdrReader.At.u32 hr₁
    exact ⟨r₂, by simp only [optional32, h₁, h₂, hx, if_pos hnonzero, Option.isSome_some,
      Option.getD_some], hr₂⟩

theorem at_pair {a : UInt32 × UInt32} (h : r.At ((Codec.word.pair .word).encode a ++ rest)) :
    r.At (BigEndian.bytes32 a.1 ++ (BigEndian.bytes32 a.2 ++ rest)) := by
  rw [Codec.encode_pair, List.append_assoc] at h
  exact h

theorem at_optional64 {v} (h : r.At ((Grammar.optional Grammar.uint64).encode v ++ rest)) :
    ∃ r', optional64 r = (v.2.val.isSome, (v.2.val.map hyper).getD 0, true, r') ∧ r'.At rest := by
  obtain ⟨r₁, h₁, ⟨hx, hzero, hr₁⟩ | ⟨a, hx, hnonzero, hr₁⟩⟩ := at_follows h
  · exact ⟨r₁, by simp only [optional64, h₁, hx, if_neg hzero, Option.isSome_none,
      Option.map_none, Option.getD_none], hr₁⟩
  · obtain ⟨r₂, h₂, hr₂⟩ := (at_pair hr₁).u64
    exact ⟨r₂, by simp only [optional64, h₁, h₂, hx, if_pos hnonzero, Option.isSome_some,
      Option.map_some, Option.getD_some, hyper], hr₂⟩

theorem at_time {v} (h : r.At (Grammar.setTime.encode v ++ rest)) :
    ∃ r', optionalTime r = (true, r') ∧ r'.At rest := by
  obtain ⟨⟨how, hhow⟩, ⟨x, hx⟩⟩ := v
  have hcode : Grammar.setTime.encode ⟨⟨how, hhow⟩, ⟨x, hx⟩⟩ =
      BigEndian.bytes32 how ++ x.elim [] Grammar.nfstime3.encode := rfl
  rw [hcode, List.append_assoc] at h
  obtain ⟨r₁, h₁, hr₁⟩ := h.u32
  change x.isSome = decide (how = 2) at hx
  cases x with
  | none =>
    have hne : ¬ how = 2 := of_decide_eq_false hx.symm
    exact ⟨r₁, by simp only [optionalTime, h₁, if_neg hne], hr₁⟩
  | some a =>
    have heq : how = 2 := of_decide_eq_true hx.symm
    obtain ⟨r₂, h₂, hr₂⟩ := (at_pair hr₁).u32
    obtain ⟨r₃, h₃, hr₃⟩ := hr₂.u32
    exact ⟨r₃, by simp only [optionalTime, h₁, if_pos heq, h₂, h₃], hr₃⟩

theorem at_auth {v} (h : r.At (Grammar.opaqueAuth.encode v ++ rest)) :
    ∃ r', skipAuth r = (true, r') ∧ r'.At rest := by
  rw [Grammar.opaqueAuth, Codec.encode_pair, List.append_assoc] at h
  obtain ⟨r₁, h₁, hr₁⟩ := XdrReader.At.u32 h
  obtain ⟨r₂, h₂, hr₂⟩ := hr₁.opaqueVar
  exact ⟨r₂, by simp only [skipAuth, h₁, h₂], hr₂⟩

-- A well-formed call of an NFS procedure with the arguments of a grammar.
def Grammar.callOf {α : Type} (proc : UInt32) (args : Codec α) :=
  (Codec.word.pair ((Codec.const ([0, 2, PROG_NFS, 3, proc].flatMap BigEndian.bytes32)).pair
    (opaqueAuth.pair opaqueAuth))).pair args

section Call

variable {α : Type} (proc : UInt32) (args : Codec α)

theorem readRpcCall_encode (v) :
    let call := readRpcCall ((Grammar.callOf proc args).encode v)
    call.msgType = 0 ∧ call.rpcvers = 2 ∧ call.prog = PROG_NFS ∧ call.vers = 3 ∧
      call.proc = proc ∧ call.ok = true ∧ call.args.At (Grammar.opaqueAuth.encode v.1.2.2.1 ++
        (Grammar.opaqueAuth.encode v.1.2.2.2 ++ args.encode v.2)) := by
  obtain ⟨⟨xid, _, cred, verf⟩, a⟩ := v
  have hcode : XdrReader.At ⟨(Grammar.callOf proc args).encode ⟨⟨xid, (), cred, verf⟩, a⟩, 0⟩
      (BigEndian.bytes32 xid ++ (BigEndian.bytes32 0 ++ (BigEndian.bytes32 2 ++
        (BigEndian.bytes32 PROG_NFS ++ (BigEndian.bytes32 3 ++ (BigEndian.bytes32 proc ++
        (Grammar.opaqueAuth.encode cred ++ (Grammar.opaqueAuth.encode verf ++
          args.encode a)))))))) := by
    refine ⟨Nat.zero_le _, ?_⟩
    have hassoc : (Grammar.callOf proc args).encode ⟨⟨xid, (), cred, verf⟩, a⟩ =
        BigEndian.bytes32 xid ++ ([0, 2, PROG_NFS, 3, proc].flatMap BigEndian.bytes32 ++
          (Grammar.opaqueAuth.encode cred ++ Grammar.opaqueAuth.encode verf)) ++
          args.encode a := rfl
    simp only [hassoc, List.drop_zero, List.append_assoc, List.flatMap_cons, List.flatMap_nil,
      List.nil_append]
  obtain ⟨r₁, h₁, hr₁⟩ := hcode.u32
  obtain ⟨r₂, h₂, hr₂⟩ := hr₁.u32
  obtain ⟨r₃, h₃, hr₃⟩ := hr₂.u32
  obtain ⟨r₄, h₄, hr₄⟩ := hr₃.u32
  obtain ⟨r₅, h₅, hr₅⟩ := hr₄.u32
  obtain ⟨r₆, h₆, hr₆⟩ := hr₅.u32
  simp only [readRpcCall, h₁, h₂, h₃, h₄, h₅, h₆, true_and]
  exact hr₆

theorem acceptCall_of {request : QByteArray} {complete : Bool} {r₁ r₂ : XdrReader}
    (htype : (readRpcCall request).msgType = 0) (hrpc : (readRpcCall request).rpcvers = 2)
    (hok : (readRpcCall request).ok = true)
    (hcred : skipAuth (readRpcCall request).args = (complete, r₁)) (hverf : skipAuth r₁ = (true, r₂)) :
    acceptCall request = some (readRpcCall request, r₂) := by
  simp only [acceptCall, hok, htype, hrpc, hcred, hverf, ne_eq, not_true_eq_false, decide_false,
    Bool.not_true, Bool.or_self, if_false, Bool.false_eq_true]

theorem acceptCall_encode (v) :
    ∃ call r, acceptCall ((Grammar.callOf proc args).encode v) = some (call, r) ∧
      call.prog = PROG_NFS ∧ call.vers = 3 ∧ call.proc = proc ∧
      r.At (args.encode v.2 ++ []) := by
  obtain ⟨htype, hrpc, hprog, hvers, hproc, hok, hr⟩ := readRpcCall_encode proc args v
  obtain ⟨r₁, h₁, hr₁⟩ := at_auth hr
  obtain ⟨r₂, h₂, hr₂⟩ := at_auth hr₁
  exact ⟨_, r₂, acceptCall_of htype hrpc hok h₁ h₂, hprog, hvers, hproc,
    by rwa [List.append_nil]⟩

theorem handleDatagram_call {σ : Type} (F : FileSystem σ) (s : NfsServer) (fs : σ) (v) :
    ∃ xid r, r.At (args.encode v.2 ++ []) ∧
      handleDatagram F s fs ((Grammar.callOf proc args).encode v) =
        nfsProcedure F s fs (putReplyHeader ⟨[]⟩ xid) r proc := by
  obtain ⟨call, r, hcall, hprog, hvers, hproc, hr⟩ := acceptCall_encode proc args v
  refine ⟨call.xid, r, hr, ?_⟩
  rw [handleDatagram, hcall]
  simp only [hprog, hvers, hproc, and_self, if_true]
  rw [if_neg (by decide), if_neg (by decide)]

end Call

theorem handleDatagram_encode {σ : Type} (F : FileSystem σ) (s : NfsServer) (fs : σ)
    (p : Procedure) (v) :
    ∃ xid r, r.At (p.args.2.encode v.2 ++ []) ∧
      handleDatagram F s fs (p.call.encode v) =
        nfsProcedure F s fs (putReplyHeader ⟨[]⟩ xid) r p.number :=
  handleDatagram_call p.number p.args.2 F s fs v

structure ReadArgs where
  path : QString
  offset : UInt64
  count : UInt32
  ok : Bool
  deriving DecidableEq

def readRead (s : NfsServer) (r : XdrReader) : ReadArgs :=
  let (fh, _, r) := r.opaqueVar
  let (offset, _, r) := r.u64
  let (count, ok, _) := r.u32
  ⟨s.pathForHandle fh, offset, count, ok⟩

theorem read_eq {σ : Type} (F : FileSystem σ) (s : NfsServer) (fs : σ) (w : XdrWriter)
    (r : XdrReader) :
    read F s fs w r =
      let a := readRead s r
      match a.ok, F.openRead fs a.path with
      | true, some content =>
          let data := (content.drop (seek a.offset)).take (min a.count.toNat 65536)
          let eof := content.length ≤ seek a.offset + data.length
          let w := (putPostOpAttr F fs (w.u32 NFS3_OK) a.path).u32 (.ofNat data.length)
          ⟨((w.u32 (if eof then 1 else 0)).opaqueVar data).data, s, fs⟩
      | _, _ => ⟨(putPostOpAttr F fs (w.u32 NFS3ERR_ACCES) a.path).data, s, fs⟩ := rfl

section Arguments

variable (s : NfsServer)

def sattrMode (v : Grammar.sattr3.Value) : Option UInt32 := v.1.2.val

def sattrSize (v : Grammar.sattr3.Value) : Option UInt64 := v.2.2.2.1.2.val.map hyper

theorem readSetattr_encode {v}
    (h : r.At ((Grammar.nfsFh3.pair
      (Grammar.sattr3.pair (Grammar.optional Grammar.nfstime3))).encode v ++ rest)) :
    readSetattr s r = ⟨s.pathForHandle v.1.2.val, (sattrMode v.2.1).isSome,
      (sattrMode v.2.1).getD 0, (sattrSize v.2.1).isSome, (sattrSize v.2.1).getD 0, true⟩ := by
  simp only [Grammar.sattr3, Codec.encode_pair, List.append_assoc] at h
  obtain ⟨r₁, h₁, hr₁⟩ := h.opaqueVar
  obtain ⟨r₂, h₂, hr₂⟩ := at_optional32 hr₁
  obtain ⟨r₃, h₃, hr₃⟩ := at_optional32 hr₂
  obtain ⟨r₄, h₄, hr₄⟩ := at_optional32 hr₃
  obtain ⟨r₅, h₅, hr₅⟩ := at_optional64 hr₄
  obtain ⟨r₆, h₆, hr₆⟩ := at_time hr₅
  obtain ⟨r₇, h₇, hr₇⟩ := at_time hr₆
  obtain ⟨r₈, h₈, -⟩ := at_follows hr₇
  simp only [readSetattr, h₁, h₂, h₃, h₄, h₅, h₆, h₇, h₈, sattrMode, sattrSize,
    Option.isSome_map]

theorem readRead_encode {v}
    (h : r.At ((Grammar.nfsFh3.pair (Grammar.uint64.pair Codec.word)).encode v ++ rest)) :
    readRead s r = ⟨s.pathForHandle v.1.2.val, hyper v.2.1, v.2.2, true⟩ := by
  simp only [Grammar.uint64, Codec.encode_pair, List.append_assoc] at h
  obtain ⟨r₁, h₁, hr₁⟩ := h.opaqueVar
  obtain ⟨r₂, h₂, hr₂⟩ := hr₁.u64
  obtain ⟨r₃, h₃, -⟩ := hr₂.u32
  simp only [readRead, h₁, h₂, h₃, hyper]

theorem readWrite_encode {v}
    (h : r.At ((Grammar.nfsFh3.pair (Grammar.uint64.pair (Codec.word.pair
      ((Grammar.enum 3).pair (Grammar.opaqueVar (2 ^ 32 - 1)))))).encode v ++ rest)) :
    readWrite s r = ⟨s.pathForHandle v.1.2.val, hyper v.2.1, v.2.2.2.2.2.val, true⟩ := by
  simp only [Grammar.uint64, Codec.encode_pair, List.append_assoc] at h
  obtain ⟨r₁, h₁, hr₁⟩ := h.opaqueVar
  obtain ⟨r₂, h₂, hr₂⟩ := hr₁.u64
  obtain ⟨r₃, h₃, hr₃⟩ := hr₂.u32
  obtain ⟨r₄, h₄, hr₄⟩ := hr₃.u32
  obtain ⟨r₅, h₅, -⟩ := hr₄.opaqueVar
  simp only [readWrite, h₁, h₂, h₃, h₄, h₅, hyper]

theorem readName_encode {v} (h : r.At (Grammar.diropargs3.encode v ++ rest)) :
    ∃ r', readName s r =
        ⟨s.pathForHandle v.1.2.val, fromUtf8 v.2.2.val, true, r'⟩ ∧ r'.At rest := by
  simp only [Grammar.diropargs3, Codec.encode_pair, List.append_assoc] at h
  obtain ⟨r₁, h₁, hr₁⟩ := h.opaqueVar
  obtain ⟨r₂, h₂, hr₂⟩ := hr₁.str
  exact ⟨r₂, by simp only [readName, h₁, h₂], hr₂⟩

theorem readCreate_encode {v}
    (h : r.At ((Grammar.diropargs3.pair Grammar.createhow3).encode v ++ rest)) :
    ∃ r', readCreate s r = ⟨s.pathForHandle v.1.1.2.val, fromUtf8 v.1.2.2.val, true, r'⟩ := by
  rw [Codec.encode_pair, List.append_assoc] at h
  obtain ⟨r₁, h₁, hr₁⟩ := readName_encode s h
  have hcode : Grammar.createhow3.encode v.2 = BigEndian.bytes32 v.2.1.val ++
      ((Grammar.sattr3.when (v.2.1.val ≠ 2)).pair
        ((Codec.bytes 8).when (v.2.1.val = 2))).encode v.2.2 := rfl
  rw [hcode, List.append_assoc] at hr₁
  obtain ⟨r₂, h₂, -⟩ := hr₁.u32
  exact ⟨skipSattr3 r₂, by simp only [readCreate, h₁, h₂]⟩

theorem readMkdir_encode {v}
    (h : r.At ((Grammar.diropargs3.pair Grammar.sattr3).encode v ++ rest)) :
    ∃ r', readMkdir s r = ⟨s.pathForHandle v.1.1.2.val, fromUtf8 v.1.2.2.val, true, r'⟩ := by
  rw [Codec.encode_pair, List.append_assoc] at h
  obtain ⟨r₁, h₁, -⟩ := readName_encode s h
  exact ⟨skipSattr3 r₁, by simp only [readMkdir, h₁]⟩

end Arguments

end Nfs
