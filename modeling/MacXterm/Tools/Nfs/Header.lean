import MacXterm.Tools.Nfs.ReplySize
import MacXterm.Tools.Nfs.Status

namespace Nfs

open Qt Xdr

structure CallHeader where
  xid : UInt32
  prog : UInt32
  vers : UInt32
  proc : UInt32
  deriving DecidableEq

namespace CallHeader

def words (h : CallHeader) : QByteArray :=
  [h.xid, 0, 2, h.prog, h.vers, h.proc].flatMap BigEndian.bytes32

-- Of the NFS program the server knows version 3 alone.
def Known (h : CallHeader) : Prop :=
  h.prog = PROG_PORTMAP ∨ h.prog = PROG_MOUNT ∨ (h.prog = PROG_NFS ∧ h.vers = 3)

end CallHeader

def RpcCall.header (c : RpcCall) : CallHeader := ⟨c.xid, c.prog, c.vers, c.proc⟩

-- A flavor and a body with its length before it and its fill behind it.
def OpaqueAuth (bytes : QByteArray) : Prop :=
  ∃ flavor n body fill, body.length = n.toNat ∧ fill.length = padding n.toNat ∧
    bytes = BigEndian.bytes32 flavor ++ (BigEndian.bytes32 n ++ (body ++ fill))

def IsCall (request : QByteArray) (h : CallHeader) (args : QByteArray) : Prop :=
  ∃ cred verf, OpaqueAuth cred ∧ OpaqueAuth verf ∧ request = h.words ++ (cred ++ (verf ++ args))

-- A credential that is longer than what is left, where the bytes behind its length happen to
-- start with a verifier.
def Overrun (request : QByteArray) (h : CallHeader) (rest : QByteArray) : Prop :=
  ∃ flavor n verf, OpaqueAuth verf ∧ (verf ++ rest).length < n.toNat + padding n.toNat ∧
    request = h.words ++ (BigEndian.bytes32 flavor ++ (BigEndian.bytes32 n ++ (verf ++ rest)))

structure HeaderChecked {σ : Type} (F : FileSystem σ) (s : NfsServer) (fs : σ)
    (request : QByteArray) : Prop where
  refused : (∀ h args, IsCall request h args → ¬ h.Known) →
    (handleDatagram F s fs request).reply = []
  answered : ∀ h args, IsCall request h args → h.Known →
    BigEndian.bytes32 h.xid <+: (handleDatagram F s fs request).reply
  aligned : ∀ call r, acceptCall request = some (call, r) → call.header.Known →
    ∃ args, IsCall request call.header args ∧ r.At args

section Words

variable {r : XdrReader} {bytes rest : QByteArray}

theorem opaqueVar_short (h : r.At bytes) (hlen : bytes.length < 4) :
    r.opaqueVar = ([], false, r) := by
  simp only [XdrReader.opaqueVar, h.u32_short hlen, Bool.not_false, Bool.true_or, if_true]

theorem skipAuth_short (h : r.At bytes) (hlen : bytes.length < 4) : skipAuth r = (false, r) := by
  simp only [skipAuth, h.u32_short hlen, opaqueVar_short h hlen]

theorem skipAuth_cases (h : r.At bytes) :
    (∃ r' tail, tail.length < 4 ∧ skipAuth r = (false, r') ∧ r'.At tail) ∨
      (∃ flavor n tail r', tail.length < n.toNat + padding n.toNat ∧
        bytes = BigEndian.bytes32 flavor ++ (BigEndian.bytes32 n ++ tail) ∧
        skipAuth r = (false, r') ∧ r'.At tail) ∨
      ∃ auth rest r', OpaqueAuth auth ∧ bytes = auth ++ rest ∧ skipAuth r = (true, r') ∧
        r'.At rest := by
  rcases h.u32_cases with ⟨hshort, -⟩ | ⟨flavor, more, r₁, rfl, hflavor, hat⟩
  · exact .inl ⟨r, bytes, hshort, skipAuth_short h hshort, h⟩
  rcases hat.opaqueVar_cases with ⟨hshort, hbody⟩ | ⟨n, tail, r₂, rfl, hlen, hbody, hat'⟩ |
    ⟨n, body, fill, rest, r₂, hn, hfill, rfl, hbody, hat'⟩
  · exact .inl ⟨r₁, more, hshort, by simp only [skipAuth, hflavor, hbody], hat⟩
  · exact .inr (.inl ⟨flavor, n, tail, r₂, hlen, rfl, by simp only [skipAuth, hflavor, hbody], hat'⟩)
  · refine .inr (.inr ⟨_, rest, r₂, ⟨flavor, n, body, fill, hn, hfill, rfl⟩, ?_,
      by simp only [skipAuth, hflavor, hbody], hat'⟩)
    simp only [List.append_assoc]

theorem skipAuth_of_auth {auth : QByteArray} (ha : OpaqueAuth auth) (h : r.At (auth ++ rest)) :
    ∃ r', skipAuth r = (true, r') ∧ r'.At rest := by
  obtain ⟨flavor, n, body, fill, hn, hfill, rfl⟩ := ha
  simp only [List.append_assoc] at h
  obtain ⟨r₁, h₁, hr₁⟩ := h.u32
  obtain ⟨r₂, h₂, hr₂⟩ := hr₁.u32
  obtain ⟨r₃, h₃, hr₃⟩ := hr₂.padded (hfill.trans (by rw [hn]))
  have hlen := hr₂.length
  rw [List.length_append] at hlen
  have hfits : ¬ n.toNat > r₂.buf.length := by omega
  rw [hn] at h₃
  exact ⟨r₃, by simp only [skipAuth, h₁, XdrReader.opaqueVar, h₂, Bool.not_true, Bool.false_or,
    decide_eq_true_eq, if_neg hfits, h₃], hr₃⟩

theorem skipAuth_of_overrun {flavor n : UInt32} (hlen : rest.length < n.toNat + padding n.toNat)
    (h : r.At (BigEndian.bytes32 flavor ++ (BigEndian.bytes32 n ++ rest))) :
    ∃ r', skipAuth r = (false, r') ∧ r'.At rest := by
  obtain ⟨r₁, h₁, hr₁⟩ := h.u32
  obtain ⟨r₂, h₂, hr₂⟩ := hr₁.u32
  refine ⟨r₂, ?_, hr₂⟩
  simp only [skipAuth, h₁, XdrReader.opaqueVar, h₂, hr₂.opaqueFixed_short hlen, ite_self]

end Words
section Accepted

variable {request rest : QByteArray} {h : CallHeader}

theorem readRpcCall_words (heq : request = h.words ++ rest) :
    let call := readRpcCall request
    call.msgType = 0 ∧ call.rpcvers = 2 ∧ call.ok = true ∧ call.header = h ∧ call.args.At rest := by
  have hat := XdrReader.at_start request
  simp only [heq, CallHeader.words, List.flatMap_cons, List.flatMap_nil, List.append_assoc,
    List.nil_append] at hat
  obtain ⟨r₁, h₁, hr₁⟩ := hat.u32
  obtain ⟨r₂, h₂, hr₂⟩ := hr₁.u32
  obtain ⟨r₃, h₃, hr₃⟩ := hr₂.u32
  obtain ⟨r₄, h₄, hr₄⟩ := hr₃.u32
  obtain ⟨r₅, h₅, hr₅⟩ := hr₄.u32
  obtain ⟨r₆, h₆, hr₆⟩ := hr₅.u32
  simp only [readRpcCall, RpcCall.header, heq, CallHeader.words, List.flatMap_cons,
    List.flatMap_nil, List.append_assoc, List.nil_append, h₁, h₂, h₃, h₄, h₅, h₆, true_and]
  exact hr₆

-- A word that is missing leaves the reader where it is, so that the last word is missing too.
theorem words_of_readRpcCall (hok : (readRpcCall request).ok = true)
    (htype : (readRpcCall request).msgType = 0) (hrpc : (readRpcCall request).rpcvers = 2) :
    ∃ rest, request = (readRpcCall request).header.words ++ rest := by
  rcases (XdrReader.at_start request).u32_cases with ⟨-, h₁⟩ | ⟨xid, t₁, r₁, heq, h₁, hr₁⟩
  · simp only [readRpcCall, h₁, Bool.false_eq_true] at hok
  rcases hr₁.u32_cases with ⟨-, h₂⟩ | ⟨type, t₂, r₂, rfl, h₂, hr₂⟩
  · simp only [readRpcCall, h₁, h₂, Bool.false_eq_true] at hok
  rcases hr₂.u32_cases with ⟨-, h₃⟩ | ⟨rpc, t₃, r₃, rfl, h₃, hr₃⟩
  · simp only [readRpcCall, h₁, h₂, h₃, Bool.false_eq_true] at hok
  rcases hr₃.u32_cases with ⟨-, h₄⟩ | ⟨prog, t₄, r₄, rfl, h₄, hr₄⟩
  · simp only [readRpcCall, h₁, h₂, h₃, h₄, Bool.false_eq_true] at hok
  rcases hr₄.u32_cases with ⟨-, h₅⟩ | ⟨vers, t₅, r₅, rfl, h₅, hr₅⟩
  · simp only [readRpcCall, h₁, h₂, h₃, h₄, h₅, Bool.false_eq_true] at hok
  rcases hr₅.u32_cases with ⟨-, h₆⟩ | ⟨proc, t₆, r₆, rfl, h₆, hr₆⟩
  · simp only [readRpcCall, h₁, h₂, h₃, h₄, h₅, h₆, Bool.false_eq_true] at hok
  have hcall : readRpcCall request = ⟨xid, type, rpc, prog, vers, proc, true, r₆⟩ := by
    simp only [readRpcCall, h₁, h₂, h₃, h₄, h₅, h₆]
  rw [hcall] at htype hrpc ⊢
  obtain rfl : type = 0 := htype
  obtain rfl : rpc = 2 := hrpc
  refine ⟨t₆, ?_⟩
  simp only [heq, RpcCall.header, CallHeader.words, List.flatMap_cons, List.flatMap_nil,
    List.append_assoc, List.nil_append]

theorem acceptCall_isCall {args : QByteArray} (hcall : IsCall request h args) :
    ∃ call r, acceptCall request = some (call, r) ∧ call.header = h ∧ r.At args := by
  obtain ⟨cred, verf, hcred, hverf, heq⟩ := hcall
  obtain ⟨htype, hrpc, hok, hheader, hat⟩ := readRpcCall_words heq
  obtain ⟨r₁, h₁, hr₁⟩ := skipAuth_of_auth hcred hat
  obtain ⟨r₂, h₂, hr₂⟩ := skipAuth_of_auth hverf hr₁
  exact ⟨_, r₂, acceptCall_of htype hrpc hok h₁ h₂, hheader, hr₂⟩

theorem acceptCall_overrun (hover : Overrun request h rest) :
    ∃ call r, acceptCall request = some (call, r) ∧ call.header = h ∧ r.At rest := by
  obtain ⟨flavor, n, verf, hverf, hlen, heq⟩ := hover
  obtain ⟨htype, hrpc, hok, hheader, hat⟩ := readRpcCall_words heq
  obtain ⟨r₁, h₁, hr₁⟩ := skipAuth_of_overrun hlen hat
  obtain ⟨r₂, h₂, hr₂⟩ := skipAuth_of_auth hverf hr₁
  exact ⟨_, r₂, acceptCall_of htype hrpc hok h₁ h₂, hheader, hr₂⟩

theorem acceptCall_cases {call : RpcCall} {r : XdrReader}
    (haccept : acceptCall request = some (call, r)) :
    ∃ args, r.At args ∧ (IsCall request call.header args ∨ Overrun request call.header args) := by
  simp only [acceptCall] at haccept
  split at haccept
  · exact absurd haccept (by simp)
  rename_i hheader
  simp only [Bool.or_eq_true, Bool.not_eq_true', decide_eq_true_eq, not_or, Bool.not_eq_false,
    ne_eq, not_not] at hheader
  obtain ⟨⟨hok, htype⟩, hrpc⟩ := hheader
  obtain ⟨rest, heq⟩ := words_of_readRpcCall hok htype hrpc
  obtain ⟨-, -, -, -, hat⟩ := readRpcCall_words heq
  split at haccept
  · exact absurd haccept (by simp)
  rename_i hverf
  obtain ⟨rfl, rfl⟩ := Prod.mk.inj (Option.some.inj haccept)
  rcases skipAuth_cases hat with ⟨r₁, tail, hshort, hcred, hat₁⟩ |
    ⟨flavor, n, tail, r₁, hlen, rfl, hcred, hat₁⟩ | ⟨cred, tail, r₁, hauth, rfl, hcred, hat₁⟩
  · rw [hcred, skipAuth_short hat₁ hshort] at hverf
    exact absurd rfl hverf
  all_goals
    rw [hcred] at hverf ⊢
    rcases skipAuth_cases hat₁ with ⟨r₂, tail, hshort, hread, -⟩ |
      ⟨flavor', n', tail', r₂, hlen', rfl, hread, -⟩ | ⟨verf, args, r₂, hverified, rfl, hread, hat₂⟩
    · rw [hread] at hverf
      exact absurd rfl hverf
    · rw [hread] at hverf
      exact absurd rfl hverf
    rw [hread]
  · exact ⟨args, hat₂, .inr ⟨flavor, n, verf, hverified, hlen, heq⟩⟩
  · exact ⟨args, hat₂, .inl ⟨cred, verf, hauth, hverified, heq⟩⟩

theorem not_isCall_of_overrun {h' : CallHeader} {args : QByteArray}
    (hover : Overrun request h rest) : ¬ IsCall request h' args := by
  rintro ⟨cred, verf, hcred, -, heq⟩
  obtain ⟨flavor, n, verf', -, hlen, heq'⟩ := hover
  obtain ⟨-, -, -, -, hat⟩ := readRpcCall_words heq
  obtain ⟨-, -, -, -, hat'⟩ := readRpcCall_words heq'
  obtain ⟨r₁, hread, -⟩ := skipAuth_of_auth hcred hat
  obtain ⟨r₂, hread', -⟩ := skipAuth_of_overrun hlen hat'
  exact Bool.noConfusion (congrArg Prod.fst (hread.symm.trans hread'))

end Accepted

section Replies

variable {σ : Type} {F : FileSystem σ} (s : NfsServer) (fs : σ) (w : XdrWriter)

theorem u64_extends (v : UInt64) : w.data <+: (w.u64 v).data :=
  (u32_extends w _).trans (u32_extends _ _)

theorem putEntry_extends (plus : Bool) (path : QString) (idx : Nat) (name : QString) :
    w.data <+: (putEntry F fs plus path idx name w s).1.data := by
  have hentry := (u32_extends w 1).trans ((u64_extends _ (fileid F fs path idx name)).trans
    ((opaqueVar_extends _ (toUtf8 name)).trans (u64_extends _ (.ofNat idx))))
  cases plus with
  | false => exact hentry
  | true =>
    exact hentry.trans ((putPostOpAttr_extends _ fs (QDir.filePath path name)).trans
      ((u32_extends _ 1).trans (opaqueVar_extends _ _)))

theorem putEntries_extends (plus : Bool) (path : QString) (names : List QString) (idx : Nat) :
    w.data <+: (putEntries F fs plus path names idx w s).1.data := by
  induction names generalizing idx w s with
  | nil => exact List.prefix_refl _
  | cons name names ih => exact (putEntry_extends s fs w plus path (idx + 1) name).trans (ih _ _ _)

theorem readdir_extends (r : XdrReader) (plus : Bool) :
    w.data <+: (readdir F s fs w r plus).reply := by
  rw [readdir_eq]
  generalize readReaddir s r = a
  simp only [putPage]
  exact ((u32_extends w NFS3_OK).trans (putPostOpAttr_extends _ fs a.path)).trans
    ((opaqueFixed_extends _ _).trans ((putEntries_extends s fs _ plus a.path _ _).trans
      ((u32_extends _ 0).trans (u32_extends _ _))))

theorem lookup_extends (r : XdrReader) : w.data <+: (lookup F s fs w r).reply := by
  simp only [lookup]
  generalize s.childWithin (readName s r).dir (readName s r).name = child
  generalize (readName s r).dir = dir
  generalize s.fileHandle child = minted
  split
  · exact (u32_extends w NFS3_OK).trans ((opaqueVar_extends _ minted.1).trans
      ((putPostOpAttr_extends _ fs child).trans (putPostOpAttr_extends _ fs dir)))
  · exact (u32_extends w NFS3ERR_NOENT).trans (putPostOpAttr_extends _ fs dir)

theorem create_extends (r : XdrReader) : w.data <+: (create F s fs w r).reply := by
  simp only [create]
  split
  · exact (u32_extends w NFS3_OK).trans (putCreated_extends w s _ _ _)
  · simp only
    exact (u32_extends w NFS3ERR_ACCES).trans (putWccData_extends _ fs _)

theorem mkdir_extends (r : XdrReader) : w.data <+: (mkdir F s fs w r).reply := by
  simp only [mkdir]
  split
  · exact (u32_extends w NFS3_OK).trans (putCreated_extends w s _ _ _)
  · simp only
    exact (u32_extends w NFS3ERR_ACCES).trans (putWccData_extends _ fs _)

theorem Short.begins {w : XdrWriter} {reply : QByteArray} (h : Short w reply) :
    w.data <+: reply := by
  obtain ⟨w', n, rfl, hgrown, -⟩ := h
  exact hgrown.begins

variable {w} (hw : w.data.length % 4 = 0)

include hw

theorem readlink_extends (r : XdrReader) : w.data <+: (readlink F s fs w r).reply := by
  obtain ⟨w', hreply, hgrown⟩ := readlink_grown (F := F) (s := s) fs r hw
  rw [hreply]
  exact hgrown.begins

theorem read_extends (r : XdrReader) : w.data <+: (read F s fs w r).reply := by
  by_cases hopen : ∃ content, (readRead s r).ok = true ∧
      F.openRead fs (readRead s r).path = some content
  · obtain ⟨content, hok, hcontent⟩ := hopen
    obtain ⟨w', hreply, hgrown⟩ := read_grown (F := F) fs r hw hok hcontent
    rw [hreply]
    exact hgrown.begins
  · exact (read_refused_short fs r hw fun content hok hcontent =>
      hopen ⟨content, hok, hcontent⟩).begins

theorem nfsProcedure_extends (r : XdrReader) (proc : UInt32) :
    w.data <+: (nfsProcedure F s fs w r proc).reply := by
  unfold nfsProcedure
  split
  · exact List.prefix_refl _
  · exact (getattr_short fs r hw).begins
  · exact (setattr_short fs r hw).begins
  · exact lookup_extends s fs w r
  · exact (access_short fs r hw).begins
  · exact readlink_extends s fs hw r
  · exact read_extends s fs hw r
  · exact (write_short fs r hw).begins
  · exact create_extends s fs w r
  · exact mkdir_extends s fs w r
  · exact (removeEntry_short fs r hw F.remove).begins
  · exact (removeEntry_short fs r hw F.rmdir).begins
  · exact (rename_short fs r hw).begins
  · exact readdir_extends s fs w r false
  · exact readdir_extends s fs w r true
  · exact (fsstat_short fs r hw).begins
  · exact (fsinfo_short fs r hw).begins
  · exact (pathconf_short fs r hw).begins
  · exact (commit_short fs r hw).begins
  · exact u32_extends w NFS3ERR_ACCES

omit hw in
theorem mountProcedure_extends (w : XdrWriter) (proc : UInt32) :
    w.data <+: (mountProcedure s fs w proc).reply := by
  unfold mountProcedure
  split
  · exact List.prefix_refl _
  · generalize s.fileHandle s.exportDir = minted
    exact (u32_extends w NFS3_OK).trans ((opaqueVar_extends _ minted.1).trans
      ((u32_extends _ 1).trans (u32_extends _ 0)))
  · exact u32_extends w 0
  · exact u32_extends w 0
  · exact u32_extends w NFS3ERR_ACCES

omit hw in
theorem portmapProcedure_extends (w : XdrWriter) (proc : UInt32) :
    w.data <+: (portmapProcedure s fs w proc).reply := by
  unfold portmapProcedure
  split
  · exact List.prefix_refl _
  · exact u32_extends w _
  · exact u32_extends w 0

end Replies

section Headers

variable {σ : Type} {F : FileSystem σ} {s : NfsServer} {fs : σ} {request : QByteArray}

theorem reply_of_known {call : RpcCall} {r : XdrReader}
    (haccept : acceptCall request = some (call, r)) (hknown : call.header.Known) :
    BigEndian.bytes32 call.xid <+: (handleDatagram F s fs request).reply := by
  have hxid : BigEndian.bytes32 call.xid <+: (putReplyHeader ⟨[]⟩ call.xid).data :=
    ⟨[1, 0, 0, 0, 0].flatMap BigEndian.bytes32, rfl⟩
  have hheader : (putReplyHeader ⟨[]⟩ call.xid).data.length = 24 := rfl
  refine hxid.trans ?_
  rw [handleDatagram, haccept]
  simp only
  split
  · exact portmapProcedure_extends s fs _ call.proc
  · rename_i hportmap
    split
    · exact mountProcedure_extends s fs _ call.proc
    · rename_i hmount
      rcases hknown with h | h | h
      · exact absurd h hportmap
      · exact absurd h hmount
      · have hnfs : call.prog = PROG_NFS ∧ call.vers = 3 := h
        rw [if_pos hnfs]
        exact nfsProcedure_extends s fs (by rw [hheader]) r call.proc

theorem reply_of_unknown {call : RpcCall} {r : XdrReader}
    (haccept : acceptCall request = some (call, r)) (hknown : ¬ call.header.Known) :
    (handleDatagram F s fs request).reply = [] := by
  have hportmap : call.prog ≠ PROG_PORTMAP := fun h => hknown (.inl h)
  have hmount : call.prog ≠ PROG_MOUNT := fun h => hknown (.inr (.inl h))
  have hnfs : ¬ (call.prog = PROG_NFS ∧ call.vers = 3) := fun h => hknown (.inr (.inr h))
  rw [handleDatagram, haccept]
  simp only [if_neg hportmap, if_neg hmount, if_neg hnfs]

theorem reply_of_refused (haccept : acceptCall request = none) :
    (handleDatagram F s fs request).reply = [] := by
  rw [handleDatagram, haccept]

theorem reply_ne_nil_of_overrun {h : CallHeader} {rest : QByteArray}
    (hover : Overrun request h rest) (hknown : h.Known) :
    (handleDatagram F s fs request).reply ≠ [] := by
  obtain ⟨call, r, haccept, rfl, -⟩ := acceptCall_overrun hover
  intro hnil
  have hxid : _ ≤ (handleDatagram F s fs request).reply.length :=
    (reply_of_known haccept hknown).length_le
  rw [hnil, BigEndian.length_bytes32] at hxid
  exact absurd hxid (by decide)

theorem call_header_checked_iff (F : FileSystem σ) (s : NfsServer) (fs : σ)
    (request : QByteArray) :
    HeaderChecked F s fs request ↔ ∀ h rest, h.Known → ¬ Overrun request h rest := by
  constructor
  · intro hchecked h rest hknown hover
    exact reply_ne_nil_of_overrun hover hknown
      (hchecked.refused fun h' args hcall => absurd hcall (not_isCall_of_overrun hover))
  · intro hover
    refine ⟨fun hnone => ?_, fun h args hcall hknown => ?_, fun call r haccept hknown => ?_⟩
    · cases haccept : acceptCall request with
      | none => exact reply_of_refused haccept
      | some pair =>
        obtain ⟨call, r⟩ := pair
        refine reply_of_unknown haccept fun hknown => ?_
        obtain ⟨args, -, hcall | hcall⟩ := acceptCall_cases haccept
        · exact hnone _ args hcall hknown
        · exact hover _ args hknown hcall
    · obtain ⟨call, r, haccept, rfl, -⟩ := acceptCall_isCall hcall
      exact reply_of_known haccept hknown
    · obtain ⟨args, hat, hcall | hcall⟩ := acceptCall_cases haccept
      · exact ⟨args, hcall, hat⟩
      · exact absurd hcall (hover _ args hknown)

end Headers

-- A credential that says it has 1000 bytes, and a verifier of none behind its length.
def overrunRequest : QByteArray :=
  [7, 0, 2, PROG_NFS, 3, 0, 1, 1000, 0, 0].flatMap BigEndian.bytes32

theorem overrun_answered :
    ¬ ∀ (σ : Type) (F : FileSystem σ) (s : NfsServer) (fs : σ) (request : QByteArray),
      HeaderChecked F s fs request := by
  intro h
  have hover : Overrun overrunRequest ⟨7, PROG_NFS, 3, 0⟩ [] :=
    ⟨1, 1000, [0, 0, 0, 0, 0, 0, 0, 0], ⟨0, 0, [], [], rfl, rfl, by decide⟩, by decide, by decide⟩
  have hchecked := h PathStore PathStore.fileSystem (.start "/srv" 2049) QMap.empty overrunRequest
  exact reply_ne_nil_of_overrun hover (.inr (.inr ⟨rfl, rfl⟩))
    (hchecked.refused fun h' args hcall => absurd hcall (not_isCall_of_overrun hover))

end Nfs
