import MacXterm.Tools.Nfs.StoreEnvironment

namespace Nfs

open Qt Xdr

variable {σ : Type} {E : Environment σ} {F : FileSystem σ}

section Reply

variable (w : XdrWriter)

theorem u32_extends (v : UInt32) : w.data <+: (w.u32 v).data := List.prefix_append _ _

theorem opaqueFixed_extends (b : QByteArray) : w.data <+: (w.opaqueFixed b).data := by
  rw [XdrWriter.opaqueFixed, List.append_assoc]
  exact List.prefix_append _ _

theorem opaqueVar_extends (b : QByteArray) : w.data <+: (w.opaqueVar b).data :=
  (u32_extends w (.ofNat b.length)).trans (opaqueFixed_extends _ b)

theorem putFattr3_data (st : Stat) :
    ∃ attributes : QByteArray, attributes.length = 84 ∧
      (putFattr3 w st).data = w.data ++ attributes := by
  refine ⟨(putFattr3 ⟨[]⟩ st).data, ?_, ?_⟩
  · simp only [putFattr3, XdrWriter.u64, XdrWriter.u32, List.nil_append, List.length_append,
      BigEndian.length_bytes32]
  · simp only [putFattr3, XdrWriter.u64, XdrWriter.u32, List.nil_append, List.append_assoc]

theorem putPostOpAttr_extends (fs : σ) (p : QString) :
    w.data <+: (putPostOpAttr F fs w p).data := by
  rw [putPostOpAttr]
  split
  · rename_i st _
    obtain ⟨attributes, -, hdata⟩ := putFattr3_data (w.u32 1) st
    rw [hdata]
    exact (u32_extends w 1).trans (List.prefix_append _ _)
  · exact u32_extends w 0

theorem putWccData_extends (fs : σ) (p : QString) : w.data <+: (putWccData F fs w p).data :=
  (u32_extends w 0).trans (putPostOpAttr_extends _ fs p)

theorem putWccData_twice_extends (fs : σ) (p q : QString) :
    w.data <+: (putWccData F fs (putWccData F fs w p) q).data :=
  (putWccData_extends w fs p).trans (putWccData_extends _ fs q)

theorem written_extends (fs : σ) (p : QString) (count : UInt32) (verf : QByteArray) :
    w.data <+: ((((putWccData F fs w p).u32 count).u32 2).opaqueFixed verf).data :=
  (putWccData_extends w fs p).trans ((u32_extends _ count).trans
    ((u32_extends _ 2).trans (opaqueFixed_extends _ verf)))

theorem putCreated_extends (s : NfsServer) (fs : σ) (dir child : QString) :
    (w.u32 NFS3_OK).data <+: (putCreated F s fs w dir child).reply := by
  rw [putCreated]
  exact (u32_extends _ 1).trans ((opaqueVar_extends _ _).trans
    ((putPostOpAttr_extends _ fs child).trans (putWccData_extends _ fs dir)))

variable {w} {xid : UInt32} {reply : QByteArray}

theorem replyStatus_of_extends {v : UInt32}
    (h : ((putReplyHeader ⟨[]⟩ xid).u32 v).data <+: reply) : replyStatus reply = v := by
  obtain ⟨rest, rfl⟩ := h
  have hstart := XdrReader.at_start ((putReplyHeader ⟨[]⟩ xid).data ++
    (BigEndian.bytes32 v ++ rest))
  obtain ⟨r, hr, -⟩ := hstart.skip.u32
  rw [replyStatus]
  have hdata : ((putReplyHeader ⟨[]⟩ xid).u32 v).data ++ rest =
      (putReplyHeader ⟨[]⟩ xid).data ++ (BigEndian.bytes32 v ++ rest) := List.append_assoc _ _ _
  rw [hdata]
  exact congrArg Prod.fst hr

theorem header_length (xid v : UInt32) : ((putReplyHeader ⟨[]⟩ xid).u32 v).data.length = 28 := rfl

theorem skipAttributes_none {r : XdrReader} {rest : QByteArray} (n : Nat)
    (h : r.At (BigEndian.bytes32 0 ++ rest)) : (skipAttributes r n).At rest := by
  obtain ⟨r₁, h₁, hr₁⟩ := h.u32
  rw [skipAttributes, h₁]
  exact hr₁

theorem skipAttributes_some {r : XdrReader} {attributes rest : QByteArray}
    (h : r.At (BigEndian.bytes32 1 ++ (attributes ++ rest))) :
    (skipAttributes r attributes.length).At rest := by
  obtain ⟨r₁, h₁, hr₁⟩ := h.u32
  rw [skipAttributes, h₁]
  exact hr₁.skip

theorem replyCount_of_start {start post rest : QByteArray} {count : UInt32}
    (hstart : start.length = 28)
    (hpost : post = BigEndian.bytes32 0 ∨
      ∃ attributes, attributes.length = 84 ∧ post = BigEndian.bytes32 1 ++ attributes) :
    replyCount (start ++ (BigEndian.bytes32 0 ++ (post ++ (BigEndian.bytes32 count ++ rest)))) =
      count := by
  have hat := (XdrReader.at_start (start ++ (BigEndian.bytes32 0 ++
    (post ++ (BigEndian.bytes32 count ++ rest))))).skip
  simp only [hstart, Nat.zero_add] at hat
  have hpre := skipAttributes_none 24 hat
  have hcount : (skipAttributes (skipAttributes ⟨start ++ (BigEndian.bytes32 0 ++
      (post ++ (BigEndian.bytes32 count ++ rest))), 28⟩ 24) 84).At
      (BigEndian.bytes32 count ++ rest) := by
    rcases hpost with hpost | ⟨attributes, hlen, hpost⟩
    · subst hpost
      exact skipAttributes_none 84 hpre
    · subst hpost
      rw [List.append_assoc] at hpre
      rw [← hlen]
      exact skipAttributes_some hpre
  obtain ⟨r, hr, -⟩ := hcount.u32
  exact congrArg Prod.fst hr

theorem putPostOpAttr_data (w : XdrWriter) (fs : σ) (p : QString) :
    ∃ post, (putPostOpAttr F fs w p).data = w.data ++ post ∧
      (post = BigEndian.bytes32 0 ∨
        ∃ attributes, attributes.length = 84 ∧ post = BigEndian.bytes32 1 ++ attributes) := by
  rw [putPostOpAttr]
  split
  · rename_i st _
    obtain ⟨attributes, hlen, hdata⟩ := putFattr3_data (w.u32 1) st
    refine ⟨BigEndian.bytes32 1 ++ attributes, ?_, .inr ⟨attributes, hlen, rfl⟩⟩
    rw [hdata]
    exact List.append_assoc _ _ _
  · exact ⟨BigEndian.bytes32 0, rfl, .inl rfl⟩

theorem replyCount_write {w : XdrWriter} (hw : w.data.length = 28) (fs : σ) (p : QString)
    (count : UInt32) (verf : QByteArray) :
    replyCount ((((putWccData F fs w p).u32 count).u32 2).opaqueFixed verf).data = count := by
  obtain ⟨post, hdata, hpost⟩ := putPostOpAttr_data (F := F) (w.u32 0) fs p
  change (putWccData F fs w p).data = _ at hdata
  simp only [XdrWriter.opaqueFixed, XdrWriter.u32] at hdata ⊢
  rw [hdata]
  simp only [List.append_assoc]
  exact replyCount_of_start hw hpost

end Reply

section Outcomes

variable {change : Change} {fs : σ} {o : Outcome σ} {xid : UInt32}

theorem truthful_ok (h : ((putReplyHeader ⟨[]⟩ xid).u32 NFS3_OK).data <+: o.reply) :
    Truthful E F fs change o ↔ change.Done E F fs o.fs o.reply := by
  have hstatus := replyStatus_of_extends h
  exact ⟨fun ht => ht.1 hstatus, fun hd => ⟨fun _ => hd, fun hne => absurd hstatus hne⟩⟩

theorem truthful_refused (h : ((putReplyHeader ⟨[]⟩ xid).u32 NFS3ERR_ACCES).data <+: o.reply)
    (hfs : o.fs = fs) : Truthful E F fs change o := by
  have hstatus := replyStatus_of_extends h
  exact ⟨fun hok => absurd (hstatus.symm.trans hok) (by decide), fun _ => hfs⟩

end Outcomes

theorem nfsStat_eq {fs : σ} {p : QString} (hp : p ≠ []) : nfsStat F fs p = F.stat fs p :=
  if_neg hp

theorem nfsStat_of_none {fs : σ} {p : QString} (h : F.stat fs p = none) :
    nfsStat F fs p = none := by
  rw [nfsStat, h, ite_self]

section Write

theorem length_splice {old body : QByteArray} (pos : Nat) (h : body ≠ []) :
    (PathStore.splice old pos body).length = max old.length (pos + body.length) := by
  rw [PathStore.splice, if_neg h]
  simp only [List.length_append, List.length_take, List.length_drop, List.length_replicate]
  omega

-- QFile::seek fails from 2^63 on, and the bytes then go to the start of the file.
theorem splice_seek_iff {old body : QByteArray} {offset : UInt64} (hold : old.length < 2 ^ 63)
    (hbody : body.length < 2 ^ 63) :
    PathStore.splice old (seek offset) body = PathStore.splice old offset.toNat body ↔
      body = [] ∨ offset.toNat < 2 ^ 63 := by
  constructor
  · intro h
    by_contra hneither
    rw [not_or, Nat.not_lt] at hneither
    obtain ⟨hne, hlarge⟩ := hneither
    have hstart : seek offset = 0 := if_neg (Nat.not_lt.mpr hlarge)
    have hlen := congrArg List.length h
    rw [length_splice _ hne, length_splice _ hne, hstart] at hlen
    omega
  · rintro (rfl | hsmall)
    · rfl
    · rw [seek, if_pos hsmall]

theorem toNat_ofInt32 {n : Nat} (h : n < 2 ^ 32) : (UInt32.ofInt n).toNat = n := by
  have hmod : (n : Int) % 2 ^ 32 = (n : Int) := by omega
  have hofInt : UInt32.ofInt n = UInt32.ofNat n := by
    rw [UInt32.ofInt, hmod]
    rfl
  rw [hofInt, UInt32.toNat_ofNat_of_lt' h]

variable {fs : σ} {p : QString} {pos : Nat} {data : QByteArray}

-- A write that fails at once is reported as 4294967295 bytes.
theorem count_eq_takes_iff (hlen : data.length < 2 ^ 32)
    (htakes : E.takes fs p pos data ≤ data.length) :
    (UInt32.ofInt (E.reported fs p pos data)).toNat = E.takes fs p pos data ↔
      data = [] ∨ 0 < E.takes fs p pos data ∧
        (E.buffers fs p data = true → E.takes fs p pos data = data.length) := by
  have hempty : data = [] ↔ data.length = 0 := List.length_eq_zero_iff.symm
  rw [Environment.reported]
  split
  · rename_i hbuffers
    rw [toNat_ofInt32 hlen, hempty, hbuffers]
    simp only [forall_const]
    omega
  · rename_i hdirect
    split
    · rename_i hfailed
      have hcount : (UInt32.ofInt (-1)).toNat = 2 ^ 32 - 1 := by decide
      rw [hcount, hfailed.1]
      simp only [hfailed.2, Nat.lt_irrefl, false_and, or_self, iff_false]
      decide
    · rename_i hsome
      rw [toNat_ofInt32 (by omega)]
      simp only [hdirect, Bool.false_eq_true, IsEmpty.forall_iff, and_true, true_iff]
      by_cases hnil : data = []
      · exact Or.inl hnil
      · refine Or.inr (Nat.pos_of_ne_zero fun hzero => hsome ⟨hzero, hnil⟩)

theorem write_done_iff {gs : σ} {offset : UInt64} {reply : QByteArray}
    (hlen : data.length < 2 ^ 32) (hfits : (E.content fs p).length < 2 ^ 63)
    (htakes : E.takes fs p (seek offset) data ≤ data.length)
    (hcontent : E.content gs p = PathStore.splice (E.content fs p) (seek offset)
      (data.take (E.takes fs p (seek offset) data)))
    (hreply : replyCount reply = .ofInt (E.reported fs p (seek offset) data)) :
    (Change.write p offset data).Done E F fs gs reply ↔
      data = [] ∨ offset.toNat < 2 ^ 63 ∧ 0 < E.takes fs p (seek offset) data ∧
        (E.buffers fs p data = true → E.takes fs p (seek offset) data = data.length) := by
  have hcount := count_eq_takes_iff hlen htakes
  have hplace : _ ↔ data.take (E.takes fs p (seek offset) data) = [] ∨ offset.toNat < 2 ^ 63 :=
    splice_seek_iff hfits (by rw [List.length_take]; omega)
  simp only [Change.Done, hreply, hcontent]
  constructor
  · rintro ⟨-, heq, hsplice⟩
    rw [heq] at hsplice
    rcases hcount.mp heq with hnil | ⟨hpos, hall⟩
    · exact Or.inl hnil
    · rcases hplace.mp hsplice with hnone | hsmall
      · rcases List.take_eq_nil_iff.mp hnone with hzero | hnil
        · exact absurd hzero (Nat.ne_of_gt hpos)
        · exact Or.inl hnil
      · exact Or.inr ⟨hsmall, hpos, hall⟩
  · intro h
    have heq := hcount.mpr (h.imp_right And.right)
    rw [heq]
    refine ⟨htakes, rfl, hplace.mpr ?_⟩
    rcases h with hnil | ⟨hsmall, -, -⟩
    · exact Or.inl (by rw [hnil, List.take_nil])
    · exact Or.inr hsmall

end Write

section Setattr

variable {fs : σ} {p : QString} {mode : Option UInt32} {size : Option UInt64}

theorem chmod_leaves (hE : E.Documents F) (fs : σ) (hp : p ≠ []) (mode : Option UInt32) :
    modeAt F (mode.elim fs (F.chmod fs p)) p = (chmodAnswer E fs p mode <|> modeAt F fs p) ∧
      sizeAt F (mode.elim fs (F.chmod fs p)) p = sizeAt F fs p := by
  cases mode with
  | none => exact ⟨rfl, rfl⟩
  | some m =>
    simp only [Option.elim_some, chmodAnswer, Option.bind_some]
    cases hanswer : E.chmod fs p m with
    | none =>
      rw [hE.chmod_refused fs p m hanswer]
      exact ⟨rfl, rfl⟩
    | some left =>
      obtain ⟨st, st', hbefore, hafter, hleft, hsize⟩ := hE.chmod_done fs p m left hanswer
      simp only [modeAt, sizeAt, nfsStat_eq hp, hbefore, hafter, Option.map_some, hleft, hsize,
        and_true]
      rfl

theorem truncate_leaves (hE : E.Documents F) (fs : σ) (hp : p ≠ []) (n : UInt64) :
    modeAt F (F.truncate fs p n.toInt64) p =
        (E.truncate fs p n.toInt64 <|> modeAt F fs p) ∧
      sizeAt F (F.truncate fs p n.toInt64) p =
        if E.truncate fs p n.toInt64 = none then sizeAt F fs p else some n := by
  cases hanswer : E.truncate fs p n.toInt64 with
  | none =>
    rw [hE.truncate_refused fs p _ hanswer]
    exact ⟨rfl, rfl⟩
  | some left =>
    obtain ⟨st, hafter, hleft, hsize⟩ := hE.truncate_done fs p _ left hanswer
    simp only [modeAt, sizeAt, nfsStat_eq hp, hafter, Option.map_some, hleft, hsize,
      UInt64.toUInt64_toInt64]
    exact ⟨rfl, rfl⟩

def afterSetattr (F : FileSystem σ) (fs : σ) (p : QString) (mode : Option UInt32)
    (size : Option UInt64) : σ :=
  let mid := mode.elim fs (F.chmod fs p)
  size.elim mid fun n => F.truncate mid p n.toInt64

theorem applySetattr_eq (fs : σ) (p : QString) (mode : Option UInt32) (size : Option UInt64) :
    applySetattr F fs ⟨p, mode.isSome, mode.getD 0, size.isSome, size.getD 0, true⟩ =
      afterSetattr F fs p (mode.map permitted) size := by
  cases mode <;> cases size <;> rfl

theorem modeAt_afterSetattr (hE : E.Documents F) (hp : p ≠ []) :
    modeAt F (afterSetattr F fs p mode size) p = leftMode E F fs p mode size := by
  obtain ⟨hmode, -⟩ := chmod_leaves hE fs hp mode
  cases size with
  | none => exact hmode
  | some n =>
    have hcut := (truncate_leaves hE (mode.elim fs (F.chmod fs p)) hp n).1
    rw [hmode] at hcut
    exact hcut

theorem sizeAt_afterSetattr (hE : E.Documents F) (hp : p ≠ []) :
    sizeAt F (afterSetattr F fs p mode size) p =
      if truncateAnswer E F fs p mode size = none then sizeAt F fs p else size := by
  obtain ⟨-, hsize⟩ := chmod_leaves hE fs hp mode
  cases size with
  | none => exact hsize
  | some n =>
    have hcut := (truncate_leaves hE (mode.elim fs (F.chmod fs p)) hp n).2
    rw [hsize] at hcut
    exact hcut

theorem setattr_done_iff (hE : E.Documents F) (hp : p ≠ [])
    (guard : Option (UInt32 × UInt32)) (reply : QByteArray) :
    (Change.setattr p mode size guard).Done E F fs (afterSetattr F fs p mode size) reply ↔
      (Change.setattr p mode size guard).Honoured E F fs := by
  simp only [Change.Done, Change.Honoured, if_neg hp, modeAt_afterSetattr hE hp,
    sizeAt_afterSetattr hE hp]
  cases hanswer : truncateAnswer E F fs p mode size with
  | none =>
    simp only [if_true, ne_eq, not_true_eq_false, false_or, and_true]
    constructor
    · rintro ⟨hmode, hsize, hguard⟩
      exact ⟨hmode, hsize, fun hfails => ⟨hguard hfails, hsize⟩⟩
    · rintro ⟨hmode, hsize, hguard⟩
      exact ⟨hmode, hsize, fun hfails => (hguard hfails).1⟩
  | some left =>
    have hasked : size ≠ none := by
      rintro rfl
      exact absurd hanswer (by simp [truncateAnswer])
    obtain ⟨n, rfl⟩ := Option.ne_none_iff_exists'.mp hasked
    simp only [reduceCtorEq, if_false, ne_eq, not_false_eq_true, true_or, implies_true,
      Option.some.injEq, imp_self, true_and, forall_eq']
    constructor
    · rintro ⟨hmode, hguard⟩
      exact ⟨hmode, fun hfails => ⟨(hguard hfails).1, (hguard hfails).2.symm⟩⟩
    · rintro ⟨hmode, hguard⟩
      exact ⟨hmode, fun hfails => ⟨(hguard hfails).1, (hguard hfails).2.symm⟩⟩

theorem setattr_unknown_iff (guard : Option (UInt32 × UInt32)) (reply : QByteArray) :
    (Change.setattr [] mode size guard).Done E F fs fs reply ↔
      (Change.setattr [] mode size guard).Honoured E F fs := by
  have hmode : modeAt F fs [] = none := rfl
  have hsize : sizeAt F fs [] = none := rfl
  simp only [Change.Done, Change.Honoured, if_true, hmode, hsize, and_self, implies_true, and_true,
    reduceCtorEq, imp_false, Option.eq_none_iff_forall_ne_some, ne_eq]

end Setattr

section Procedures

variable (s : NfsServer) (fs : σ) {r : XdrReader} {rest : QByteArray} (xid : UInt32)

theorem guard_of_named {s : NfsServer} {v : Grammar.diropargs3.Value} (h : s.named v ≠ []) :
    (true && decide (s.pathForHandle v.1.2.val ≠ [])) = true := by
  rw [Bool.true_and, decide_eq_true_eq]
  exact NfsServer.dir_ne_nil h

theorem removeEntry_truthful {op : σ → QString → Option σ} {v}
    (hr : r.At (Grammar.diropargs3.encode v ++ rest))
    (hop : ∀ gs, op fs (s.named v) = some gs → F.stat gs (s.named v) = none) :
    Truthful E F fs (.remove (s.named v))
      (removeEntry F s fs (putReplyHeader ⟨[]⟩ xid) r op) := by
  obtain ⟨r', hname, -⟩ := readName_encode s hr
  simp only [removeEntry, hname]
  split
  · rename_i gs _ hgs
    exact (truthful_ok (putWccData_extends _ gs _)).mpr (nfsStat_of_none (hop gs hgs))
  · exact truthful_refused (putWccData_extends _ fs _) rfl

theorem mkdir_truthful (hF : F.Lawful) (hE : E.Documents F) {v}
    (hr : r.At ((Grammar.diropargs3.pair Grammar.sattr3).encode v ++ rest)) :
    Truthful E F fs (Procedure.mkdir.change s v) (mkdir F s fs (putReplyHeader ⟨[]⟩ xid) r) ↔
      (Procedure.mkdir.change s v).Honoured E F fs := by
  have hchild : ∀ gs, F.mkdir fs (s.named v.1) = some gs → s.named v.1 ≠ [] := by
    intro gs hgs hnil
    rw [hnil, hF.mkdir_nil] at hgs
    exact absurd hgs (by simp)
  obtain ⟨r', hname⟩ := readMkdir_encode s hr
  simp only [mkdir, hname, Procedure.change, Change.Honoured]
  split
  · rename_i gs _ hgs
    change F.mkdir fs (s.named v.1) = some gs at hgs
    obtain ⟨st, hst, hdir, hmode⟩ := hE.mkdir _ _ _ hgs
    rw [truthful_ok (putCreated_extends _ s gs _ _)]
    change (∃ st, nfsStat F gs (s.named v.1) = some st ∧ _) ↔ _
    simp only [nfsStat_eq (hchild gs hgs), hst, hgs, Option.some.injEq, exists_eq_left', hdir,
      hmode, true_and, reduceCtorEq, false_or]
  · rename_i hfail
    refine iff_of_true (truthful_refused (putWccData_extends _ fs _) rfl) (Or.inl ?_)
    cases hgs : F.mkdir fs (s.named v.1) with
    | none => rfl
    | some gs => exact (hfail gs (guard_of_named (hchild gs hgs)) hgs).elim

theorem create_truthful (hF : F.Lawful) (hE : E.Documents F) {v}
    (hr : r.At ((Grammar.diropargs3.pair Grammar.createhow3).encode v ++ rest)) :
    Truthful E F fs (Procedure.create.change s v) (create F s fs (putReplyHeader ⟨[]⟩ xid) r) ↔
      (Procedure.create.change s v).Honoured E F fs := by
  have hchild : ∀ result, F.openWrite fs (s.named v.1) [] = some result → s.named v.1 ≠ [] := by
    intro result hopen hnil
    rw [hnil, hF.openWrite_nil] at hopen
    exact absurd hopen (by simp)
  obtain ⟨r', hname⟩ := readCreate_encode s hr
  simp only [create, hname, Procedure.change, Change.Honoured]
  split
  · rename_i gs n _ hopen
    change F.openWrite fs (s.named v.1) [] = some (gs, n) at hopen
    obtain ⟨st, hst, hdir, hsize, hmode⟩ := hE.openWrite _ _ _ hopen
    rw [truthful_ok (putCreated_extends _ s gs _ _)]
    change (_ ∧ ∃ st, nfsStat F gs (s.named v.1) = some st ∧ _) ↔ _
    simp only [nfsStat_eq (hchild _ hopen), hst, hopen, Option.some.injEq, exists_eq_left', hdir,
      hmode, hsize, true_and, reduceCtorEq, false_or, eq_comm (a := (0 : UInt64))]
  · rename_i hfail
    refine iff_of_true (truthful_refused (putWccData_extends _ fs _) rfl) (Or.inl ?_)
    cases hopen : F.openWrite fs (s.named v.1) [] with
    | none => rfl
    | some result => exact (hfail result.1 result.2 (guard_of_named (hchild _ hopen)) hopen).elim

theorem readName_twice {v}
    (hr : r.At ((Grammar.diropargs3.pair Grammar.diropargs3).encode v ++ rest)) :
    s.childWithin (readName s r).dir (readName s r).name = s.named v.1 ∧
      s.childWithin (readName s (readName s r).rest).dir (readName s (readName s r).rest).name =
        s.named v.2 := by
  rw [Codec.encode_pair, List.append_assoc] at hr
  obtain ⟨r₁, hsource, hr₁⟩ := readName_encode s hr
  obtain ⟨r₂, htarget, -⟩ := readName_encode s hr₁
  rw [hsource, htarget]
  exact ⟨rfl, rfl⟩

theorem rename_truthful (hE : E.Documents F) {v}
    (hr : r.At ((Grammar.diropargs3.pair Grammar.diropargs3).encode v ++ rest)) :
    Truthful E F fs (.rename (s.named v.1) (s.named v.2))
      (rename F s fs (putReplyHeader ⟨[]⟩ xid) r) := by
  obtain ⟨hold, hnew⟩ := readName_twice s hr
  unfold rename
  extract_lets source target result
  have hresult : result = F.rename fs (s.named v.1) (s.named v.2) :=
    congrArg₂ (F.rename fs) hold hnew
  clear_value source target result
  split
  · rename_i gs _
    obtain ⟨hgone, hmoved⟩ := hE.rename _ _ _ _ hresult.symm
    exact (truthful_ok (putWccData_twice_extends _ gs _ _)).mpr ⟨nfsStat_of_none hgone, hmoved⟩
  · exact truthful_refused (putWccData_twice_extends _ fs _ _) rfl

theorem write_truthful (hE : E.Documents F) (hfs : E.Fits fs) {v}
    (hr : r.At ((Grammar.nfsFh3.pair (Grammar.uint64.pair (Codec.word.pair
      ((Grammar.enum 3).pair (Grammar.opaqueVar (2 ^ 32 - 1)))))).encode v ++ rest)) :
    Truthful E F fs (Procedure.write.change s v) (write F s fs (putReplyHeader ⟨[]⟩ xid) r) ↔
      (Procedure.write.change s v).Honoured E F fs := by
  have hargs := readWrite_encode s hr
  have hlen : v.2.2.2.2.2.val.length < 2 ^ 32 := by
    rw [v.2.2.2.2.2.property]
    exact v.2.2.2.2.1.val.toNat_lt
  simp only [write, hargs, Procedure.change, Change.Honoured]
  generalize s.pathForHandle v.1.2.val = p
  generalize hyper v.2.1 = offset
  generalize v.2.2.2.2.2.val = data at hlen
  cases hopen : F.openReadWrite fs p (seek offset) data with
  | none => exact iff_of_true (truthful_refused (putWccData_extends _ fs _) rfl) (Or.inl rfl)
  | some result =>
    obtain ⟨gs, n⟩ := result
    obtain ⟨hreported, htakes, hcontent⟩ := hE.openReadWrite _ _ _ _ _ hopen
    change n = _ at hreported
    simp only [reduceCtorEq, false_or]
    rw [truthful_ok (written_extends _ gs p _ _)]
    exact write_done_iff hlen (hfs p) htakes hcontent
      ((replyCount_write (header_length xid NFS3_OK) gs p _ _).trans
        (congrArg UInt32.ofInt hreported))

theorem setattr_truthful (hE : E.Documents F) {v}
    (hr : r.At ((Grammar.nfsFh3.pair
      (Grammar.sattr3.pair (Grammar.optional Grammar.nfstime3))).encode v ++ rest)) :
    Truthful E F fs (Procedure.setattr.change s v) (setattr F s fs (putReplyHeader ⟨[]⟩ xid) r) ↔
      (Procedure.setattr.change s v).Honoured E F fs := by
  have hargs := readSetattr_encode s hr
  have happly := applySetattr_eq (F := F) fs (s.pathForHandle v.1.2.val) (sattrMode v.2.1)
    (sattrSize v.2.1)
  simp only [setattr, hargs, Procedure.change, happly, Bool.true_and, decide_eq_true_eq, ne_eq]
  rw [truthful_ok (putWccData_extends _ _ _)]
  by_cases hp : s.pathForHandle v.1.2.val = []
  · simp only [hp, not_true_eq_false, if_false]
    exact setattr_unknown_iff _ _
  · simp only [hp, not_false_eq_true, if_true]
    exact setattr_done_iff hE hp _ _

end Procedures

def Procedure.perform (F : FileSystem σ) (s : NfsServer) (fs : σ) (w : XdrWriter)
    (r : XdrReader) : Procedure → Outcome σ
  | .setattr => Nfs.setattr F s fs w r
  | .write => Nfs.write F s fs w r
  | .create => Nfs.create F s fs w r
  | .mkdir => Nfs.mkdir F s fs w r
  | .remove => removeEntry F s fs w r F.remove
  | .rmdir => removeEntry F s fs w r F.rmdir
  | .rename => Nfs.rename F s fs w r

theorem nfsProcedure_number (s : NfsServer) (fs : σ) (w : XdrWriter) (r : XdrReader)
    (p : Procedure) : nfsProcedure F s fs w r p.number = p.perform F s fs w r := by
  cases p <;> rfl

def exportedStore : PathStore := .single "/srv" (.dir 0o755)

def sampleHeader (p : Procedure) : p.header.Value :=
  ⟨1, (), ⟨0, ⟨⟨0, by decide⟩, ⟨[], rfl⟩⟩⟩, ⟨0, ⟨⟨0, by decide⟩, ⟨[], rfl⟩⟩⟩⟩

def sampleHandle (id : UInt32) : Grammar.nfsFh3.Value :=
  ⟨⟨32, by decide⟩, ⟨NfsServer.handleBytes id, rfl⟩⟩

def modeOnly (mode : UInt32) : Grammar.sattr3.Value :=
  ⟨⟨⟨1, by decide⟩, ⟨some mode, rfl⟩⟩, ⟨⟨0, by decide⟩, ⟨none, rfl⟩⟩,
    ⟨⟨0, by decide⟩, ⟨none, rfl⟩⟩, ⟨⟨0, by decide⟩, ⟨none, rfl⟩⟩, ⟨⟨0, by decide⟩, ⟨none, rfl⟩⟩,
    ⟨⟨0, by decide⟩, ⟨none, rfl⟩⟩⟩

def noAttributes : Grammar.sattr3.Value :=
  ⟨⟨⟨0, by decide⟩, ⟨none, rfl⟩⟩, ⟨⟨0, by decide⟩, ⟨none, rfl⟩⟩, ⟨⟨0, by decide⟩, ⟨none, rfl⟩⟩,
    ⟨⟨0, by decide⟩, ⟨none, rfl⟩⟩, ⟨⟨0, by decide⟩, ⟨none, rfl⟩⟩, ⟨⟨0, by decide⟩, ⟨none, rfl⟩⟩⟩

def noAuth : Grammar.opaqueAuth.Value := ⟨0, ⟨⟨0, by decide⟩, ⟨[], rfl⟩⟩⟩

def oneByte (byte : UInt8) : Grammar.filename3.Value := ⟨⟨1, by decide⟩, ⟨[byte], rfl⟩⟩

def sampleMkdir : Procedure.mkdir.call.Value :=
  ⟨sampleHeader .mkdir, ⟨⟨sampleHandle 1, ⟨⟨1, by decide⟩, ⟨[100], rfl⟩⟩⟩, modeOnly 0o755⟩⟩

theorem exportedStore_fits : storeEnvironment.Fits exportedStore := by
  intro p
  simp only [storeEnvironment, exportedStore, PathStore.find_single]
  split
  · rename_i h
    split at h
    · exact absurd h (by simp)
    · exact absurd h (by simp)
  · decide

def staleSetattr : Procedure.setattr.call.Value :=
  ⟨sampleHeader .setattr, ⟨sampleHandle 2, ⟨modeOnly 0o600, ⟨⟨0, by decide⟩, ⟨none, rfl⟩⟩⟩⟩⟩

end Nfs
