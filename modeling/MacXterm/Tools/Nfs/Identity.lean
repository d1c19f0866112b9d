import MacXterm.Lib.Occupancy
import MacXterm.Tools.Nfs.Containment
import MacXterm.Tools.Nfs.Effect
import MacXterm.Tools.Nfs.HandleTable

namespace Nfs

open Qt Xdr Occupancy

variable {σ : Type} {F : FileSystem σ}

-- An object is known by when and where it appeared; no object appears twice.
abbrev Object := Nat × QString

structure World (σ : Type) where
  server : NfsServer
  fs : σ
  occupant : QString → Option Object
  clock : Nat
  given : QByteArray → Object → Prop

def named (F : FileSystem σ) (fs : σ) (q : QString) : Bool :=
  decide (q ≠ []) && decide (QDir.cleanPath q = q) && F.pathExists fs q

def source (occ : QString → Option Object) (e : Effect) (q : QString) : QString :=
  match e with
  | .rename old new =>
      if ¬QDir.Inside old q ∧ (occ q).isSome = true then q else movedFrom old new q
  | _ => q

def occupantAfter (F : FileSystem σ) (gs : σ) (occ : QString → Option Object) (clock : Nat)
    (e : Effect) (q : QString) : Option Object :=
  if named F gs q then some ((occ (source occ e q)).getD (clock, q)) else none

namespace World

def start (F : FileSystem σ) (exportDir : QString) (port : UInt16) (fs : σ) : World σ :=
  let server := NfsServer.start exportDir port
  let occupant q := if named F fs q then some (0, q) else none
  ⟨server, fs, occupant, 1, fun fh i => occupant (server.pathForHandle fh) = some i⟩

-- A handle in the table counts as given out for whatever object its path holds.
def after (F : FileSystem σ) (w : World σ) (server : NfsServer) (gs : σ) (e : Effect) : World σ :=
  let occupant := occupantAfter F gs w.occupant w.clock e
  ⟨server, gs, occupant, w.clock + 1,
    fun fh i => w.given fh i ∨ occupant (server.pathForHandle fh) = some i⟩

def step (F : FileSystem σ) (w : World σ) (request : QByteArray) : World σ :=
  let o := handleDatagram F w.server w.fs request
  w.after F o.server o.fs (effect F w.server w.fs request)

def run (F : FileSystem σ) (w : World σ) (requests : List QByteArray) : World σ :=
  requests.foldl (step F) w

def Handed (w : World σ) (p : QString) : Prop :=
  ∃ fh i, w.given fh i ∧ w.server.pathForHandle fh = p

structure SafeEffect (F : FileSystem σ) (w : World σ) (e : Effect) : Prop where
  create : ∀ p, e = .create p → named F w.fs p = true ∨ ¬w.Handed p
  rename : ∀ old new, e = .rename old new → ∀ p, w.Handed p →
    ¬(QDir.Inside old p ∧ named F w.fs p = true) ∧
      ¬(QDir.Inside new p ∧ named F w.fs p = false ∧
        F.pathExists w.fs (movedFrom old new p) = true)

structure Safe (F : FileSystem σ) (w : World σ) (request : QByteArray) : Prop where
  room : w.server.nextHandle.toNat + 64 < 2 ^ 32
  effect : w.SafeEffect F (effect F w.server w.fs request)
  setattr : ∀ r, nfsCall request = some (2, r) → ∀ i, w.given r.opaqueVar.1 i →
    named F w.fs (w.server.pathForHandle r.opaqueVar.1) = true

inductive Reached (F : FileSystem σ) (exportDir : QString) (port : UInt16) (fs : σ) :
    World σ → Prop
  | start : Reached F exportDir port fs (.start F exportDir port fs)
  | step {w : World σ} (request : QByteArray) : Reached F exportDir port fs w →
      w.Safe F request → Reached F exportDir port fs (w.step F request)

def status (reply : QByteArray) : UInt32 := rd32be reply 24

def StaleRefused (F : FileSystem σ) (w : World σ) (request : QByteArray) : Prop :=
  ∀ proc r, nfsCall request = some (proc, r) → proc = 2 ∨ proc = 6 ∨ proc = 7 →
    ∀ i, w.given r.opaqueVar.1 i → Lost w.occupant i →
      status (handleDatagram F w.server w.fs request).reply ≠ NFS3_OK

structure Sound (F : FileSystem σ) (w : World σ) : Prop where
  table : Table w.server
  exists_iff : ∀ q, (w.occupant q).isSome = named F w.fs q
  distinct : Distinct w.occupant
  occupant_old : ∀ q i, w.occupant q = some i → i.1 < w.clock
  given_old : ∀ fh i, w.given fh i → i.1 < w.clock
  given_path : ∀ fh i, w.given fh i → w.server.pathForHandle fh ≠ []
  denotes : ∀ fh i, w.given fh i → Denotes w.occupant (w.server.pathForHandle fh) i
  unique : ∀ fh i j, w.given fh i → w.given fh j → i = j

end World

theorem World.Safe.of_keep {w : World σ} {request : QByteArray} (proc : UInt32)
    (hproc : (nfsCall request).map Prod.fst = some proc) (h2 : proc ≠ 2)
    (hroom : w.server.nextHandle.toNat + 64 < 2 ^ 32)
    (heffect : Nfs.effect F w.server w.fs request = .keep) : w.Safe F request := by
  refine ⟨hroom, heffect ▸ ⟨nofun, nofun⟩, fun r hr => ?_⟩
  rw [hr] at hproc
  exact absurd (Option.some.inj hproc).symm h2

theorem named_iff {fs : σ} {q : QString} :
    named F fs q = true ↔ q ≠ [] ∧ QDir.cleanPath q = q ∧ F.pathExists fs q = true := by
  simp [named, and_assoc]

theorem inside_movedFrom {old new q : QString} (h : QDir.Inside new q) :
    QDir.Inside old (movedFrom old new q) := by
  rw [movedFrom, if_pos h]
  rcases h with rfl | ⟨rest, rfl⟩
  · exact Or.inl (by simp)
  · exact Or.inr ⟨rest, by simp⟩

theorem movedFrom_inj {old new p q : QString} (hp : QDir.Inside new p) (hq : QDir.Inside new q)
    (h : movedFrom old new p = movedFrom old new q) : p = q := by
  rw [movedFrom, movedFrom, if_pos hp, if_pos hq, List.append_cancel_left_eq] at h
  have hprefix {t : QString} (ht : QDir.Inside new t) : new ++ t.drop new.length = t := by
    rcases ht with rfl | ⟨rest, rfl⟩
    · simp
    · simp
  rw [← hprefix hp, ← hprefix hq, h]

section Step

variable {w : World σ} {gs : σ} {e : Effect}

theorem occupantAfter_some {occ : QString → Option Object} {clock : Nat} {q : QString}
    {i : Object} (h : occupantAfter F gs occ clock e q = some i) :
    named F gs q = true ∧
      (occ (source occ e q) = some i ∨ occ (source occ e q) = none ∧ i = (clock, q)) := by
  rw [occupantAfter] at h
  split at h
  · rename_i hnamed
    refine ⟨hnamed, ?_⟩
    cases hocc : occ (source occ e q) with
    | none =>
      rw [hocc] at h
      exact Or.inr ⟨rfl, (Option.some.inj h).symm⟩
    | some j =>
      rw [hocc] at h
      exact Or.inl h
  · exact absurd h (by simp)

theorem isSome_occupantAfter (occ : QString → Option Object) (clock : Nat) (q : QString) :
    (occupantAfter F gs occ clock e q).isSome = named F gs q := by
  rw [occupantAfter]
  cases named F gs q with
  | true => rfl
  | false => rfl

theorem from_source (occ : QString → Option Object) (clock : Nat) :
    From (source occ e) (fun i => i.1 = clock) occ (occupantAfter F gs occ clock e) := by
  intro q i h
  rcases (occupantAfter_some h).2 with h | ⟨-, rfl⟩
  · exact Or.inl h
  · exact Or.inr rfl

variable (hs : w.Sound F)

include hs

theorem occupant_none_iff (q : QString) : w.occupant q = none ↔ named F w.fs q = false := by
  rw [← hs.exists_iff q, Option.isSome_eq_false_iff, Option.isNone_iff_eq_none]

theorem source_inj (hallows : ∀ q, QDir.cleanPath q = q → e.Allows F w.fs gs q) {p q : QString}
    {i : Object} (hp : occupantAfter F gs w.occupant w.clock e p = some i)
    (hq : occupantAfter F gs w.occupant w.clock e q = some i)
    (h : source w.occupant e p = source w.occupant e q) : p = q := by
  cases e with
  | keep => exact h
  | create x => exact h
  | rename old new =>
    have hcase (t : QString) (ht : named F gs t = true) :
        (¬QDir.Inside old t ∧ (w.occupant t).isSome = true) ∨
          ¬(¬QDir.Inside old t ∧ (w.occupant t).isSome = true) ∧ QDir.Inside new t := by
      obtain ⟨hne, hclean, hexists⟩ := named_iff.mp ht
      rcases (hallows t hclean).before hexists with ⟨hold, hbefore⟩ | ⟨hnew, -⟩
      · exact Or.inl ⟨hold, by rw [hs.exists_iff, named_iff]; exact ⟨hne, hclean, hbefore⟩⟩
      · by_cases hstay : ¬QDir.Inside old t ∧ (w.occupant t).isSome = true
        · exact Or.inl hstay
        · exact Or.inr ⟨hstay, hnew⟩
    simp only [source] at h
    rcases hcase p (occupantAfter_some hp).1 with hstay | ⟨hmoved, hin⟩
    · rw [if_pos hstay] at h
      rcases hcase q (occupantAfter_some hq).1 with hstay' | ⟨hmoved', hin'⟩
      · rwa [if_pos hstay'] at h
      · rw [if_neg hmoved'] at h
        exact absurd (h ▸ inside_movedFrom hin') hstay.1
    · rw [if_neg hmoved] at h
      rcases hcase q (occupantAfter_some hq).1 with hstay' | ⟨hmoved', hin'⟩
      · rw [if_pos hstay'] at h
        exact absurd (h ▸ inside_movedFrom hin) hstay'.1
      · rw [if_neg hmoved'] at h
        exact movedFrom_inj hin hin' h

theorem distinct_after (hallows : ∀ q, QDir.cleanPath q = q → e.Allows F w.fs gs q) :
    Distinct (occupantAfter F gs w.occupant w.clock e) := by
  refine hs.distinct.next (from_source w.occupant w.clock)
    (fun p q i hp hq h => source_inj hs hallows hp hq h) ?_
  intro p q i hi hp hq
  have hfresh (t : QString) (ht : occupantAfter F gs w.occupant w.clock e t = some i) :
      i = (w.clock, t) := by
    rcases (occupantAfter_some ht).2 with h | ⟨-, h⟩
    · exact absurd hi (Nat.ne_of_lt (hs.occupant_old _ i h))
    · exact h
  exact congrArg Prod.snd ((hfresh p hp).symm.trans (hfresh q hq))

theorem kept_after (hsafe : w.SafeEffect F e) {p : QString} (hhanded : w.Handed p) {i : Object}
    (hp : w.occupant p = some i) :
    (occupantAfter F gs w.occupant w.clock e p = some i ∨
        occupantAfter F gs w.occupant w.clock e p = none) ∧
      ∀ q, occupantAfter F gs w.occupant w.clock e q = some i → source w.occupant e q = p →
        q = p := by
  have hstill (hsource : source w.occupant e p = p) :
      occupantAfter F gs w.occupant w.clock e p = some i ∨
        occupantAfter F gs w.occupant w.clock e p = none := by
    rw [occupantAfter, hsource, hp]
    cases named F gs p with
    | true => exact Or.inl rfl
    | false => exact Or.inr rfl
  cases e with
  | keep => exact ⟨hstill rfl, fun q _ h => h⟩
  | create x => exact ⟨hstill rfl, fun q _ h => h⟩
  | rename old new =>
    have hnamed : named F w.fs p = true := by
      rw [← hs.exists_iff, hp]
      rfl
    have hold : ¬QDir.Inside old p := fun h =>
      (hsafe.rename old new rfl p hhanded).1 ⟨h, hnamed⟩
    refine ⟨hstill (if_pos ⟨hold, by rw [hp]; rfl⟩), fun q _ h => ?_⟩
    simp only [source] at h
    split at h
    · exact h
    · by_cases hin : QDir.Inside new q
      · exact absurd (h ▸ inside_movedFrom hin) hold
      · rwa [movedFrom, if_neg hin] at h

theorem empty_after (hallows : ∀ q, QDir.cleanPath q = q → e.Allows F w.fs gs q)
    (hsafe : w.SafeEffect F e) {p : QString} (hhanded : w.Handed p) (hp : w.occupant p = none) :
    occupantAfter F gs w.occupant w.clock e p = none := by
  have hnot := (occupant_none_iff hs p).mp hp
  cases hgs : named F gs p with
  | false =>
    rw [occupantAfter, hgs]
    rfl
  | true =>
    obtain ⟨hne, hclean, hexists⟩ := named_iff.mp hgs
    have hbefore := (hallows p hclean).before hexists
    have habsent : ¬F.pathExists w.fs p = true := by
      intro h
      rw [named_iff.mpr ⟨hne, hclean, h⟩] at hnot
      exact absurd hnot (by decide)
    cases e with
    | keep => exact absurd hbefore habsent
    | create x =>
      obtain rfl := hbefore.resolve_left habsent
      rcases hsafe.create _ rfl with h | h
      · rw [hnot] at h
        exact absurd h (by decide)
      · exact absurd hhanded h
    | rename old new =>
      rcases hbefore with ⟨-, h⟩ | ⟨hin, h⟩
      · exact absurd h habsent
      · exact absurd ⟨hin, hnot, h⟩ (hsafe.rename old new rfl p hhanded).2

end Step

theorem World.Sound.start (exportDir : QString) (port : UInt16) (fs : σ) :
    (World.start F exportDir port fs).Sound F := by
  have hsome (q : QString) (i : Object)
      (h : (World.start F exportDir port fs).occupant q = some i) :
      named F fs q = true ∧ i = (0, q) := by
    simp only [World.start] at h
    split at h
    · rename_i hnamed
      exact ⟨hnamed, (Option.some.inj h).symm⟩
    · exact absurd h (by simp)
  have hdistinct : Distinct (World.start F exportDir port fs).occupant := by
    intro p q i hp hq
    exact congrArg Prod.snd ((hsome p i hp).2.symm.trans (hsome q i hq).2)
  refine ⟨.start exportDir port, fun q => ?_, hdistinct, fun q i h => ?_, fun fh i h => ?_,
    fun fh i h => ?_, fun fh i h => Or.inl h, fun fh i j hi hj => ?_⟩
  · simp only [World.start]
    cases named F fs q with
    | true => rfl
    | false => rfl
  · rw [(hsome q i h).2]
    exact Nat.one_pos
  · rw [(hsome _ i h).2]
    exact Nat.one_pos
  · exact (named_iff.mp (hsome _ i h).1).1
  · exact Option.some.inj (hi.symm.trans hj)

theorem World.Sound.after {w : World σ} (hs : w.Sound F) {t : NfsServer} {gs : σ} {e : Effect}
    (htable : Table t) (hkeeps : KeepsHandles w.server t)
    (hallows : ∀ q, QDir.cleanPath q = q → e.Allows F w.fs gs q) (hsafe : w.SafeEffect F e) :
    (w.after F t gs e).Sound F := by
  have hpath (fh : QByteArray) (i : Object) (h : w.given fh i) :
      t.pathForHandle fh = w.server.pathForHandle fh :=
    hkeeps.pathForHandle (hs.given_path fh i h)
  have hdenotes (fh : QByteArray) (i : Object) (h : w.given fh i) :
      Denotes (occupantAfter F gs w.occupant w.clock e) (w.server.pathForHandle fh) i := by
    have hhanded : w.Handed (w.server.pathForHandle fh) := ⟨fh, i, h, rfl⟩
    exact (hs.denotes fh i h).next hs.distinct (from_source w.occupant w.clock)
      (Nat.ne_of_lt (hs.given_old fh i h)) (kept_after hs hsafe hhanded)
      (empty_after hs hallows hsafe hhanded)
  have hold (q : QString) (i : Object)
      (h : occupantAfter F gs w.occupant w.clock e q = some i) : i.1 < w.clock + 1 := by
    rcases (occupantAfter_some h).2 with h | ⟨-, rfl⟩
    · exact Nat.lt_succ_of_lt (hs.occupant_old _ i h)
    · exact Nat.lt_succ_self _
  refine ⟨htable, isSome_occupantAfter w.occupant w.clock, distinct_after hs hallows, hold,
    ?_, ?_, ?_, ?_⟩
  · rintro fh i (h | h)
    · exact Nat.lt_succ_of_lt (hs.given_old fh i h)
    · exact hold _ i h
  · rintro fh i (h | h)
    · exact fun hnil => hs.given_path fh i h ((hpath fh i h).symm.trans hnil)
    · exact (named_iff.mp (occupantAfter_some h).1).1
  · rintro fh i (h | h)
    · exact (hpath fh i h).symm ▸ hdenotes fh i h
    · exact Or.inl h
  · have hmixed (fh : QByteArray) (i j : Object) (hi : w.given fh i)
        (hj : occupantAfter F gs w.occupant w.clock e (t.pathForHandle fh) = some j) :
        i = j := by
      rw [hpath fh i hi] at hj
      rcases hdenotes fh i hi with h | ⟨-, h⟩
      · exact Option.some.inj (h.symm.trans hj)
      · rw [h] at hj
        exact absurd hj (by simp)
    rintro fh i j (hi | hi) (hj | hj)
    · exact hs.unique fh i j hi hj
    · exact hmixed fh i j hi hj
    · exact (hmixed fh j i hj hi).symm
    · exact Option.some.inj (hi.symm.trans hj)

theorem World.Sound.step {w : World σ} (hs : w.Sound F) (hF : F.Lawful) (hN : Naming F)
    {request : QByteArray} (hsafe : w.Safe F request) : (w.step F request).Sound F := by
  obtain ⟨htable, hkeeps⟩ := hs.table.handleDatagram hF w.fs request hsafe.room
  exact hs.after htable hkeeps
    (fun q hq => handleDatagram_allows w.server w.fs hN request q hq) hsafe.effect

theorem World.Reached.sound (hF : F.Lawful) (hN : Naming F) {exportDir : QString} {port : UInt16}
    {fs : σ} {w : World σ} (h : Reached F exportDir port fs w) : w.Sound F := by
  induction h with
  | start => exact .start exportDir port fs
  | step request _ hsafe ih => exact ih.step hF hN hsafe

theorem nfsCall_eq_some {request : QByteArray} {proc : UInt32} {r : XdrReader}
    (h : nfsCall request = some (proc, r)) :
    ∃ call, acceptCall request = some (call, r) ∧ call.prog = PROG_NFS ∧ call.vers = 3 ∧
      call.proc = proc := by
  unfold nfsCall at h
  split at h
  · exact absurd h (by simp)
  · rename_i call r' hcall
    split at h
    · rename_i hnfs
      obtain ⟨rfl, rfl⟩ := Prod.mk.inj (Option.some.inj h)
      exact ⟨call, hcall, hnfs.1, hnfs.2, rfl⟩
    · exact absurd h (by simp)

theorem handleDatagram_eq {s : NfsServer} {fs : σ} {request : QByteArray} {proc : UInt32}
    {r : XdrReader} (h : nfsCall request = some (proc, r)) :
    ∃ xid, handleDatagram F s fs request =
      nfsProcedure F s fs (putReplyHeader ⟨[]⟩ xid) r proc := by
  obtain ⟨call, hcall, hprog, hvers, rfl⟩ := nfsCall_eq_some h
  refine ⟨call.xid, ?_⟩
  rw [handleDatagram, hcall]
  dsimp only
  rw [if_neg (by rw [hprog]; decide), if_neg (by rw [hprog]; decide), if_pos ⟨hprog, hvers⟩]

theorem status_refused (xid code : UInt32) (more : QByteArray) :
    World.status (((putReplyHeader ⟨[]⟩ xid).u32 code).data ++ more) = code := by
  have h := rd32be_append_right (putReplyHeader ⟨[]⟩ xid).data (BigEndian.bytes32 code ++ more) 0
  rw [World.status, XdrWriter.u32, List.append_assoc]
  exact h.trans (rd32be_bytes32 code more)

theorem nfsStat_none {fs : σ} {p : QString} (hclean : QDir.cleanPath p = p)
    (h : named F fs p = false) : nfsStat F fs p = none := by
  rw [nfsStat]
  split
  · rfl
  · rename_i hne
    cases hstat : F.stat fs p with
    | none => rfl
    | some st =>
      rw [named_iff.mpr ⟨hne, hclean, by rw [FileSystem.pathExists, hstat]; rfl⟩] at h
      exact absurd h (by decide)

theorem readWrite_path (s : NfsServer) (r : XdrReader) :
    (readWrite s r).path = s.pathForHandle r.opaqueVar.1 := by
  simp only [readWrite]

theorem writeEffect_cases (s : NfsServer) (fs : σ) (r : XdrReader) :
    writeEffect F s fs r = .keep ∨
      writeEffect F s fs r = .create (s.pathForHandle r.opaqueVar.1) := by
  rw [← readWrite_path, writeEffect]
  generalize readWrite s r = a
  split
  · exact Or.inr rfl
  · exact Or.inl rfl

section Stale

variable {s : NfsServer} {fs : σ} {r : XdrReader}
  (hclean : QDir.cleanPath (s.pathForHandle r.opaqueVar.1) = s.pathForHandle r.opaqueVar.1)
  (habsent : named F fs (s.pathForHandle r.opaqueVar.1) = false)

include hclean habsent

theorem read_stale (hN : Naming F) (w : XdrWriter)
    (hne : s.pathForHandle r.opaqueVar.1 ≠ []) :
    (read F s fs w r).reply = (w.u32 NFS3ERR_ACCES).data ++ BigEndian.bytes32 0 := by
  have hopen : F.openRead fs (s.pathForHandle r.opaqueVar.1) = none := by
    cases hopen : F.openRead fs (s.pathForHandle r.opaqueVar.1) with
    | none => rfl
    | some content =>
      rw [named_iff.mpr ⟨hne, hclean, hN.openRead fs _ content hopen⟩] at habsent
      exact absurd habsent (by decide)
  have hstat := nfsStat_none hclean habsent
  simp only [read, hopen, putPostOpAttr, hstat]
  split
  · rename_i h
    exact absurd h (by simp)
  · rfl

theorem write_stale (w : XdrWriter) (hkeep : writeEffect F s fs r = .keep) :
    (write F s fs w r).reply =
      (w.u32 NFS3ERR_ACCES).data ++ (BigEndian.bytes32 0 ++ BigEndian.bytes32 0) := by
  have hstat := nfsStat_none hclean habsent
  simp only [writeEffect] at hkeep
  simp only [write, putWccData, putPostOpAttr, readWrite_path, hstat] at hkeep ⊢
  generalize readWrite s r = a at hkeep ⊢
  cases hok : a.ok with
  | false => simp [XdrWriter.u32]
  | true =>
    cases hopen : F.openReadWrite fs (s.pathForHandle r.opaqueVar.1) (seek a.offset) a.data with
    | none => simp [XdrWriter.u32]
    | some result => simp [hok, hopen] at hkeep

end Stale

theorem World.Sound.stale_refused {w : World σ} (hs : w.Sound F) (hN : Naming F)
    {request : QByteArray} (hsafe : w.Safe F request) : w.StaleRefused F request := by
  intro proc r hcall hproc i hgiven hlost
  have hne := hs.given_path _ i hgiven
  have hclean := hs.table.clean _ _ (find_of_pathForHandle hne)
  have hempty : w.occupant (w.server.pathForHandle r.opaqueVar.1) = none := by
    rcases hs.denotes _ i hgiven with h | ⟨-, h⟩
    · exact absurd h (hlost _)
    · exact h
  have habsent := (occupant_none_iff hs _).mp hempty
  obtain ⟨xid, heq⟩ : ∃ xid, handleDatagram F w.server w.fs request =
      nfsProcedure F w.server w.fs (putReplyHeader ⟨[]⟩ xid) r proc := handleDatagram_eq hcall
  rw [heq]
  rcases hproc with rfl | rfl | rfl
  · rw [hsafe.setattr r hcall i hgiven] at habsent
    exact absurd habsent (by decide)
  · have hread : nfsProcedure F w.server w.fs (putReplyHeader ⟨[]⟩ xid) r 6 =
        read F w.server w.fs (putReplyHeader ⟨[]⟩ xid) r := rfl
    rw [hread, read_stale hclean habsent hN _ hne, status_refused]
    decide
  · have hwrite : nfsProcedure F w.server w.fs (putReplyHeader ⟨[]⟩ xid) r 7 =
        write F w.server w.fs (putReplyHeader ⟨[]⟩ xid) r := rfl
    have heffect : Nfs.effect F w.server w.fs request = writeEffect F w.server w.fs r := by
      rw [Nfs.effect, hcall]
      rfl
    have hkeep : writeEffect F w.server w.fs r = .keep := by
      rcases writeEffect_cases w.server w.fs r with h | h
      · exact h
      · rcases hsafe.effect.create _ (heffect.trans h) with hnamed | hfree
        · exact absurd (habsent.symm.trans hnamed) (by decide)
        · exact absurd ⟨_, i, hgiven, rfl⟩ hfree
    rw [hwrite, write_stale hclean habsent _ hkeep, status_refused]
    decide

theorem handles_denote (hF : F.Lawful) (hN : Naming F) {exportDir : QString} {port : UInt16}
    {fs : σ} {w : World σ} (h : w.Reached F exportDir port fs) :
    (∀ fh i, w.given fh i → Denotes w.occupant (w.server.pathForHandle fh) i) ∧
      (∀ fh i j, w.given fh i → w.given fh j → i = j) ∧
      ∀ request, w.Safe F request → w.StaleRefused F request := by
  have hs := World.Reached.sound hF hN h
  exact ⟨hs.denotes, hs.unique, fun request hsafe => hs.stale_refused hN hsafe⟩

def nameArg (id : UInt32) (name : UInt8) : QByteArray :=
  handleArg id ++ BigEndian.bytes32 1 ++ [name, 0, 0, 0]

def lookupFileRequest : QByteArray := rpcCall 3 PROG_NFS 3 3 (nameArg 2 102)

def removeFileRequest : QByteArray := rpcCall 4 PROG_NFS 3 12 (nameArg 2 102)

def renameRequest : QByteArray := rpcCall 5 PROG_NFS 3 14 (nameArg 1 97 ++ nameArg 1 98)

def sharedWorld : World PathStore := .start PathStore.fileSystem "/srv" 2049 sharedStore

theorem handles_denote_removed :
    let F := PathStore.fileSystem
    let w := sharedWorld.run F [lookupRequest, lookupFileRequest, removeFileRequest]
    (∀ fh i, w.given fh i → Denotes w.occupant (w.server.pathForHandle fh) i) ∧
      (∀ fh i j, w.given fh i → w.given fh j → i = j) ∧
      ∀ request, w.Safe F request → w.StaleRefused F request :=
  handles_denote PathStore.fileSystem_lawful fileSystem_naming
    (.step removeFileRequest
      (.step lookupFileRequest
        (.step lookupRequest .start
          (.of_keep 3 (by decide +kernel) (by decide) (by decide +kernel)
            (by decide +kernel)))
        (.of_keep 3 (by decide +kernel) (by decide) (by decide +kernel)
          (by decide +kernel)))
      (.of_keep 12 (by decide +kernel) (by decide) (by decide +kernel)
        (by decide +kernel)))

theorem renamed_handle_lost :
    ¬ ∀ requests fh i, (sharedWorld.run PathStore.fileSystem requests).given fh i →
      Denotes (sharedWorld.run PathStore.fileSystem requests).occupant
        ((sharedWorld.run PathStore.fileSystem requests).server.pathForHandle fh) i := by
  intro h
  have hafter := h [lookupRequest, renameRequest] (NfsServer.handleBytes 2) (0, "/srv/a".toList)
    (Or.inl (Or.inr (by decide +kernel)))
  rcases hafter with hstill | ⟨hlost, -⟩
  · exact absurd hstill (by decide +kernel)
  · exact hlost "/srv/b".toList (by decide +kernel)

end Nfs
