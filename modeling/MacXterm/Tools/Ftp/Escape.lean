import MacXterm.Qt.PathStore
import MacXterm.Tools.Ftp.Server

namespace Ftp

open Qt

variable {σ : Type} {F : FileSystem σ} {beneath : QString → QString → Prop}
  {toUpper : QString → QString} {s : FtpServer}

inductive Reaches (F : FileSystem σ) (toUpper : QString → QString) (root bindAddr : QString) :
    FtpServer → Prop
  | start : Reaches F toUpper root bindAddr ⟨root, bindAddr, []⟩
  | connect {s : FtpServer} (c : Nat) : Reaches F toUpper root bindAddr s →
      Reaches F toUpper root bindAddr (newConnection s c).1
  | line {s : FtpServer} (fs : σ) (c : Nat) (line : QByteArray) (net : Network) :
      Reaches F toUpper root bindAddr s →
      Reaches F toUpper root bindAddr (handleLine F toUpper s fs c line net).server
  | disconnect {s : FtpServer} (c : Nat) : Reaches F toUpper root bindAddr s →
      Reaches F toUpper root bindAddr (disconnected s c)

def Escapes (s : FtpServer) (conn : Conn) (arg : QString) : Prop :=
  ¬ s.rootAbs ++ ['/'] <+: s.absolute conn arg

instance (s : FtpServer) (conn : Conn) (arg : QString) : Decidable (Escapes s conn arg) :=
  inferInstanceAs (Decidable (¬ s.rootAbs ++ ['/'] <+: s.absolute conn arg))

def Refused (control : List QByteArray) : Prop :=
  ∃ b, control.getLast? = some b ∧ (b.head? = some 0x34 ∨ b.head? = some 0x35)

theorem resolve_inside (s : FtpServer) (conn : Conn) (arg : QString) :
    QDir.Inside s.rootAbs (s.resolve conn arg) := by
  simp only [FtpServer.resolve]
  split
  · assumption
  · exact .inl rfl

theorem Escapes.resolve {conn : Conn} {arg : QString} (h : Escapes s conn arg) :
    s.resolve conn arg = s.rootAbs := by
  simp only [FtpServer.resolve]
  split
  · rename_i hin
    exact hin.resolve_right h
  · rfl

structure Clamped (s : FtpServer) : Prop where
  storeTarget : ∀ e ∈ s.conns, e.2.storeTarget = [] ∨ QDir.Inside s.rootAbs e.2.storeTarget

theorem Clamped.target (h : Clamped s) (c : Nat) :
    (connOf s c).storeTarget = [] ∨ QDir.Inside s.rootAbs (connOf s c).storeTarget := by
  rcases QHash.value_cases s.conns c .initial with hv | hv
  · rw [connOf, hv]
    exact .inl rfl
  · exact h.storeTarget _ hv

section Commands

variable (s : FtpServer) (conn : Conn) (fs : σ) (net : Network) (cmd : Command)

inductive Effect (F : FileSystem σ) : σ → Prop
  | keep : Effect F fs
  | stor (body : QByteArray) {r : σ × Int} :
      F.openWrite fs (s.resolve conn cmd.arg) body = some r → Effect F r.1
  | mkd : Effect F (F.mkpath fs (s.resolve conn cmd.arg)).2
  | rmd : Effect F (F.removeRecursively fs (s.resolve conn cmd.arg)).2
  | dele {gs : σ} : F.remove fs (s.resolve conn cmd.arg) = some gs → Effect F gs
  | rnto {gs : σ} : conn.storeTarget ≠ [] →
      F.rename fs conn.storeTarget (s.resolve conn cmd.arg) = some gs → Effect F gs

theorem cwd_keeps : (cwd F s conn fs cmd).fs = fs ∧
    (cwd F s conn fs cmd).conn.storeTarget = conn.storeTarget := by
  simp only [cwd]
  split <;> exact ⟨rfl, rfl⟩

theorem pasv_keeps : (pasv s conn fs net).fs = fs ∧
    (pasv s conn fs net).conn.storeTarget = conn.storeTarget := by
  simp only [pasv]
  split <;> exact ⟨rfl, rfl⟩

theorem transfer_keeps (opening : QString) (body : QByteArray) :
    (transfer conn fs net opening body).fs = fs ∧
      (transfer conn fs net opening body).conn = conn := by
  simp only [transfer]
  split <;> exact ⟨rfl, rfl⟩

theorem retr_keeps : (retr F s conn fs net cmd).fs = fs ∧
    (retr F s conn fs net cmd).conn = conn := by
  simp only [retr]
  split
  · exact ⟨rfl, rfl⟩
  · exact transfer_keeps conn fs net _ _

theorem stor_effect : Effect s conn fs cmd F (stor F s conn fs net cmd).fs ∧
    (stor F s conn fs net cmd).conn = conn := by
  simp only [stor]
  split
  · exact ⟨.keep, rfl⟩
  · split
    · exact ⟨.keep, rfl⟩
    · rename_i ho
      split <;> exact ⟨.stor _ ho, rfl⟩

theorem mkd_effect : Effect s conn fs cmd F (mkd F s conn fs cmd).fs ∧
    (mkd F s conn fs cmd).conn = conn := by
  have h : Effect s conn fs cmd F _ := .mkd
  simp only [mkd]
  split <;> rename_i ho <;> rw [ho] at h <;> exact ⟨h, rfl⟩

theorem rmd_effect : Effect s conn fs cmd F (rmd F s conn fs cmd).fs ∧
    (rmd F s conn fs cmd).conn = conn := by
  have h : Effect s conn fs cmd F _ := .rmd
  simp only [rmd]
  split <;> rename_i ho <;> rw [ho] at h <;> exact ⟨h, rfl⟩

theorem dele_effect : Effect s conn fs cmd F (dele F s conn fs cmd).fs ∧
    (dele F s conn fs cmd).conn = conn := by
  simp only [dele]
  split
  · rename_i ho
    exact ⟨.dele ho, rfl⟩
  · exact ⟨.keep, rfl⟩

theorem rnfr_keeps : (rnfr F s conn fs cmd).fs = fs ∧
    (rnfr F s conn fs cmd).conn.storeTarget = s.resolve conn cmd.arg := by
  simp only [rnfr]
  split <;> exact ⟨rfl, rfl⟩

theorem rnto_effect : Effect s conn fs cmd F (rnto F s conn fs cmd).fs ∧
    (rnto F s conn fs cmd).conn.storeTarget = [] := by
  simp only [rnto]
  split
  · rename_i hne ho
    exact ⟨.rnto (of_decide_eq_true hne) ho, rfl⟩
  · exact ⟨.keep, rfl⟩

theorem of_ite {α : Type} (P : α → Prop) {c : Prop} [Decidable c] {a b : α} (ha : P a) (hb : P b) :
    P (if c then a else b) := by
  split
  · exact ha
  · exact hb

theorem execute_cases (P : Outcome σ → Prop)
    (hanswer : ∀ code text, P (answer conn fs code text))
    (hcwd : P (cwd F s conn fs cmd)) (hpasv : P (pasv s conn fs net))
    (hlist : ∀ line, P (list F s conn fs net cmd line)) (hretr : P (retr F s conn fs net cmd))
    (hstor : P (stor F s conn fs net cmd)) (hmkd : P (mkd F s conn fs cmd))
    (hrmd : P (rmd F s conn fs cmd)) (hdele : P (dele F s conn fs cmd))
    (hrnfr : P (rnfr F s conn fs cmd)) (hrnto : P (rnto F s conn fs cmd))
    (hquit : P ⟨conn, fs, [reply 221 "Goodbye"], none, true⟩) :
    P (execute F s conn fs net cmd) := by
  unfold execute
  exact of_ite P (hanswer _ _) <| of_ite P (hanswer _ _) <| of_ite P (hanswer _ _) <|
    of_ite P (hanswer _ _) <| of_ite P (hanswer _ _) <| of_ite P (hanswer _ _) <|
    of_ite P hcwd <| of_ite P hpasv <| of_ite P (hlist _) <| of_ite P (hlist _) <|
    of_ite P hretr <| of_ite P hstor <| of_ite P hmkd <| of_ite P hrmd <| of_ite P hdele <|
    of_ite P hrnfr <| of_ite P hrnto <| of_ite P (hanswer _ _) <| of_ite P hquit (hanswer _ _)

theorem execute_effect : Effect s conn fs cmd F (execute F s conn fs net cmd).fs := by
  apply execute_cases s conn fs net cmd fun o => Effect s conn fs cmd F o.fs
  case hanswer => exact fun _ _ => .keep
  case hcwd => exact (cwd_keeps s conn fs cmd).1.symm ▸ .keep
  case hpasv => exact (pasv_keeps s conn fs net).1.symm ▸ .keep
  case hlist => exact fun _ => (transfer_keeps conn fs net _ _).1.symm ▸ .keep
  case hretr => exact (retr_keeps s conn fs net cmd).1.symm ▸ .keep
  case hstor => exact (stor_effect s conn fs net cmd).1
  case hmkd => exact (mkd_effect s conn fs cmd).1
  case hrmd => exact (rmd_effect s conn fs cmd).1
  case hdele => exact (dele_effect s conn fs cmd).1
  case hrnfr => exact (rnfr_keeps s conn fs cmd).1.symm ▸ .keep
  case hrnto => exact (rnto_effect s conn fs cmd).1
  case hquit => exact .keep

theorem execute_storeTarget :
    (execute F s conn fs net cmd).conn.storeTarget = conn.storeTarget ∨
      (execute F s conn fs net cmd).conn.storeTarget = [] ∨
      (execute F s conn fs net cmd).conn.storeTarget = s.resolve conn cmd.arg := by
  apply execute_cases s conn fs net cmd fun o => o.conn.storeTarget = conn.storeTarget ∨
    o.conn.storeTarget = [] ∨ o.conn.storeTarget = s.resolve conn cmd.arg
  case hanswer => exact fun _ _ => .inl rfl
  case hcwd => exact .inl (cwd_keeps s conn fs cmd).2
  case hpasv => exact .inl (pasv_keeps s conn fs net).2
  case hlist => exact fun _ => .inl (congrArg Conn.storeTarget (transfer_keeps conn fs net _ _).2)
  case hretr => exact .inl (congrArg Conn.storeTarget (retr_keeps s conn fs net cmd).2)
  case hstor => exact .inl (congrArg Conn.storeTarget (stor_effect s conn fs net cmd).2)
  case hmkd => exact .inl (congrArg Conn.storeTarget (mkd_effect s conn fs cmd).2)
  case hrmd => exact .inl (congrArg Conn.storeTarget (rmd_effect s conn fs cmd).2)
  case hdele => exact .inl (congrArg Conn.storeTarget (dele_effect s conn fs cmd).2)
  case hrnfr => exact .inr (.inr (rnfr_keeps s conn fs cmd).2)
  case hrnto => exact .inr (.inl (rnto_effect s conn fs cmd).2)
  case hquit => exact .inl rfl

end Commands

theorem Clamped.step (h : Clamped s) (fs : σ) (c : Nat) (line : QByteArray) (net : Network) :
    Clamped (handleLine F toUpper s fs c line net).server ∧
      (handleLine F toUpper s fs c line net).server.root = s.root := by
  simp only [handleLine]
  split
  · exact ⟨h, rfl⟩
  · refine ⟨⟨fun e he => ?_⟩, rfl⟩
    rcases QHash.mem_insert he with rfl | he
    · rcases execute_storeTarget (F := F) s (connOf s c) fs net (parse toUpper line) with
        ht | ht | ht
      · simp only [ht]
        exact h.target c
      · exact .inl ht
      · simp only [ht]
        exact .inr (resolve_inside s _ _)
    · exact h.storeTarget e he

theorem Reaches.clamped {root bindAddr : QString} (h : Reaches F toUpper root bindAddr s) :
    Clamped s ∧ s.root = root := by
  induction h with
  | start => exact ⟨⟨by simp⟩, rfl⟩
  | connect c _ ih =>
    refine ⟨⟨fun e he => ?_⟩, ih.2⟩
    rcases QHash.mem_insert he with rfl | he
    · exact .inl rfl
    · exact ih.1.storeTarget e he
  | line fs c line net _ ih =>
    obtain ⟨hc, hr⟩ := ih.1.step fs c line net
    exact ⟨hc, hr.trans ih.2⟩
  | disconnect c _ ih =>
    exact ⟨⟨fun e he => ih.1.storeTarget e (List.mem_of_mem_filter he)⟩, ih.2⟩

theorem beneath_of_inside (hF : F.Hierarchy beneath) {p q : QString} (h : QDir.Inside p q) :
    beneath p q := by
  rcases h with rfl | ⟨t, rfl⟩
  · exact hF.refl q
  · simpa using hF.append p t

def RootInPlace (F : FileSystem σ) (beneath : QString → QString → Prop) (root : QString) (fs : σ) :
    Prop :=
  ∀ q, beneath q root → ¬ beneath root q → F.object fs q ≠ none

theorem Effect.sameOutside {conn : Conn} {fs gs : σ} {cmd : Command} (hF : F.Hierarchy beneath)
    (h : Effect s conn fs cmd F gs)
    (hs : conn.storeTarget = [] ∨ QDir.Inside s.rootAbs conn.storeTarget)
    (hr : RootInPlace F beneath s.rootAbs fs) : F.SameOutside beneath s.rootAbs fs gs := by
  intro q hq
  have hp : beneath s.rootAbs (s.resolve conn cmd.arg) :=
    beneath_of_inside hF (resolve_inside s conn cmd.arg)
  have hpq : ¬ beneath (s.resolve conn cmd.arg) q := fun h => hq (hF.trans _ _ _ hp h)
  cases h with
  | keep => rfl
  | stor body ho => exact hF.openWrite_frame _ _ _ _ ho q hpq
  | mkd =>
    refine hF.mkpath_frame _ _ q hpq fun ⟨hqp, hnone⟩ => ?_
    rcases hF.comparable _ _ _ hqp hp with h | h
    · exact hr q h hq hnone
    · exact hq h
  | rmd => exact hF.removeRecursively_frame _ _ q hpq
  | dele ho => exact hF.remove_frame _ _ _ ho q hpq
  | rnto hne ho =>
    have hsource := beneath_of_inside hF (hs.resolve_left hne)
    exact hF.rename_frame _ _ _ _ ho q (fun h => hq (hF.trans _ _ _ hsource h)) hpq

section Escaping

variable (hF : F.Hierarchy beneath) (conn : Conn) (fs : σ) (net : Network) (cmd : Command)

include hF

theorem stor_refused (he : Escapes s conn cmd.arg) (hd : F.isDir fs s.rootAbs = true) :
    (stor F s conn fs net cmd).fs = fs ∧ Refused (stor F s conn fs net cmd).control := by
  simp only [stor, he.resolve, hF.openWrite_dir _ _ _ hd]
  split
  · exact ⟨rfl, _, rfl, .inl rfl⟩
  · exact ⟨rfl, _, rfl, .inr rfl⟩

theorem dele_refused (he : Escapes s conn cmd.arg) (hd : F.isDir fs s.rootAbs = true) :
    (dele F s conn fs cmd).fs = fs ∧ Refused (dele F s conn fs cmd).control := by
  simp only [dele, he.resolve, hF.remove_dir _ _ hd]
  exact ⟨rfl, _, rfl, .inr rfl⟩

theorem mkd_unchanged (he : Escapes s conn cmd.arg) (hd : F.isDir fs s.rootAbs = true) :
    (mkd F s conn fs cmd).fs = fs := by
  simp only [mkd, he.resolve, hF.mkpath_dir _ _ hd]
  rfl

theorem rnto_refused (hs : conn.storeTarget = [] ∨ QDir.Inside s.rootAbs conn.storeTarget)
    (h : s.resolve conn cmd.arg = s.rootAbs ∨ conn.storeTarget = s.rootAbs) :
    (rnto F s conn fs cmd).fs = fs ∧ Refused (rnto F s conn fs cmd).control := by
  simp only [rnto]
  split
  · rename_i hne ho
    have hnone : F.rename fs conn.storeTarget (s.resolve conn cmd.arg) = none := by
      apply hF.rename_nested
      rcases h with h | h
      · rw [h]
        exact .inr (hs.resolve_left (of_decide_eq_true hne))
      · rw [h]
        exact .inl (resolve_inside s conn cmd.arg)
    rw [hnone] at ho
    exact absurd ho (by simp)
  · exact ⟨rfl, _, rfl, .inr rfl⟩

end Escaping

theorem parse_valid {line : QByteArray} (h : (parse toUpper line).verb ≠ []) :
    (parse toUpper line).valid = true := by
  simp only [parse] at h ⊢
  split
  · rename_i hs
    exact absurd (by simp [hs]) h
  · rename_i hs
    rw [if_neg hs] at h
    split <;> rename_i hf <;> rw [hf] at h <;> exact decide_eq_true h

theorem handleLine_valid {line : QByteArray} (h : (parse toUpper line).verb ≠ []) (fs : σ) (c : Nat)
    (net : Network) :
    let o := execute F s (connOf s c) fs net (parse toUpper line)
    handleLine F toUpper s fs c line net =
      ⟨{ s with conns := s.conns.insert c o.conn }, o.fs, o.control, o.data, o.closes⟩ := by
  simp only [handleLine, parse_valid h, Bool.not_true, Bool.false_eq_true, if_false]

section Dispatch

variable {conn : Conn} {fs : σ} {net : Network} {cmd : Command}

theorem execute_stor (h : cmd.verb = "STOR".toList) :
    execute F s conn fs net cmd = stor F s conn fs net cmd := by
  rw [execute, h]
  rfl

theorem execute_mkd (h : cmd.verb = "MKD".toList) :
    execute F s conn fs net cmd = mkd F s conn fs cmd := by
  rw [execute, h]
  rfl

theorem execute_dele (h : cmd.verb = "DELE".toList) :
    execute F s conn fs net cmd = dele F s conn fs cmd := by
  rw [execute, h]
  rfl

theorem execute_rnfr (h : cmd.verb = "RNFR".toList) :
    execute F s conn fs net cmd = rnfr F s conn fs cmd := by
  rw [execute, h]
  rfl

theorem execute_rnto (h : cmd.verb = "RNTO".toList) :
    execute F s conn fs net cmd = rnto F s conn fs cmd := by
  rw [execute, h]
  rfl

theorem execute_pasv (h : cmd.verb = "PASV".toList) :
    execute F s conn fs net cmd = pasv s conn fs net := by
  rw [execute, h]
  rfl

theorem execute_list (h : cmd.verb = "LIST".toList) :
    execute F s conn fs net cmd = list F s conn fs net cmd listLine := by
  rw [execute, h]
  rfl

theorem execute_retr (h : cmd.verb = "RETR".toList) :
    execute F s conn fs net cmd = retr F s conn fs net cmd := by
  rw [execute, h]
  rfl

theorem execute_rmd (h : cmd.verb = "RMD".toList) :
    execute F s conn fs net cmd = rmd F s conn fs cmd := by
  rw [execute, h]
  rfl

theorem execute_user (h : cmd.verb = "USER".toList) :
    execute F s conn fs net cmd = answer conn fs 331 "User name okay, need password" := by
  rw [execute, h]
  rfl

theorem execute_pass (h : cmd.verb = "PASS".toList) :
    execute F s conn fs net cmd = answer conn fs 230 "User logged in" := by
  rw [execute, h]
  rfl

theorem execute_type (h : cmd.verb = "TYPE".toList) :
    execute F s conn fs net cmd = answer conn fs 200 ("Type set to ".toList ++ cmd.arg) := by
  rw [execute, h]
  rfl

theorem execute_pwd (h : cmd.verb = "PWD".toList) :
    execute F s conn fs net cmd =
      answer conn fs 257 ('"' :: conn.cwd ++ "\" is current directory".toList) := by
  rw [execute, h]
  rfl

theorem execute_site (h : cmd.verb = "SITE".toList) :
    execute F s conn fs net cmd = answer conn fs 200 "OK" := by
  rw [execute, h]
  rfl

end Dispatch

structure EscapeKept (F : FileSystem σ) (toUpper : QString → QString) (s : FtpServer) (fs : σ)
    (c : Nat) (line : QByteArray) (net : Network) : Prop where
  stor_dele : (parse toUpper line).verb = "STOR".toList ∨ (parse toUpper line).verb = "DELE".toList →
    F.isDir fs s.rootAbs = true →
    (handleLine F toUpper s fs c line net).fs = fs ∧
      Refused (handleLine F toUpper s fs c line net).control
  mkd : (parse toUpper line).verb = "MKD".toList → F.isDir fs s.rootAbs = true →
    (handleLine F toUpper s fs c line net).fs = fs
  rnto : (parse toUpper line).verb = "RNTO".toList →
    (handleLine F toUpper s fs c line net).fs = fs ∧
      Refused (handleLine F toUpper s fs c line net).control
  rnfr : (parse toUpper line).verb = "RNFR".toList →
    (handleLine F toUpper s fs c line net).fs = fs ∧
      ∀ gs next net', (parse toUpper next).verb = "RNTO".toList →
        let t := (handleLine F toUpper s fs c line net).server
        (handleLine F toUpper t gs c next net').fs = gs ∧
          Refused (handleLine F toUpper t gs c next net').control

theorem Clamped.escapeKept (hF : F.Hierarchy beneath) (hs : Clamped s) (fs : σ) (c : Nat)
    (line : QByteArray) (net : Network) (he : Escapes s (connOf s c) (parse toUpper line).arg) :
    EscapeKept F toUpper s fs c line net where
  stor_dele hv hd := by
    rcases hv with hv | hv
    · rw [handleLine_valid (by rw [hv]; decide), execute_stor hv]
      exact stor_refused hF _ fs net _ he hd
    · rw [handleLine_valid (by rw [hv]; decide), execute_dele hv]
      exact dele_refused hF _ fs _ he hd
  mkd hv hd := by
    rw [handleLine_valid (by rw [hv]; decide), execute_mkd hv]
    exact mkd_unchanged hF _ fs _ he hd
  rnto hv := by
    rw [handleLine_valid (by rw [hv]; decide), execute_rnto hv]
    exact rnto_refused hF _ fs _ (hs.target c) (.inl he.resolve)
  rnfr hv := by
    have hstep : handleLine F toUpper s fs c line net = _ :=
      handleLine_valid (by rw [hv]; decide) fs c net
    rw [execute_rnfr hv] at hstep
    obtain ⟨hfs, htarget⟩ := rnfr_keeps (F := F) s (connOf s c) fs (parse toUpper line)
    rw [he.resolve] at htarget
    refine ⟨by rw [hstep]; exact hfs, fun gs next net' hn => ?_⟩
    have hconn : (connOf (handleLine F toUpper s fs c line net).server c).storeTarget =
        s.rootAbs := by
      rw [hstep]
      simpa [connOf, QHash.value, QHash.insert] using htarget
    have hroot : (handleLine F toUpper s fs c line net).server.rootAbs = s.rootAbs := by
      rw [hstep]
      rfl
    have hclamped : Clamped (handleLine F toUpper s fs c line net).server :=
      (hs.step fs c line net).1
    simp only
    rw [handleLine_valid (by rw [hn]; decide), execute_rnto hn]
    exact rnto_refused hF _ gs _ (hclamped.target c) (.inr (hconn.trans hroot.symm))

theorem escaping_commands (hF : F.Hierarchy beneath) (root bindAddr : QString)
    (h : Reaches F toUpper root bindAddr s) (fs : σ) (c : Nat) (line : QByteArray) (net : Network) :
    (Escapes s (connOf s c) (parse toUpper line).arg → EscapeKept F toUpper s fs c line net) ∧
      (RootInPlace F beneath s.rootAbs fs →
        F.SameOutside beneath s.rootAbs fs (handleLine F toUpper s fs c line net).fs) := by
  have hs := h.clamped.1
  refine ⟨hs.escapeKept hF fs c line net, fun hr => ?_⟩
  simp only [handleLine]
  split
  · exact fun _ _ => rfl
  · exact (execute_effect s (connOf s c) fs net _).sameOutside hF (hs.target c) hr

def asciiUpper (t : QString) : QString := t.map Char.toUpper

def servedStore : PathStore :=
  .ofList [("/srv".toList, .dir 0o755), ("/srv/a".toList, .dir 0o755),
    ("/srv/a/f".toList, .file 0o644 [1, 2, 3])]

def oneClient : FtpServer :=
  (handleLine PathStore.fileSystem asciiUpper (newConnection ⟨"/srv", "127.0.0.1", []⟩ 7).1 servedStore
    7 (toUtf8 "CWD a\r\n") ⟨none, none⟩).server

theorem escaping_stor_refused :
    (Escapes oneClient (connOf oneClient 7) (parse asciiUpper (toUtf8 "stor ../../srv\r\n")).arg →
        EscapeKept PathStore.fileSystem asciiUpper oneClient servedStore 7
          (toUtf8 "stor ../../srv\r\n") ⟨none, some [9]⟩) ∧
      (RootInPlace PathStore.fileSystem PathStore.Beneath oneClient.rootAbs servedStore →
        PathStore.fileSystem.SameOutside PathStore.Beneath oneClient.rootAbs servedStore
          (handleLine PathStore.fileSystem asciiUpper oneClient servedStore 7
            (toUtf8 "stor ../../srv\r\n") ⟨none, some [9]⟩).fs) :=
  escaping_commands PathStore.fileSystem_hierarchy "/srv" "127.0.0.1"
    (.line servedStore 7 _ _ (.connect 7 .start)) servedStore 7 _ _

def servedBy (root : QString) : FtpServer := (newConnection ⟨root, "127.0.0.1", []⟩ 7).1

theorem escape_not_refused :
    (¬ ∀ s, Reaches PathStore.fileSystem asciiUpper "/srv" "127.0.0.1" s →
      ∀ fs c line net, (parse asciiUpper line).verb ∈
          ["STOR".toList, "DELE".toList, "MKD".toList, "RMD".toList] →
        Escapes s (connOf s c) (parse asciiUpper line).arg →
        let o := handleLine PathStore.fileSystem asciiUpper s fs c line net
        o.fs = fs ∧ Refused o.control) ∧
    (handleLine PathStore.fileSystem asciiUpper (servedBy "/srv") servedStore 7
      (toUtf8 "MKD ..\r\n") ⟨none, none⟩).control = [reply 257 "\"..\" created"] ∧
    (handleLine PathStore.fileSystem asciiUpper
      (handleLine PathStore.fileSystem asciiUpper (servedBy "/srv") QMap.empty 7
        (toUtf8 "PASV\r\n") ⟨some 4000, none⟩).server QMap.empty 7
      (toUtf8 "STOR ..\r\n") ⟨none, some [9]⟩).fs = .single "/srv" (.file 0o644 [9]) ∧
    ¬ PathStore.fileSystem.SameOutside PathStore.Beneath "/a/b" QMap.empty
      (handleLine PathStore.fileSystem asciiUpper (servedBy "/a/b") QMap.empty 7
        (toUtf8 "MKD x\r\n") ⟨none, none⟩).fs := by
  refine ⟨fun h => ?_, by decide, by decide, fun h => ?_⟩
  · have hr := h _ (.connect 7 .start) servedStore 7 (toUtf8 "RMD ..\r\n") ⟨none, none⟩
      (by decide) (by decide)
    exact absurd hr.1 (by decide)
  · exact absurd (h "/a" (by decide)) (by decide)

end Ftp
