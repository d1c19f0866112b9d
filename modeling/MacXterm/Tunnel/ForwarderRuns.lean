import MacXterm.Lib.Mealy
import MacXterm.Tunnel.LocalForwarder

namespace Tunnel.LocalForwarder

open Qt

-- run: which start accepted the pair; teardowns: how often its teardown went past the guard.
structure Counted where
  pair : Pair
  run : Nat
  teardowns : Nat := 0
deriving DecidableEq

-- server: none without one, else whether it listens.
structure Runs where
  server : Option Bool := none
  run : Nat := 0
  pairs : List Counted := []
  active : Int := 0
deriving DecidableEq

-- The client sockets of a server that is deleted after stop() disconnect then.
inductive RunEvent where
  | start (listens : Bool)
  | stop
  | newConnection (buffered : QByteArray)
  | socket (i : Nat) (e : SocketEvent)
deriving DecidableEq

namespace Runs

def stop (s : Runs) : Runs := { s with server := none, active := 0 }

def start (s : Runs) (listens : Bool) : Runs :=
  { s.stop with server := some listens, run := s.run + 1 }

def onNewConnection (s : Runs) (buffered : QByteArray) : Runs × List Int :=
  if s.server = some true then
    ({ s with pairs := s.pairs ++ [⟨Pair.accept buffered, s.run, 0⟩], active := s.active + 1 },
      [s.active + 1])
  else (s, [])

def onSocket (s : Runs) (i : Nat) (p : Counted) (e : SocketEvent) : Runs × List Int :=
  if p.pair.tornDownBy e then
    let s' := { s with pairs := s.pairs.set i ⟨p.pair.on e, p.run, p.teardowns + 1⟩ }
    if 0 < s.active then ({ s' with active := s.active - 1 }, [s.active - 1]) else (s', [])
  else ({ s with pairs := s.pairs.set i ⟨p.pair.on e, p.run, p.teardowns⟩ }, [])

-- The second component is what connectionCount() reports.
def step (s : Runs) : RunEvent → Runs × List Int
  | .start listens => (s.start listens, [])
  | .stop => (s.stop, [])
  | .newConnection buffered => s.onNewConnection buffered
  | .socket i e =>
      match s.pairs[i]? with
      | none => (s, [])
      | some p => s.onSocket i p e

def isLive (s : Runs) (p : Counted) : Bool := p.run == s.run && !p.pair.done

def live (s : Runs) : Nat := s.pairs.countP s.isLive

structure Accurate (s : Runs) : Prop where
  count : s.active = s.live
  once : ∀ p ∈ s.pairs, p.teardowns ≤ 1
  nonneg : 0 ≤ s.active

def LateTeardown (s : Runs) (i : Nat) (e : SocketEvent) : Prop :=
  ∃ p, s.pairs[i]? = some p ∧ p.run ≠ s.run ∧ p.pair.tornDownBy e = true

def Allowed (s : Runs) : RunEvent → Prop
  | .stop => s.live = 0
  | .socket i e => s.LateTeardown i e → s.live = 0
  | _ => True

structure Sane (s : Runs) : Prop where
  runs : ∀ p ∈ s.pairs, p.run ≤ s.run
  teardowns : ∀ p ∈ s.pairs, p.teardowns = p.pair.done.toNat
  nonneg : 0 ≤ s.active

theorem done_of_torn {p : Pair} {e : SocketEvent} (h : p.tornDownBy e = true) :
    p.done = false ∧ (p.on e).done = true := by
  rw [Pair.tornDownBy, Bool.and_eq_true, Bool.not_eq_true'] at h
  exact h

theorem done_of_not_torn {p : Pair} {e : SocketEvent} (h : ¬p.tornDownBy e = true) :
    (p.on e).done = p.done := by
  cases hdone : p.done with
  | true => exact done_on hdone e
  | false => simpa [Pair.tornDownBy, hdone] using h

theorem done_on_toNat (p : Pair) (e : SocketEvent) :
    p.done.toNat + (p.tornDownBy e).toNat = (p.on e).done.toNat := by
  by_cases htorn : p.tornDownBy e = true
  · obtain ⟨hbefore, hafter⟩ := done_of_torn htorn
    rw [htorn, hbefore, hafter]
    rfl
  · rw [done_of_not_torn htorn, Bool.eq_false_iff.mpr htorn]
    rfl

theorem done_accept (buffered : QByteArray) : (Pair.accept buffered).done = false := by
  cases buffered <;> rfl

theorem step_socket {s : Runs} {i : Nat} {p : Counted} (h : s.pairs[i]? = some p)
    (e : SocketEvent) : s.step (.socket i e) = s.onSocket i p e := by
  rw [step, h]

theorem pairs_onSocket (s : Runs) (i : Nat) (p : Counted) (e : SocketEvent) :
    (s.onSocket i p e).1.pairs =
      s.pairs.set i ⟨p.pair.on e, p.run, p.teardowns + (p.pair.tornDownBy e).toNat⟩ := by
  rw [onSocket]
  split_ifs with htorn hpos
  · rw [htorn]
    rfl
  · rw [htorn]
    rfl
  · rw [Bool.eq_false_iff.mpr htorn]
    rfl

theorem run_onSocket (s : Runs) (i : Nat) (p : Counted) (e : SocketEvent) :
    (s.onSocket i p e).1.run = s.run := by
  rw [onSocket]
  split_ifs
  · rfl
  · rfl
  · rfl

theorem active_onSocket (s : Runs) (i : Nat) (p : Counted) (e : SocketEvent) :
    (s.onSocket i p e).1.active =
      if p.pair.tornDownBy e = true ∧ 0 < s.active then s.active - 1 else s.active := by
  rw [onSocket]
  split_ifs <;> simp_all

theorem sane_onSocket {s : Runs} (hs : s.Sane) {i : Nat} {p : Counted}
    (hp : s.pairs[i]? = some p) (e : SocketEvent) : (s.onSocket i p e).1.Sane := by
  have hmem := List.mem_of_getElem? hp
  refine ⟨fun q hq => ?_, fun q hq => ?_, ?_⟩
  · rw [pairs_onSocket] at hq
    rw [run_onSocket]
    rcases List.mem_or_eq_of_mem_set hq with hq | rfl
    · exact hs.runs q hq
    · exact hs.runs p hmem
  · rw [pairs_onSocket] at hq
    rcases List.mem_or_eq_of_mem_set hq with hq | rfl
    · exact hs.teardowns q hq
    · rw [hs.teardowns p hmem, done_on_toNat]
  · have hnonneg := hs.nonneg
    rw [active_onSocket]
    split_ifs with htorn
    · omega
    · exact hnonneg

theorem sane_step (s : Runs) (e : RunEvent) (hs : s.Sane) : (s.step e).1.Sane := by
  cases e with
  | start listens =>
    exact ⟨fun p hp => Nat.le_succ_of_le (hs.runs p hp), hs.teardowns, Int.le_refl 0⟩
  | stop => exact ⟨hs.runs, hs.teardowns, Int.le_refl 0⟩
  | newConnection buffered =>
    rw [step, onNewConnection]
    split_ifs with hserver
    · refine ⟨fun p hp => ?_, fun p hp => ?_, Int.le_add_one hs.nonneg⟩
      · rcases List.mem_append.mp hp with hp | hp
        · exact hs.runs p hp
        · obtain rfl := List.mem_singleton.mp hp
          exact Nat.le_refl _
      · rcases List.mem_append.mp hp with hp | hp
        · exact hs.teardowns p hp
        · obtain rfl := List.mem_singleton.mp hp
          rw [done_accept]
          rfl
    · exact hs
  | socket i e =>
    rw [step]
    split
    · exact hs
    · rename_i p hp
      exact sane_onSocket hs hp e

theorem live_start {s : Runs} (hs : s.Sane) (listens : Bool) : (s.start listens).live = 0 := by
  refine List.countP_eq_zero.mpr fun p hp => ?_
  have hrun : p.run ≤ s.run := hs.runs p hp
  have hne : (p.run == s.run + 1) = false := beq_false_of_ne (by omega)
  simp [isLive, start, hne]

theorem live_newConnection {s : Runs} (hserver : s.server = some true) (buffered : QByteArray) :
    (s.onNewConnection buffered).1.live = s.live + 1 := by
  have hnew : isLive (s.onNewConnection buffered).1 ⟨Pair.accept buffered, s.run, 0⟩ = true := by
    rw [onNewConnection, if_pos hserver, isLive, done_accept]
    simp
  rw [onNewConnection, if_pos hserver] at hnew ⊢
  rw [live, List.countP_append, List.countP_singleton, if_pos hnew]
  rfl

theorem live_pos {s : Runs} {i : Nat} {p : Counted} (hp : s.pairs[i]? = some p)
    (hlive : s.isLive p = true) : 0 < s.live :=
  List.countP_pos_iff.mpr ⟨p, List.mem_of_getElem? hp, hlive⟩

theorem live_onSocket (s : Runs) {i : Nat} {p : Counted} (hp : s.pairs[i]? = some p)
    (e : SocketEvent) :
    (s.onSocket i p e).1.live =
      if p.pair.tornDownBy e = true ∧ p.run = s.run then s.live - 1 else s.live := by
  obtain ⟨n, hpairs⟩ : ∃ n, (s.onSocket i p e).1.pairs = s.pairs.set i ⟨p.pair.on e, p.run, n⟩ :=
    ⟨_, pairs_onSocket s i p e⟩
  obtain ⟨hi, hget⟩ := List.getElem?_eq_some_iff.mp hp
  have hisLive : (s.onSocket i p e).1.isLive = s.isLive := by
    funext q
    rw [isLive, isLive, run_onSocket]
  have hpos (hlive : s.isLive p = true) := live_pos hp hlive
  rw [live] at hpos
  rw [live, hisLive, hpairs, List.countP_set hi, hget, live]
  by_cases htorn : p.pair.tornDownBy e = true
  · obtain ⟨hbefore, hafter⟩ := done_of_torn htorn
    by_cases hcurrent : p.run = s.run
    · simp [isLive, htorn, hbefore, hafter, hcurrent]
    · simp [isLive, hcurrent]
  · have hsame := done_of_not_torn htorn
    have hisLive' : s.isLive ⟨p.pair.on e, p.run, n⟩ = s.isLive p := by rw [isLive, isLive, hsame]
    rw [hisLive', if_neg (show ¬(p.pair.tornDownBy e = true ∧ p.run = s.run) from
      fun h => htorn h.1)]
    split_ifs with hlive
    · have := hpos hlive
      omega
    · rfl

theorem count_onSocket {s : Runs} (hcount : s.active = s.live) {i : Nat} {p : Counted}
    (hp : s.pairs[i]? = some p) (e : SocketEvent) :
    (s.onSocket i p e).1.active = (s.onSocket i p e).1.live ↔ s.Allowed (.socket i e) := by
  rw [active_onSocket, live_onSocket s hp, Allowed]
  by_cases htorn : p.pair.tornDownBy e = true
  · by_cases hcurrent : p.run = s.run
    · have hlive : s.isLive p = true := by
        rw [isLive, (done_of_torn htorn).1, hcurrent]
        simp
      have hpos := live_pos hp hlive
      rw [if_pos ⟨htorn, by omega⟩, if_pos ⟨htorn, hcurrent⟩]
      refine iff_of_true (by omega) ?_
      rintro ⟨q, hq, hold, -⟩
      obtain rfl := Option.some.inj (hp.symm.trans hq)
      exact absurd hcurrent hold
    · have hlate : s.LateTeardown i e := ⟨p, hp, hcurrent, htorn⟩
      rw [if_neg (show ¬(p.pair.tornDownBy e = true ∧ p.run = s.run) from fun h => hcurrent h.2)]
      split_ifs with hpos
      · exact iff_of_false (by omega) fun h => by have := h hlate; omega
      · have hzero : ¬0 < s.active := fun h => hpos ⟨htorn, h⟩
        exact iff_of_true hcount fun _ => by omega
  · rw [if_neg fun h => htorn h.1, if_neg fun h => htorn h.1]
    refine iff_of_true hcount ?_
    rintro ⟨q, hq, -, hq'⟩
    obtain rfl := Option.some.inj (hp.symm.trans hq)
    exact absurd hq' htorn

theorem count_step (s : Runs) (e : RunEvent) (hs : s.Sane) (hcount : s.active = s.live) :
    (s.step e).1.active = (s.step e).1.live ↔ s.Allowed e := by
  cases e with
  | start listens =>
    refine iff_of_true ?_ trivial
    rw [step, live_start hs]
    rfl
  | stop =>
    have hlive : s.stop.live = s.live := rfl
    have hactive : s.stop.active = 0 := rfl
    rw [step, hlive, hactive, Allowed]
    omega
  | newConnection buffered =>
    refine iff_of_true ?_ trivial
    rw [step]
    by_cases hserver : s.server = some true
    · rw [live_newConnection hserver, onNewConnection, if_pos hserver]
      dsimp only
      omega
    · rw [onNewConnection, if_neg hserver]
      exact hcount
  | socket i e =>
    cases hp : s.pairs[i]? with
    | none =>
      rw [step, hp, Allowed]
      refine iff_of_true hcount ?_
      rintro ⟨q, hq, -⟩
      exact absurd (hp.symm.trans hq) (by simp)
    | some p => rw [step_socket hp, count_onSocket hcount hp]

theorem accurate_iff {s : Runs} (hs : s.Sane) : s.Accurate ↔ s.active = s.live := by
  refine ⟨Accurate.count, fun hcount => ⟨hcount, fun p hp => ?_, hs.nonneg⟩⟩
  rw [hs.teardowns p hp]
  exact Bool.toNat_le _

theorem accurate_run_iff (events : List RunEvent) :
    (∀ pre, pre <+: events → (Mealy.after step {} pre).Accurate) ↔
      Mealy.Along step Allowed {} events := by
  have hsane : Sane {} := ⟨by simp, by simp, Int.le_refl 0⟩
  have hstep (s : Runs) (e : RunEvent) (hs : s.Sane) (haccurate : s.Accurate) :
      (s.step e).1.Accurate ↔ s.Allowed e := by
    rw [accurate_iff (sane_step s e hs)]
    exact count_step s e hs haccurate.count
  exact Mealy.always_iff_along sane_step hstep hsane ((accurate_iff hsane).mpr rfl)

def restarted : List RunEvent :=
  [.start true, .newConnection [], .start true, .newConnection [],
    .socket 0 (.disconnected .client)]

theorem late_teardown_miscounts :
    ¬(Mealy.after step {} restarted).Accurate ∧
      (Mealy.after step {} restarted).active = 0 ∧ (Mealy.after step {} restarted).live = 1 := by
  refine ⟨fun h => ?_, by decide, by decide⟩
  exact absurd h.count (by decide)

end Runs

end Tunnel.LocalForwarder
