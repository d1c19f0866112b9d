import MacXterm.Lib.Pacing
import MacXterm.Tools.CronExpr

namespace Tools

open Qt Pacing

structure Job where
  expr : QString
  command : QString
  cron : CronExpr

-- A detached process, with the place of its job in m_jobs.
structure Launch where
  job : Nat
  program : QString
  arguments : List QString

structure CronServer where
  jobs : List Job
  running : Bool

namespace CronServer

def interval : Nat := 60000

def new : CronServer := ⟨[], false⟩

-- none where the expression's constructor has no defined result.
def addJob (s : CronServer) (cronExpr command : QString) : Option (Bool × CronServer) :=
  (CronExpr.ofString cronExpr).map fun c =>
    if c.valid then (true, { s with jobs := s.jobs ++ [⟨cronExpr, command, c⟩] }) else (false, s)

def clearJobs (s : CronServer) : CronServer := { s with jobs := [] }

def start (s : CronServer) : CronServer := { s with running := true }

def stop (s : CronServer) : CronServer := { s with running := false }

def launch (now : DateTime) (p : Job × Nat) : Option Launch :=
  if p.1.cron.matches now then
    some ⟨p.2, ("/bin/sh" : String), [("-c" : String), p.1.command]⟩
  else none

def tick (s : CronServer) (now : DateTime) : List Launch :=
  s.jobs.zipIdx.filterMap (launch now)

-- Times in ms; calendar gives the local date and time of each minute.
def minuteOf (t : Nat) : Nat := t / 60000

def run (s : CronServer) (calendar : Nat → DateTime) (ticks : List Nat) : List (Nat × Launch) :=
  ticks.flatMap fun t => (s.tick (calendar (minuteOf t))).map (t, ·)

-- A coarse timer keeps within five percent of its interval.
def Coarse (t u : Nat) : Prop :=
  t + (interval - interval / 20) ≤ u ∧ u ≤ t + (interval + interval / 20)

instance (t u : Nat) : Decidable (Coarse t u) := inferInstanceAs (Decidable (_ ∧ _))

def startsIn (s : CronServer) (calendar : Nat → DateTime) (ticks : List Nat) (i m : Nat) : Nat :=
  (s.run calendar ticks).countP fun e => decide (e.2.job = i ∧ minuteOf e.1 = m)

def ExactlyOnce (s : CronServer) (calendar : Nat → DateTime) (ticks : List Nat) : Prop :=
  ∀ i (h : i < s.jobs.length) m, Within (ticks.map minuteOf) m →
    (s.jobs[i]).cron.matches (calendar m) = true → s.startsIn calendar ticks i m = 1

def Due (s : CronServer) (calendar : Nat → DateTime) (m : Nat) : Prop :=
  ∃ j ∈ s.jobs, j.cron.matches (calendar m) = true

section Counting

variable {s : CronServer} {calendar : Nat → DateTime} {ticks : List Nat} {i m : Nat}

theorem paced_of_coarse {t u : Nat} (h : Coarse t u) : Paced (minuteOf t) (minuteOf u) := by
  unfold Coarse interval at h
  unfold Paced minuteOf
  omega

theorem isChain_paced (h : ticks.IsChain Coarse) : (ticks.map minuteOf).IsChain Paced :=
  (List.isChain_map minuteOf).mpr (h.imp fun _ _ => paced_of_coarse)

theorem countP_zipIdx {α : Type} {l : List α} (k : Nat) (P : α → Bool) (h : i < l.length) :
    (l.zipIdx k).countP (fun p => decide (p.2 = k + i) && P p.1) = if P l[i] then 1 else 0 := by
  induction l generalizing k i with
  | nil => exact absurd h (Nat.not_lt_zero i)
  | cons a l ih =>
    rw [List.zipIdx_cons, List.countP_cons]
    cases i with
    | zero =>
      have hnone : (l.zipIdx (k + 1)).countP (fun p => decide (p.2 = k + 0) && P p.1) = 0 := by
        refine List.countP_eq_zero.mpr fun p hp => ?_
        have hle := List.le_snd_of_mem_zipIdx hp
        have hne : p.2 ≠ k := by omega
        simp [hne]
      rw [hnone]
      simp
    | succ i =>
      have hshift : k + (i + 1) = k + 1 + i := by omega
      have hne : k ≠ k + 1 + i := by omega
      rw [hshift, ih (k + 1) (Nat.lt_of_succ_lt_succ h)]
      simp [hne]

theorem tick_counts (now : DateTime) (h : i < s.jobs.length) :
    (s.tick now).countP (fun e => decide (e.job = i)) =
      if (s.jobs[i]).cron.matches now then 1 else 0 := by
  have hone := countP_zipIdx 0 (fun j => j.cron.matches now) h
  rw [Nat.zero_add] at hone
  rw [tick, List.countP_filterMap, ← hone]
  refine List.countP_congr fun p _ => ?_
  unfold launch
  split
  · rename_i hmatch
    simp [hmatch]
  · rename_i hmatch
    simp [hmatch]

theorem startsIn_cons {t : Nat} : s.startsIn calendar (t :: ticks) i m =
    (s.tick (calendar (minuteOf t))).countP (fun e => decide (e.job = i ∧ minuteOf t = m)) +
      s.startsIn calendar ticks i m := by
  simp only [startsIn, run, List.flatMap_cons, List.countP_append, List.countP_map]
  rfl

theorem startsIn_eq (h : i < s.jobs.length)
    (hmatch : (s.jobs[i]).cron.matches (calendar m) = true) :
    s.startsIn calendar ticks i m = (ticks.map minuteOf).count m := by
  induction ticks with
  | nil => rfl
  | cons t ticks ih =>
    rw [startsIn_cons, ih, List.map_cons, List.count_cons, Nat.add_comm]
    by_cases hm : minuteOf t = m
    · subst hm
      have hone := tick_counts (calendar (minuteOf t)) h
      rw [if_pos hmatch] at hone
      simp [hone]
    · simp [hm]

theorem exactlyOnce_iff_count : s.ExactlyOnce calendar ticks ↔
    ∀ m, Within (ticks.map minuteOf) m → s.Due calendar m → (ticks.map minuteOf).count m = 1 := by
  constructor
  · rintro h m hm ⟨j, hj, hmatch⟩
    obtain ⟨i, hi, rfl⟩ := List.mem_iff_getElem.mp hj
    rw [← startsIn_eq hi hmatch]
    exact h i hi m hm hmatch
  · intro h i hi m hm hmatch
    rw [startsIn_eq hi hmatch]
    exact h m hm ⟨s.jobs[i], List.getElem_mem hi, hmatch⟩

end Counting

theorem exactly_once_iff (s : CronServer) (calendar : Nat → DateTime) (ticks : List Nat)
    (hticks : ticks.IsChain Coarse) :
    s.ExactlyOnce calendar ticks ↔ (ticks.map minuteOf).IsChain (Steady (s.Due calendar)) := by
  rw [exactlyOnce_iff_count]
  exact once_iff_steady (isChain_paced hticks)

section Drift

-- Thursday 1 January 2026, minute by minute from midnight on.
def newYear (m : Nat) : DateTime where
  minute := m % 60
  hour := m / 60 % 24
  day := 1
  month := 1
  dayOfWeek := 4
  minute_lt := Nat.mod_lt m (by decide)
  hour_lt := Nat.mod_lt (m / 60) (by decide)
  day_pos := by decide
  day_le := by decide
  month_pos := by decide
  month_le := by decide
  dayOfWeek_pos := by decide
  dayOfWeek_le := by decide

def everyMinute : CronServer :=
  (((new.addJob ("* * * * *" : String) ("date" : String)).map Prod.snd).getD new).start

theorem exactly_once_iff_two_ticks :
    [90000, 149000].IsChain Coarse ∧ (everyMinute.ExactlyOnce newYear [90000, 149000] ↔
      ([90000, 149000].map minuteOf).IsChain (Steady (everyMinute.Due newYear))) :=
  ⟨by decide, exactly_once_iff everyMinute newYear [90000, 149000] (by decide)⟩

theorem drifting_ticks_miss_the_minute :
    ([61000, 118000].IsChain Coarse ∧ ¬ everyMinute.ExactlyOnce newYear [61000, 118000]) ∧
      [59000, 122000].IsChain Coarse ∧ ¬ everyMinute.ExactlyOnce newYear [59000, 122000] := by
  refine ⟨⟨by decide, fun h => ?_⟩, by decide, fun h => ?_⟩
  · have htwice : everyMinute.startsIn newYear [61000, 118000] 0 1 = 2 := by decide
    have honce := h 0 (by decide) 1 (by decide) (by decide)
    rw [htwice] at honce
    omega
  · have hnever : everyMinute.startsIn newYear [59000, 122000] 0 1 = 0 := by decide
    have honce := h 0 (by decide) 1 (by decide) (by decide)
    rw [hnever] at honce
    omega

end Drift

end CronServer

end Tools
