import Mathlib.Algebra.GroupWithZero.Nat
import MacXterm.Core.StoreRoundTrip

namespace Core

open Qt SessionFolder

-- A statement that fails is undone alone, or SQLite cancels the whole transaction with it.
inductive Outcome
  | ok
  | failed
  | rolledBack
deriving DecidableEq

-- How the statements of a save go; the inserts are numbered in the order in which they run.
structure Outcomes where
  begin : Bool
  delete : Outcome
  insert : Nat → Outcome
  commit : Outcome

-- What is on the disk, and what an open transaction would make of it.
structure Connection where
  durable : Tables
  pending : Option Tables

namespace Connection

def tables (c : Connection) : Tables := c.pending.getD c.durable

def write (c : Connection) (t : Tables) : Connection :=
  match c.pending with
  | some _ => { c with pending := some t }
  | none => { c with durable := t }

def cancel (c : Connection) : Connection := { c with pending := none }

-- `change` is none where a constraint does not allow the statement.
def exec (c : Connection) (o : Outcome) (change : Tables → Option Tables) : Bool × Connection :=
  match o with
  | .ok =>
      match change c.tables with
      | some t => (true, c.write t)
      | none => (false, c)
  | .failed => (false, c)
  | .rolledBack => (false, c.cancel)

end Connection

structure SaveRun where
  conn : Connection
  next : Nat

def SaveRun.insert (o : Outcomes) (r : SaveRun) (change : Tables → Option Tables) :
    Bool × SaveRun :=
  let done := r.conn.exec (o.insert r.next) change
  (done.1, ⟨done.2, r.next + 1⟩)

def insertFolder (parentId : Option Nat) (name : QString) (t : Tables) : Option Tables :=
  if parentId.all fun i => i ∈ t.sessionFolder.map FolderRow.id then
    some { t with sessionFolder := t.sessionFolder ++ [⟨t.nextFolder, parentId, name⟩] }
  else none

def insertSession (folderId : Nat) (s : Session) (t : Tables) : Option Tables :=
  if folderId ∈ t.sessionFolder.map FolderRow.id then
    some { t with session := t.session ++ [sessionRow t.nextSession folderId s] }
  else none

def insertParam (sid : Nat) (e : QString × QString) (t : Tables) : Option Tables :=
  if sid ∈ t.session.map SessionRow.id then some (t.replaceParam ⟨sid, e.1, e.2⟩) else none

-- lastInsertId() is 0 after an insert that failed.
def lastInsertId (ok : Bool) (id : Nat) : Nat := if ok then id else 0

def runParam (o : Outcomes) (sid : Nat) (r : SaveRun) (e : QString × QString) : SaveRun :=
  (r.insert o (insertParam sid e)).2

def runSession (o : Outcomes) (folderId : Nat) (r : SaveRun) (s : Session) : SaveRun :=
  let done := r.insert o (insertSession folderId s)
  s.params.entries.foldl (runParam o (lastInsertId done.1 r.conn.tables.nextSession)) done.2

mutual

def runFolder (o : Outcomes) (parentId : Option Nat) (r : SaveRun) : SessionFolder → SaveRun
  | ⟨name, folders, sessions⟩ =>
      let done := r.insert o (insertFolder parentId name)
      let folderId := lastInsertId done.1 r.conn.tables.nextFolder
      runFolders o folderId (sessions.foldl (runSession o folderId) done.2) folders

def runFolders (o : Outcomes) (folderId : Nat) (r : SaveRun) : List SessionFolder → SaveRun
  | [] => r
  | sub :: rest => runFolders o folderId (runFolder o (some folderId) r sub) rest

end

def Connection.begin (c : Connection) (ok : Bool) : Connection :=
  match c.pending with
  | some _ => c
  | none => if ok then { c with pending := some c.durable } else c

def Connection.commit (c : Connection) (o : Outcome) : Bool × Connection :=
  match c.pending with
  | none => (false, c)
  | some t =>
      match o with
      | .ok => (true, ⟨t, none⟩)
      | .failed => (false, c)
      | .rolledBack => (false, c.cancel)

-- Only what the commit returns is looked at.
def saveTree (o : Outcomes) (c : Connection) (root : SessionFolder) : Bool × Connection :=
  let c := c.begin o.begin
  let c := (c.exec o.delete fun _ => some .empty).2
  let r := runFolder o none ⟨c, 0⟩ root
  r.conn.commit o.commit

def sessionStatements (s : Session) : Nat := 1 + s.params.entries.length

mutual

def statements : SessionFolder → Nat
  | ⟨_, folders, sessions⟩ => 1 + (sessions.map sessionStatements).sum + allStatements folders

def allStatements : List SessionFolder → Nat
  | [] => 0
  | f :: fs => statements f + allStatements fs

end

theorem exec_cases (c : Connection) (o : Outcome) (change : Tables → Option Tables) :
    (o = .ok ∧ ∃ t, change c.tables = some t ∧ c.exec o change = (true, c.write t)) ∨
    (o ≠ .rolledBack ∧ (o = .ok → change c.tables = none) ∧ c.exec o change = (false, c)) ∨
    (o = .rolledBack ∧ c.exec o change = (false, c.cancel)) := by
  cases o with
  | ok =>
    cases h : change c.tables with
    | some t => exact .inl ⟨rfl, t, rfl, by simp [Connection.exec, h]⟩
    | none => exact .inr (.inl ⟨by decide, fun _ => rfl, by simp [Connection.exec, h]⟩)
  | failed => exact .inr (.inl ⟨by decide, nofun, rfl⟩)
  | rolledBack => exact .inr (.inr ⟨rfl, rfl⟩)

section Runs

variable {o : Outcomes} {m : Nat} {I : SaveRun → Prop}

theorem foldl_induct {α : Type} {visit : SaveRun → α → SaveRun} {cost : α → Nat}
    (hvisit : ∀ a r, r.next + cost a ≤ m → I r →
      I (visit r a) ∧ (visit r a).next = r.next + cost a)
    (as : List α) (r : SaveRun) (hm : r.next + (as.map cost).sum ≤ m) (h : I r) :
    I (as.foldl visit r) ∧ (as.foldl visit r).next = r.next + (as.map cost).sum := by
  induction as generalizing r with
  | nil => exact ⟨h, rfl⟩
  | cons a as ih =>
    rw [List.map_cons, List.sum_cons] at hm ⊢
    obtain ⟨hI, hnext⟩ := hvisit a r (by omega) h
    obtain ⟨hall, hlast⟩ := ih (visit r a) (by omega) hI
    exact ⟨hall, by rw [List.foldl_cons, hlast, hnext, Nat.add_assoc]⟩

theorem runSession_induct (hstep : ∀ r change, r.next < m → I r → I (r.insert o change).2)
    (folderId : Nat) (s : Session) (r : SaveRun) (hm : r.next + sessionStatements s ≤ m) (h : I r) :
    I (runSession o folderId r s) ∧ (runSession o folderId r s).next =
      r.next + sessionStatements s := by
  rw [sessionStatements] at hm ⊢
  have hfirst : I (r.insert o (insertSession folderId s)).2 := hstep r _ (by omega) h
  have hparams := @foldl_induct m I _ (runParam o (lastInsertId (r.insert o
    (insertSession folderId s)).1 r.conn.tables.nextSession)) (fun _ => 1)
    (fun e r hr hI => ⟨hstep r _ (by omega) hI, rfl⟩) s.params.entries
    (r.insert o (insertSession folderId s)).2
  have hones : (s.params.entries.map fun _ => 1).sum = s.params.entries.length := by simp
  have hnext : (r.insert o (insertSession folderId s)).2.next = r.next + 1 := rfl
  rw [hones, hnext] at hparams
  obtain ⟨hI, hlast⟩ := hparams (by omega) hfirst
  exact ⟨hI, hlast.trans (Nat.add_assoc _ _ _)⟩

mutual

theorem runFolder_induct (hstep : ∀ r change, r.next < m → I r → I (r.insert o change).2)
    (parentId : Option Nat) :
    ∀ f r, r.next + statements f ≤ m → I r →
      I (runFolder o parentId r f) ∧ (runFolder o parentId r f).next = r.next + statements f
  | ⟨name, folders, sessions⟩, r, hm, h => by
    rw [statements] at hm ⊢
    have hfirst : I (r.insert o (insertFolder parentId name)).2 := hstep r _ (by omega) h
    have hnext : (r.insert o (insertFolder parentId name)).2.next = r.next + 1 := rfl
    obtain ⟨hI, hsessions⟩ := foldl_induct (fun s r => runSession_induct hstep _ s r) sessions _
      (by rw [hnext]; omega) hfirst
    obtain ⟨hall, hlast⟩ := runFolders_induct hstep _ folders _ (by rw [hsessions, hnext]; omega) hI
    rw [runFolder]
    exact ⟨hall, by rw [hlast, hsessions, hnext]; omega⟩

theorem runFolders_induct (hstep : ∀ r change, r.next < m → I r → I (r.insert o change).2)
    (folderId : Nat) :
    ∀ fs r, r.next + allStatements fs ≤ m → I r →
      I (runFolders o folderId r fs) ∧ (runFolders o folderId r fs).next = r.next + allStatements fs
  | [], r, _, h => by
    rw [runFolders, allStatements]
    exact ⟨h, rfl⟩
  | f :: fs, r, hm, h => by
    rw [allStatements] at hm ⊢
    obtain ⟨hI, hnext⟩ := runFolder_induct hstep (some folderId) f r (by omega) h
    obtain ⟨hall, hlast⟩ := runFolders_induct hstep folderId fs _ (by rw [hnext]; omega) hI
    rw [runFolders]
    exact ⟨hall, by rw [hlast, hnext, Nat.add_assoc]⟩

end

end Runs

end Core
