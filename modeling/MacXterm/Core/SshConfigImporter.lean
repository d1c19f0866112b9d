import MacXterm.Core.Readings
import MacXterm.Core.SessionTree

namespace Core

open Qt SerialConnection

namespace SshConfigImporter

structure Pending where
  «alias» : QString := []
  hostName : QString := []
  user : QString := []
  identityFile : QString := []
  proxyJump : QString := []
  port : Int := 0
  deriving DecidableEq

namespace Pending

def valid (p : Pending) : Bool :=
  p.alias ≠ [] && !p.alias.contains '*' && !p.alias.contains '?'

def session (p : Pending) : Session :=
  let s : Session := ⟨p.alias, .ssh, .empty⟩
  let s := s.setHost (if p.hostName = [] then p.alias else p.hostName)
  let s := if p.user = [] then s else s.setUsername p.user
  let s := if 0 < p.port then s.setPort p.port else s
  let s := if p.identityFile = [] then s else s.setParam "keyfile" p.identityFile
  if p.proxyJump = [] then s else s.setParam "jumphost" p.proxyJump

theorem session_type (p : Pending) : p.session.type = .ssh := by
  simp only [session, Session.setHost, Session.setUsername, Session.setPort]
  split_ifs <;> rfl

def set (p : Pending) (key val : QString) : Pending :=
  if key = ("hostname" : String) then { p with hostName := val }
  else if key = ("user" : String) then { p with user := val }
  else if key = ("port" : String) then { p with port := (toInt val).getD 0 }
  else if key = ("identityfile" : String) then { p with identityFile := val }
  else if key = ("proxyjump" : String) then { p with proxyJump := val }
  else p

end Pending

-- The pending block is emptied by its caller.
def flush (p : Pending) (root : SessionFolder) : SessionFolder :=
  if p.valid then root.addSession p.session else root

-- \s of a regular expression without the Unicode property option.
def isBlank (c : Char) : Bool := c == ' ' || ('\t' ≤ c && c ≤ '\r')

-- The keyword and the value of one line; none where the loop goes on to the next.
def readLine (raw : QString) : Option (QString × QString) :=
  let line := trimmed raw
  if line = [] ∨ line.head? = some '#' then none
  else
    let norm := line.map fun c => if c = '=' then ' ' else c
    match norm.dropWhile fun c => !isBlank c with
    | [] => none
    | _ :: rest =>
        let val := trimmed rest
        if val = [] then none else some (toLower (norm.takeWhile fun c => !isBlank c), val)

def assign (s : Pending × SessionFolder) (line : QString × QString) : Pending × SessionFolder :=
  if line.1 = ("host" : String) then
    ({ «alias» := line.2.takeWhile (· != ' ') }, flush s.1 s.2)
  else (s.1.set line.1 line.2, s.2)

def lines (configText : QByteArray) : List (QString × QString) :=
  ((fromUtf8 configText).splitOn '\n').filterMap readLine

def parse (configText : QByteArray) : SessionFolder :=
  let s := (lines configText).foldl assign ({}, ⟨("Imported (ssh_config)" : String), [], []⟩)
  flush s.1 s.2

-- The blocks in the order in which they are flushed.
def blocksFrom : Pending → List (QString × QString) → List Pending
  | cur, [] => [cur]
  | cur, line :: rest =>
      if line.1 = ("host" : String) then
        cur :: blocksFrom { «alias» := line.2.takeWhile (· != ' ') } rest
      else blocksFrom (cur.set line.1 line.2) rest

def blocks (configText : QByteArray) : List Pending := blocksFrom {} (lines configText)

theorem flush_sessions (p : Pending) (root : SessionFolder) :
    (flush p root).sessions = root.sessions ++ ([p].filter Pending.valid).map Pending.session := by
  unfold flush
  split
  · rename_i h
    simp [SessionFolder.addSession, h]
  · rename_i h
    simp [h]

theorem foldl_sessions (ls : List (QString × QString)) (cur : Pending) (root : SessionFolder) :
    (flush (ls.foldl assign (cur, root)).1 (ls.foldl assign (cur, root)).2).sessions =
      root.sessions ++ ((blocksFrom cur ls).filter Pending.valid).map Pending.session := by
  induction ls generalizing cur root with
  | nil => exact flush_sessions cur root
  | cons line ls ih =>
    rw [List.foldl_cons, assign, blocksFrom]
    split
    · rw [ih, flush_sessions, List.append_assoc, ← List.map_append, ← List.filter_append,
        List.singleton_append]
    · exact ih _ _

theorem parse_sessions (configText : QByteArray) : (parse configText).sessions =
    ((blocks configText).filter Pending.valid).map Pending.session :=
  foldl_sessions _ _ _

end SshConfigImporter

end Core
