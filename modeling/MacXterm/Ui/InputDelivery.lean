import MacXterm.Ui.TerminalWidget
import Mathlib.Data.List.TakeDrop

namespace Ui

open Qt

inductive ConnectionType where
  | ssh | localShell | telnet | serial | ftp | mosh | simpleTcp | vnc | rdp
deriving DecidableEq

-- What one write to a channel or a pty gives back; nothing is taken when it would block or fails.
inductive WriteResult where
  | took (n : Nat)
  | failed (code : Int)
deriving DecidableEq

-- isOpen: whether there is a channel, a pty master or an open device when input comes.
structure Turn where
  isOpen : Bool
  result : WriteResult
deriving DecidableEq

def writeRaw (turn : Turn) (data : QByteArray) : QByteArray × Int :=
  if turn.isOpen then
    match turn.result with
    | .took n => (data.take n, min n data.length)
    | .failed code => ([], code)
  else ([], -1)

-- Sockets, serial ports and processes of Qt buffer what they cannot write yet.
def writeDevice (turn : Turn) (data : QByteArray) : QByteArray × Int :=
  if turn.isOpen then
    match turn.result with
    | .took _ => (data, data.length)
    | .failed _ => ([], -1)
  else ([], -1)

-- The bytes the connection takes, and the count `send` returns.
def ConnectionType.send : ConnectionType → Turn → QByteArray → QByteArray × Int
  | ssh => writeRaw
  | localShell => writeRaw
  | telnet | serial | ftp | mosh | simpleTcp => writeDevice
  | vnc | rdp => fun _ _ => ([], -1)

structure Delivery where
  taken : QByteArray := []
  reported : List Int := []
deriving DecidableEq

-- `m_conn->send(bytes);`: the count goes nowhere.
def Delivery.send (d : Delivery) (type : ConnectionType) (turn : Turn) (bytes : QByteArray) :
    Delivery :=
  { d with taken := d.taken ++ (type.send turn bytes).1 }

def Delivery.sendAll (type : ConnectionType) :
    Delivery → (Nat → Turn) → List QByteArray → Delivery
  | d, _, [] => d
  | d, schedule, bytes :: rest =>
      (d.send type (schedule 0) bytes).sendAll type (fun i => schedule (i + 1)) rest

namespace TerminalWidget

-- What sendInput and feedInput handed to the connection, one entry for each call of send.
def handed (s : TerminalWidget) : List QByteArray :=
  s.sent.filterMap fun out => if out.1 = .connection then some out.2 else none

def delivery (s : TerminalWidget) (type : ConnectionType) (schedule : Nat → Turn) : Delivery :=
  Delivery.sendAll type {} schedule s.handed

def InputIntact (s : TerminalWidget) (type : ConnectionType) (schedule : Nat → Turn) : Prop :=
  (s.delivery type schedule).taken = s.stream .connection ∨
    (s.delivery type schedule).reported ≠ []

end TerminalWidget

def TakesAll (type : ConnectionType) (turn : Turn) (bytes : QByteArray) : Prop :=
  bytes = [] ∨ turn.isOpen = true ∧
    match type with
    | .ssh | .localShell => ∃ n, turn.result = .took n ∧ bytes.length ≤ n
    | .telnet | .serial | .ftp | .mosh | .simpleTcp => ∃ n, turn.result = .took n
    | .vnc | .rdp => False

theorem writeRaw_prefix (turn : Turn) (bytes : QByteArray) : (writeRaw turn bytes).1 <+: bytes := by
  rw [writeRaw]
  split
  · split
    · exact List.take_prefix _ _
    · exact List.nil_prefix
  · exact List.nil_prefix

theorem writeDevice_prefix (turn : Turn) (bytes : QByteArray) :
    (writeDevice turn bytes).1 <+: bytes := by
  rw [writeDevice]
  split
  · split
    · exact List.prefix_rfl
    · exact List.nil_prefix
  · exact List.nil_prefix

theorem sent_starts (type : ConnectionType) (turn : Turn) (bytes : QByteArray) :
    (type.send turn bytes).1 <+: bytes := by
  cases type with
  | ssh => exact writeRaw_prefix turn bytes
  | localShell => exact writeRaw_prefix turn bytes
  | telnet => exact writeDevice_prefix turn bytes
  | serial => exact writeDevice_prefix turn bytes
  | ftp => exact writeDevice_prefix turn bytes
  | mosh => exact writeDevice_prefix turn bytes
  | simpleTcp => exact writeDevice_prefix turn bytes
  | vnc => exact List.nil_prefix
  | rdp => exact List.nil_prefix

theorem writeRaw_all_iff (turn : Turn) (bytes : QByteArray) :
    (writeRaw turn bytes).1 = bytes ↔
      bytes = [] ∨ turn.isOpen = true ∧ ∃ n, turn.result = .took n ∧ bytes.length ≤ n := by
  obtain ⟨isOpen, result⟩ := turn
  cases isOpen with
  | false => simp [writeRaw]
  | true =>
    cases result with
    | took n =>
      simp only [writeRaw, if_true, List.take_eq_self_iff, true_and, WriteResult.took.injEq,
        exists_eq_left']
      refine ⟨Or.inr, ?_⟩
      rintro (rfl | h)
      · exact Nat.zero_le n
      · exact h
    | failed code => simp [writeRaw]

theorem writeDevice_all_iff (turn : Turn) (bytes : QByteArray) :
    (writeDevice turn bytes).1 = bytes ↔
      bytes = [] ∨ turn.isOpen = true ∧ ∃ n, turn.result = .took n := by
  obtain ⟨isOpen, result⟩ := turn
  cases isOpen with
  | false => simp [writeDevice]
  | true =>
    cases result with
    | took n => simp [writeDevice]
    | failed code => simp [writeDevice]

theorem send_all_iff (type : ConnectionType) (turn : Turn) (bytes : QByteArray) :
    (type.send turn bytes).1 = bytes ↔ TakesAll type turn bytes := by
  cases type with
  | ssh => exact writeRaw_all_iff turn bytes
  | localShell => exact writeRaw_all_iff turn bytes
  | telnet => exact writeDevice_all_iff turn bytes
  | serial => exact writeDevice_all_iff turn bytes
  | ftp => exact writeDevice_all_iff turn bytes
  | mosh => exact writeDevice_all_iff turn bytes
  | simpleTcp => exact writeDevice_all_iff turn bytes
  | vnc => simp [ConnectionType.send, TakesAll]
  | rdp => simp [ConnectionType.send, TakesAll]

namespace Delivery

theorem sendAll_reported (type : ConnectionType) (d : Delivery) (schedule : Nat → Turn)
    (writes : List QByteArray) : (d.sendAll type schedule writes).reported = d.reported := by
  induction writes generalizing d schedule with
  | nil => rfl
  | cons bytes rest ih => exact ih (d.send type (schedule 0) bytes) _

-- What has arrived is a prefix of each write in turn, so nothing makes up for a short one.
theorem sendAll_taken (type : ConnectionType) (d : Delivery) (schedule : Nat → Turn)
    (writes : List QByteArray) :
    ∃ arrived, (d.sendAll type schedule writes).taken = d.taken ++ arrived ∧
      arrived.length ≤ writes.flatten.length ∧
      (arrived = writes.flatten ↔
        ∀ i bytes, writes[i]? = some bytes → TakesAll type (schedule i) bytes) := by
  induction writes generalizing d schedule with
  | nil => exact ⟨[], by simp [sendAll], Nat.le_refl _, by simp⟩
  | cons bytes rest ih =>
    obtain ⟨arrived, htaken, hlength, hiff⟩ :=
      ih (d.send type (schedule 0) bytes) (fun i => schedule (i + 1))
    have hprefix := (sent_starts type (schedule 0) bytes).length_le
    refine ⟨(type.send (schedule 0) bytes).1 ++ arrived, ?_, ?_, ?_⟩
    · rw [sendAll, htaken, send, List.append_assoc]
    · rw [List.flatten_cons, List.length_append, List.length_append]
      omega
    · have hparts : (type.send (schedule 0) bytes).1 ++ arrived = bytes ++ rest.flatten ↔
          (type.send (schedule 0) bytes).1 = bytes ∧ arrived = rest.flatten := by
        constructor
        · intro h
          have hsum := congrArg List.length h
          rw [List.length_append, List.length_append] at hsum
          exact List.append_inj h (by omega)
        · rintro ⟨hfirst, hrest⟩
          rw [hfirst, hrest]
      rw [List.flatten_cons, hparts, send_all_iff, hiff]
      constructor
      · rintro ⟨hfirst, hrest⟩ i bytes' hi
        cases i with
        | zero =>
          obtain rfl := Option.some.inj hi
          exact hfirst
        | succ i => exact hrest i bytes' hi
      · intro h
        exact ⟨h 0 bytes rfl, fun i bytes' hi => h (i + 1) bytes' hi⟩

end Delivery

namespace TerminalWidget

theorem flatten_handed (s : TerminalWidget) : s.handed.flatten = s.stream .connection := by
  rw [handed, stream]
  induction s.sent with
  | nil => rfl
  | cons out sent ih =>
    by_cases hsink : out.1 = .connection
    · simp [hsink, ih]
    · simp [hsink, ih]

def listing : QString := ['l', 's', ' ', '-', 'l']

def pasted : TerminalWidget := run false { conn := true } [.paste listing true]

end TerminalWidget

end Ui
