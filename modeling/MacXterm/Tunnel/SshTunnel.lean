import MacXterm.Lib.Relay
import MacXterm.Qt.Text

namespace Tunnel

open Qt Relay

inductive RelayPoint
  | stopping
  | poll
  | recv
  | write (buf : QByteArray) (off : Nat)
  | read
  | send (buf : QByteArray)
  | eof
deriving DecidableEq

namespace RelayPoint

def call : RelayPoint → Call UInt8
  | .stopping => .stopping
  | .poll => .poll
  | .recv => .recv 16384
  | .write buf off => .channelWrite (buf.drop off)
  | .read => .channelRead 16384
  | .send buf => .send buf
  | .eof => .channelEof

def next : RelayPoint → Reply UInt8 → Move RelayPoint
  | .stopping, .flag b => if b then .stop else .at .poll
  | .poll, .polled n => if 0 < n then .at .recv else .at .read
  | .recv, .data bytes => .at (.write bytes 0)
  | .recv, .zero => .close
  | .recv, .again => .close
  | .recv, .error => .close
  | .write buf off, .took w =>
      if off + w < buf.length then .at (.write buf (off + w)) else .at .read
  | .write buf off, .again => .at (.write buf off)
  | .write _ _, .error => .close
  | .read, .data bytes => .at (.send bytes)
  | .read, .again => .at .eof
  | .read, .zero => .close
  | .read, .error => .close
  -- What `send` returns is not looked at.
  | .send _, .took _ => .at .read
  | .send _, .again => .at .read
  | .send _, .error => .at .read
  | .eof, .flag b => if b then .close else .pass
  | p, _ => .at p

def out : RelayPoint → QByteArray
  | .write buf off => buf.drop off
  | _ => []

def inn : RelayPoint → QByteArray
  | .send buf => buf
  | _ => []

end RelayPoint

def pumpRelay : Pump UInt8 RelayPoint := ⟨.stopping, RelayPoint.call, RelayPoint.next⟩

theorem pumpRelay_careful : Careful pumpRelay RelayPoint.out RelayPoint.inn where
  head := ⟨rfl, rfl⟩
  ready p := by cases p <;> trivial
  holds p r := by
    change Holds _ _ _ _ _ (RelayPoint.next p r)
    cases p with
    | stopping =>
      cases r with
      | flag b => exact .ite trivial ⟨rfl, rfl⟩
      | _ => trivial
    | poll =>
      cases r with
      | polled n => exact .ite ⟨rfl, rfl⟩ ⟨rfl, rfl⟩
      | _ => trivial
    | write buf off =>
      cases r with
      | took w => exact holds_written buf off w ⟨rfl, rfl⟩ ⟨rfl, rfl⟩
      | _ => trivial
    | eof =>
      cases r with
      | flag b => exact .ite rfl ⟨rfl, rfl⟩
      | _ => trivial
    | _ => cases r <;> trivial

-- The condition on one reply: a send takes all, and neither an empty read nor a passing error of
-- `recv` comes before the end of the channel.
def RelayPoint.Regular (l : Link UInt8) (p : RelayPoint) (r : Reply UInt8) : Prop :=
  SendsWhole l p.call r ∧ (r = .zero ∨ (p = .recv ∧ r = .again) → AtEnd l)

theorem pumpRelay_quiet : Quiet pumpRelay fun _ => False where
  enters p q buf hcall h := by
    cases p with
    | write buf off => cases h
    | _ => cases hcall
  stays _ _ _ h := h.elim
  silent _ _ h := h.elim

theorem pumpRelay_closes : ClosesAtEnd pumpRelay RelayPoint.Regular := by
  intro l l' p r hanswer hok hclosed
  cases p with
  | stopping =>
    cases r with
    | flag b => exact absurd hclosed (ite_ne_close nofun nofun)
    | _ => cases hclosed
  | poll =>
    cases r with
    | polled n => exact absurd hclosed (ite_ne_close nofun nofun)
    | _ => cases hclosed
  | recv =>
    cases r with
    | zero => cases hanswer; exact hok.2 (.inl rfl)
    | again => cases hanswer; exact hok.2 (.inr ⟨rfl, rfl⟩)
    | error => cases hanswer; exact .inl rfl
    | _ => cases hclosed
  | write buf off =>
    cases r with
    | took w => exact absurd hclosed (ite_ne_close nofun nofun)
    | error => cases hanswer; exact .inr (.inl rfl)
    | _ => cases hclosed
  | read =>
    cases r with
    | zero => cases hanswer; exact hok.2 (.inl rfl)
    | error => cases hanswer; exact .inr (.inl rfl)
    | _ => cases hclosed
  | eof =>
    cases r with
    | flag b =>
      cases b with
      | true => exact answer_eof hanswer
      | false => cases hclosed
    | _ => cases hclosed
  | _ => cases r <;> cases hclosed

-- One pair of the loop in `remoteListenerWorker`.
inductive PairPoint
  | read
  | send (buf : QByteArray)
  | poll
  | recv
  | write (buf : QByteArray) (off : Nat)
  | eof
deriving DecidableEq

namespace PairPoint

def call : PairPoint → Call UInt8
  | .read => .channelRead 16384
  | .send buf => .send buf
  | .poll => .poll
  | .recv => .recv 16384
  | .write buf off => .channelWrite (buf.drop off)
  | .eof => .channelEof

def next : PairPoint → Reply UInt8 → Move PairPoint
  | .read, .data bytes => .at (.send bytes)
  | .read, .again => .at .poll
  | .read, .zero => .close
  | .read, .error => .close
  | .send _, .took _ => .at .read
  | .send _, .again => .at .read
  | .send _, .error => .at .read
  | .poll, .polled n => if 0 < n then .at .recv else .at .eof
  | .recv, .data bytes => .at (.write bytes 0)
  | .recv, .zero => .close
  | .recv, .again => .close
  | .recv, .error => .close
  | .write buf off, .took w =>
      if off + w < buf.length then .at (.write buf (off + w)) else .at .eof
  | .write buf off, .again => .at (.write buf off)
  | .write _ _, .error => .close
  | .eof, .flag b => if b then .close else .pass
  | p, _ => .at p

def out : PairPoint → QByteArray
  | .write buf off => buf.drop off
  | _ => []

def inn : PairPoint → QByteArray
  | .send buf => buf
  | _ => []

def Regular (l : Link UInt8) (p : PairPoint) (r : Reply UInt8) : Prop :=
  SendsWhole l p.call r ∧ (r = .zero ∨ (p = .recv ∧ r = .again) → AtEnd l)

end PairPoint

def remotePair : Pump UInt8 PairPoint := ⟨.read, PairPoint.call, PairPoint.next⟩

theorem remotePair_careful : Careful remotePair PairPoint.out PairPoint.inn where
  head := ⟨rfl, rfl⟩
  ready p := by cases p <;> trivial
  holds p r := by
    change Holds _ _ _ _ _ (PairPoint.next p r)
    cases p with
    | poll =>
      cases r with
      | polled n => exact .ite ⟨rfl, rfl⟩ ⟨rfl, rfl⟩
      | _ => trivial
    | write buf off =>
      cases r with
      | took w => exact holds_written buf off w ⟨rfl, rfl⟩ ⟨rfl, rfl⟩
      | _ => trivial
    | eof =>
      cases r with
      | flag b => exact .ite rfl ⟨rfl, rfl⟩
      | _ => trivial
    | _ => cases r <;> trivial

theorem remotePair_quiet : Quiet remotePair fun _ => False where
  enters p q buf hcall h := by
    cases p with
    | write buf off => cases h
    | _ => cases hcall
  stays _ _ _ h := h.elim
  silent _ _ h := h.elim

theorem remotePair_closes : ClosesAtEnd remotePair PairPoint.Regular := by
  intro l l' p r hanswer hok hclosed
  cases p with
  | read =>
    cases r with
    | zero => cases hanswer; exact hok.2 (.inl rfl)
    | error => cases hanswer; exact .inr (.inl rfl)
    | _ => cases hclosed
  | send buf => cases r <;> cases hclosed
  | poll =>
    cases r with
    | polled n => exact absurd hclosed (ite_ne_close nofun nofun)
    | _ => cases hclosed
  | recv =>
    cases r with
    | zero => cases hanswer; exact hok.2 (.inl rfl)
    | again => cases hanswer; exact hok.2 (.inr ⟨rfl, rfl⟩)
    | error => cases hanswer; exact .inl rfl
    | _ => cases hclosed
  | write buf off =>
    cases r with
    | took w => exact absurd hclosed (ite_ne_close nofun nofun)
    | error => cases hanswer; exact .inr (.inl rfl)
    | _ => cases hclosed
  | eof =>
    cases r with
    | flag b =>
      cases b with
      | true => exact answer_eof hanswer
      | false => cases hclosed
    | _ => cases hclosed

abbrev RemoteListener := Server UInt8 PairPoint

def remoteListenerWorker (s : RemoteListener) (e : Event UInt8) : Option RemoteListener :=
  s.step remotePair false e

end Tunnel
