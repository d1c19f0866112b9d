import MacXterm.Lib.Relay
import MacXterm.Qt.Text

namespace Connect

open Qt Relay

inductive JumpPoint
  | stopping
  | recv
  | write (buf : QByteArray) (off : Nat)
  | read
  | send (buf : QByteArray)
  | eof
deriving DecidableEq

namespace JumpPoint

def call : JumpPoint → Call UInt8
  | .stopping => .stopping
  | .recv => .recv 16384
  | .write buf off => .channelWrite (buf.drop off)
  | .read => .channelRead 16384
  | .send buf => .send buf
  | .eof => .channelEof

def next : JumpPoint → Reply UInt8 → Move JumpPoint
  | .stopping, .flag b => if b then .stop else .at .recv
  | .recv, .data bytes => .at (.write bytes 0)
  | .recv, .zero => .close
  | .recv, .again => .at .read
  | .recv, .error => .at .read
  | .write buf off, .took w =>
      if off + w < buf.length then .at (.write buf (off + w)) else .at .read
  | .write buf off, .again => .at (.write buf off)
  -- The break leaves the inner loop only.
  | .write _ _, .error => .at .read
  | .read, .data bytes => .at (.send bytes)
  | .read, .zero => .at .eof
  | .read, .again => .pass
  | .read, .error => .pass
  | .send _, .took _ => .pass
  | .send _, .again => .pass
  | .send _, .error => .pass
  | .eof, .flag b => if b then .close else .pass
  | p, _ => .at p

def out : JumpPoint → QByteArray
  | .write buf off => buf.drop off
  | _ => []

def inn : JumpPoint → QByteArray
  | .send buf => buf
  | _ => []

def Regular (l : Link UInt8) (p : JumpPoint) (r : Reply UInt8) : Prop :=
  Lossless l p.call r ∧ (p = .recv ∧ r = .zero → AtEnd l)

end JumpPoint

def jumpPump : Pump UInt8 JumpPoint := ⟨.stopping, JumpPoint.call, JumpPoint.next⟩

theorem jumpPump_careful : Careful jumpPump JumpPoint.out JumpPoint.inn where
  head := ⟨rfl, rfl⟩
  ready p := by cases p <;> trivial
  holds p r := by
    change Holds _ _ _ _ _ (JumpPoint.next p r)
    cases p with
    | stopping =>
      cases r with
      | flag b => exact .ite trivial ⟨rfl, rfl⟩
      | _ => trivial
    | write buf off =>
      cases r with
      | took w => exact holds_written buf off w ⟨rfl, rfl⟩ ⟨rfl, rfl⟩
      | _ => trivial
    | eof =>
      cases r with
      | flag b => exact .ite rfl ⟨rfl, rfl⟩
      | _ => trivial
    | _ => cases r <;> trivial

theorem jumpPump_closes : ClosesAtEnd jumpPump JumpPoint.Regular := by
  intro l l' p r hanswer hok hclosed
  cases p with
  | stopping =>
    cases r with
    | flag b => exact absurd hclosed (ite_ne_close nofun nofun)
    | _ => cases hclosed
  | recv =>
    cases r with
    | zero => cases hanswer; exact hok.2 ⟨rfl, rfl⟩
    | _ => cases hclosed
  | write buf off =>
    cases r with
    | took w => exact absurd hclosed (ite_ne_close nofun nofun)
    | _ => cases hclosed
  | read => cases r <;> cases hclosed
  | send buf => cases r <;> cases hclosed
  | eof =>
    cases r with
    | flag b =>
      cases b with
      | true => exact answer_eof hanswer
      | false => cases hclosed
    | _ => cases hclosed

-- One connection of the loop in `pumpX11`; `dead` is the flag of the source.
inductive X11Point
  | recv
  | write (buf : QByteArray) (off : Nat)
  | read (dead : Bool)
  | send (dead : Bool) (buf : QByteArray)
  | eof
deriving DecidableEq

namespace X11Point

def call : X11Point → Call UInt8
  | .recv => .recv 8192
  | .write buf off => .channelWrite (buf.drop off)
  | .read _ => .channelRead 8192
  | .send _ buf => .send buf
  | .eof => .channelEof

def next : X11Point → Reply UInt8 → Move X11Point
  | .recv, .data bytes => .at (.write bytes 0)
  | .recv, .zero => .at (.read true)
  | .recv, .again => .at (.read false)
  | .recv, .error => .at (.read false)
  | .write buf off, .took w =>
      if off + w < buf.length then .at (.write buf (off + w)) else .at .recv
  | .write buf off, .again => .at (.write buf off)
  | .write _ _, .error => .at (.read true)
  | .read dead, .data bytes => .at (.send dead bytes)
  | .read dead, .zero => if dead then .close else .at .eof
  | .read dead, .again => if dead then .close else .at .eof
  | .read dead, .error => if dead then .close else .at .eof
  | .send dead _, .took _ => .at (.read dead)
  | .send dead _, .again => .at (.read dead)
  | .send dead _, .error => .at (.read dead)
  | .eof, .flag b => if b then .close else .pass
  | p, _ => .at p

def out : X11Point → QByteArray
  | .write buf off => buf.drop off
  | _ => []

def inn : X11Point → QByteArray
  | .send _ buf => buf
  | _ => []

-- The points after `dead` is set.
def Dead : X11Point → Prop
  | .read dead => dead = true
  | .send dead _ => dead = true
  | _ => False

def Regular (l : Link UInt8) (p : X11Point) (r : Reply UInt8) : Prop :=
  SendsWhole l p.call r ∧ (p = .read true → r = .zero ∨ r = .again → AtEnd l)

end X11Point

def x11Pump : Pump UInt8 X11Point := ⟨.recv, X11Point.call, X11Point.next⟩

theorem x11Pump_careful : Careful x11Pump X11Point.out X11Point.inn where
  head := ⟨rfl, rfl⟩
  ready p := by cases p <;> trivial
  holds p r := by
    change Holds _ _ _ _ _ (X11Point.next p r)
    cases p with
    | write buf off =>
      cases r with
      | took w => exact holds_written buf off w ⟨rfl, rfl⟩ ⟨rfl, rfl⟩
      | _ => trivial
    | read dead =>
      cases r with
      | zero => exact .ite rfl ⟨rfl, rfl⟩
      | again => exact .ite rfl ⟨rfl, rfl⟩
      | error => exact .ite rfl ⟨rfl, rfl⟩
      | _ => trivial
    | eof =>
      cases r with
      | flag b => exact .ite rfl ⟨rfl, rfl⟩
      | _ => trivial
    | _ => cases r <;> trivial

theorem x11Pump_quiet : Quiet x11Pump X11Point.Dead where
  enters p q buf hcall h := by
    cases p with
    | write buf off => cases h; rfl
    | _ => cases hcall
  stays p q r hdead h := by
    cases p with
    | read dead =>
      obtain rfl : dead = true := hdead
      cases r <;> cases h <;> rfl
    | send dead buf =>
      obtain rfl : dead = true := hdead
      cases r <;> cases h <;> rfl
    | _ => exact hdead.elim
  silent p buf hdead h := by
    cases p with
    | write buf off => exact hdead
    | _ => cases h

theorem x11Pump_closes : ClosesAtEnd x11Pump X11Point.Regular := by
  intro l l' p r hanswer hok hclosed
  cases p with
  | recv => cases r <;> cases hclosed
  | write buf off =>
    cases r with
    | took w => exact absurd hclosed (ite_ne_close nofun nofun)
    | _ => cases hclosed
  | read dead =>
    cases dead with
    | true =>
      cases r with
      | zero => cases hanswer; exact hok.2 rfl (.inl rfl)
      | again => cases hanswer; exact hok.2 rfl (.inr rfl)
      | error => cases hanswer; exact .inr (.inl rfl)
      | _ => cases hclosed
    | false => cases r <;> cases hclosed
  | send dead buf => cases r <;> cases hclosed
  | eof =>
    cases r with
    | flag b =>
      cases b with
      | true => exact answer_eof hanswer
      | false => cases hclosed
    | _ => cases hclosed

abbrev X11Forwards := Server UInt8 X11Point

-- A call of libssh2 may open a channel (`acceptX11`) while the list is served.
def pumpX11 (s : X11Forwards) (e : Event UInt8) : Option X11Forwards := s.step x11Pump true e

end Connect
