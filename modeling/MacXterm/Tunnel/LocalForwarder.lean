import MacXterm.Qt.Text

namespace Tunnel

open Qt

namespace LocalForwarder

inductive SocketState where
  | unconnected | connecting | connected
deriving DecidableEq

-- received and sent: all bytes that came in from the socket's peer and that went out to it.
structure Socket where
  state : SocketState
  readBuffer : QByteArray := []
  writeBuffer : QByteArray := []
  received : QByteArray := []
  sent : QByteArray := []
deriving DecidableEq

namespace Socket

def receive (s : Socket) (bytes : QByteArray) : Socket :=
  { s with readBuffer := s.readBuffer ++ bytes, received := s.received ++ bytes }

def readAll (s : Socket) : QByteArray × Socket := (s.readBuffer, { s with readBuffer := [] })

def write (s : Socket) (bytes : QByteArray) : Socket :=
  if s.state = .unconnected then s else { s with writeBuffer := s.writeBuffer ++ bytes }

def flush (s : Socket) (n : Nat) : Socket :=
  { s with sent := s.sent ++ s.writeBuffer.take n, writeBuffer := s.writeBuffer.drop n }

def destroy (s : Socket) : Socket :=
  { s with state := .unconnected, readBuffer := [], writeBuffer := [] }

end Socket

inductive Side where
  | client | upstream
deriving DecidableEq

def Side.other : Side → Side
  | client => upstream
  | upstream => client

structure Pair where
  client : Socket
  upstream : Socket
  done : Bool := false
deriving DecidableEq

namespace Pair

def socket (p : Pair) : Side → Socket
  | .client => p.client
  | .upstream => p.upstream

def setSocket (p : Pair) (side : Side) (s : Socket) : Pair :=
  match side with
  | .client => { p with client := s }
  | .upstream => { p with upstream := s }

def pump (p : Pair) (side : Side) : Pair :=
  let r := (p.socket side).readAll
  (p.setSocket side r.2).setSocket side.other ((p.socket side.other).write r.1)

def teardown (p : Pair) : Pair :=
  if p.done then p
  else { client := p.client.destroy, upstream := p.upstream.destroy, done := true }

def accept (buffered : QByteArray) : Pair :=
  let p : Pair :=
    { client := { state := .connected, readBuffer := buffered, received := buffered }
      upstream := { state := .connecting } }
  if 0 < p.client.readBuffer.length then p.pump .client else p

end Pair

inductive SocketEvent where
  | connected
  | connectFailed
  | readyRead (side : Side) (bytes : QByteArray)
  | bytesWritten (side : Side) (n : Nat)
  | disconnected (side : Side)
deriving DecidableEq

-- The deferred deletes of a teardown run before the next socket event of the pair.
def Pair.on (p : Pair) (e : SocketEvent) : Pair :=
  if p.done then p
  else match e with
    | .connected =>
        if p.upstream.state = .connecting then
          p.setSocket .upstream { p.upstream with state := .connected }
        else p
    | .connectFailed =>
        if p.upstream.state = .connecting then
          p.setSocket .upstream { p.upstream with state := .unconnected }
        else p
    | .readyRead side bytes =>
        if (p.socket side).state = .connected then
          (p.setSocket side ((p.socket side).receive bytes)).pump side
        else p
    | .bytesWritten side n =>
        if (p.socket side).state = .connected then p.setSocket side ((p.socket side).flush n)
        else p
    | .disconnected side =>
        if (p.socket side).state = .connected then p.teardown else p

structure Forwarder where
  pairs : List Pair := []
  active : Nat := 0
deriving DecidableEq

inductive Event where
  | newConnection (buffered : QByteArray)
  | socket (i : Nat) (e : SocketEvent)
deriving DecidableEq

def Pair.tornDownBy (p : Pair) (e : SocketEvent) : Bool := !p.done && (p.on e).done

def Forwarder.step (f : Forwarder) : Event → Forwarder
  | .newConnection buffered => ⟨f.pairs ++ [Pair.accept buffered], f.active + 1⟩
  | .socket i e =>
      match f.pairs[i]? with
      | none => f
      | some p => ⟨f.pairs.set i (p.on e), if p.tornDownBy e then f.active - 1 else f.active⟩

def Forwarder.run (f : Forwarder) (events : List Event) : Forwarder :=
  events.foldl Forwarder.step f

-- What came in from `side` and is not yet out, as long as the other socket may still send it.
def Pair.Conserved (p : Pair) : Prop :=
  ∀ side, (p.socket side.other).state ≠ .unconnected →
    (p.socket side).received =
      (p.socket side.other).sent ++ (p.socket side.other).writeBuffer ∧
    (p.socket side).readBuffer = []

def Pair.closes (p : Pair) (side : Side) : Prop :=
  p.done = false ∧ (p.socket side).state = .connected ∧
    (p.socket side.other).state ≠ .unconnected

def Forwarder.NothingLost (f : Forwarder) : List Event → Prop
  | [] => ∀ p ∈ f.pairs, p.done = false → p.Conserved
  | e :: events =>
      (∀ p ∈ f.pairs, p.done = false → p.Conserved) ∧
      (∀ i side p, e = .socket i (.disconnected side) → f.pairs[i]? = some p → p.closes side →
        (p.socket side.other).sent = (p.socket side).received) ∧
      (f.step e).NothingLost events

def Forwarder.ClosesFlushed (f : Forwarder) : List Event → Prop
  | [] => True
  | e :: events =>
      (∀ i side p, e = .socket i (.disconnected side) → f.pairs[i]? = some p → p.closes side →
        (p.socket side.other).writeBuffer = []) ∧
      (f.step e).ClosesFlushed events

@[simp] theorem other_other (side : Side) : side.other.other = side := by cases side <;> rfl

theorem side_cases (side x : Side) : x = side ∨ x = side.other := by
  cases side <;> cases x <;> simp [Side.other]

@[simp] theorem socket_setSocket_self (p : Pair) (side : Side) (s : Socket) :
    (p.setSocket side s).socket side = s := by
  cases side <;> rfl

@[simp] theorem socket_setSocket_other (p : Pair) (side : Side) (s : Socket) :
    (p.setSocket side s).socket side.other = p.socket side.other := by
  cases side <;> rfl

@[simp] theorem socket_setSocket_of_other (p : Pair) (side : Side) (s : Socket) :
    (p.setSocket side.other s).socket side = p.socket side := by
  cases side <;> rfl

theorem socket_pump_self (p : Pair) (side : Side) :
    (p.pump side).socket side = { p.socket side with readBuffer := [] } := by
  simp [Pair.pump, Socket.readAll]

theorem socket_pump_other (p : Pair) (side : Side) :
    (p.pump side).socket side.other = (p.socket side.other).write (p.socket side).readBuffer := by
  simp [Pair.pump, Socket.readAll]

@[simp] theorem state_write (s : Socket) (bytes : QByteArray) :
    (s.write bytes).state = s.state := by
  unfold Socket.write
  split <;> rfl

@[simp] theorem received_write (s : Socket) (bytes : QByteArray) :
    (s.write bytes).received = s.received := by
  unfold Socket.write
  split <;> rfl

@[simp] theorem readBuffer_write (s : Socket) (bytes : QByteArray) :
    (s.write bytes).readBuffer = s.readBuffer := by
  unfold Socket.write
  split <;> rfl

theorem write_open {s : Socket} (h : s.state ≠ .unconnected) (bytes : QByteArray) :
    s.write bytes = { s with writeBuffer := s.writeBuffer ++ bytes } := if_neg h

theorem conserved_accept (buffered : QByteArray) : (Pair.accept buffered).Conserved := by
  cases buffered with
  | nil =>
    intro side _
    cases side with
    | client => exact ⟨rfl, rfl⟩
    | upstream => exact ⟨rfl, rfl⟩
  | cons b bs =>
    intro side _
    cases side with
    | client => exact ⟨rfl, rfl⟩
    | upstream => exact ⟨rfl, rfl⟩

theorem conserved_setSocket {p : Pair} (h : p.Conserved) (side : Side) {s : Socket}
    (hstate : s.state ≠ .unconnected → (p.socket side).state ≠ .unconnected)
    (hin : s.received = (p.socket side).received ∧ s.readBuffer = (p.socket side).readBuffer)
    (hout : s.sent ++ s.writeBuffer = (p.socket side).sent ++ (p.socket side).writeBuffer) :
    (p.setSocket side s).Conserved := by
  intro x hx
  rcases side_cases side x with rfl | rfl
  · rw [socket_setSocket_other] at hx ⊢
    rw [socket_setSocket_self, hin.1, hin.2]
    exact h x hx
  · rw [other_other, socket_setSocket_self] at hx
    have hside := h side.other (by rw [other_other]; exact hstate hx)
    rw [other_other] at hside
    rw [other_other, socket_setSocket_self, socket_setSocket_other, hout]
    exact hside

theorem conserved_readyRead {p : Pair} (h : p.Conserved) (side : Side) (bytes : QByteArray) :
    ((p.setSocket side ((p.socket side).receive bytes)).pump side).Conserved := by
  intro x hx
  rcases side_cases side x with rfl | rfl
  · rw [socket_pump_other, socket_setSocket_other, state_write] at hx
    rw [socket_pump_other, socket_pump_self, socket_setSocket_other, socket_setSocket_self,
      write_open hx]
    obtain ⟨hreceived, hread⟩ := h x hx
    refine ⟨?_, rfl⟩
    simp [Socket.receive, hreceived, hread]
  · rw [other_other, socket_pump_self, socket_setSocket_self] at hx
    have hside := h side.other (by rw [other_other]; exact hx)
    rw [other_other] at hside
    rw [other_other, socket_pump_other, socket_pump_self, socket_setSocket_other,
      socket_setSocket_self, received_write, readBuffer_write]
    exact hside

theorem conserved_on {p : Pair} (h : p.Conserved) (e : SocketEvent)
    (hlive : (p.on e).done = false) : (p.on e).Conserved := by
  unfold Pair.on at hlive ⊢
  split
  · exact h
  · cases e with
    | connected =>
      dsimp only
      split
      · rename_i _ hconnecting
        refine conserved_setSocket h .upstream (fun _ => ?_) ⟨rfl, rfl⟩ rfl
        simp [Pair.socket, hconnecting]
      · exact h
    | connectFailed =>
      dsimp only
      split
      · exact conserved_setSocket h .upstream (fun hne => absurd rfl hne) ⟨rfl, rfl⟩ rfl
      · exact h
    | readyRead side bytes =>
      dsimp only
      split
      · exact conserved_readyRead h side bytes
      · exact h
    | bytesWritten side n =>
      dsimp only
      split
      · refine conserved_setSocket h side id ⟨rfl, rfl⟩ ?_
        simp [Socket.flush]
      · exact h
    | disconnected side =>
      rename_i hdone
      dsimp only at hlive ⊢
      split
      · rename_i hstate
        rw [if_neg hdone, if_pos hstate] at hlive
        simp [Pair.teardown, hdone] at hlive
      · exact h

theorem done_on {p : Pair} (h : p.done = true) (e : SocketEvent) : (p.on e).done = true := by
  unfold Pair.on
  rw [if_pos h, h]

theorem conserved_step {f : Forwarder} (h : ∀ p ∈ f.pairs, p.done = false → p.Conserved)
    (e : Event) : ∀ p ∈ (f.step e).pairs, p.done = false → p.Conserved := by
  cases e with
  | newConnection buffered =>
    intro p hp hlive
    rcases List.mem_append.mp hp with hp | hp
    · exact h p hp hlive
    · obtain rfl := List.mem_singleton.mp hp
      exact conserved_accept buffered
  | socket i e =>
    intro p hp hlive
    simp only [Forwarder.step] at hp
    split at hp
    · exact h p hp hlive
    · rename_i q hq
      rcases List.mem_or_eq_of_mem_set hp with hp | rfl
      · exact h p hp hlive
      · have hbefore : q.done = false := by
          by_contra hdone
          rw [Bool.not_eq_false] at hdone
          rw [done_on hdone e] at hlive
          exact absurd hlive (by decide)
        exact conserved_on (h q (List.mem_of_getElem? hq) hbefore) e hlive

theorem sent_eq_received_iff {p : Pair} (h : p.Conserved) {side : Side} (hcloses : p.closes side) :
    (p.socket side.other).sent = (p.socket side).received ↔
      (p.socket side.other).writeBuffer = [] := by
  rw [(h side hcloses.2.2).1, List.self_eq_append_right]

theorem nothingLost_iff_of_conserved (events : List Event) {f : Forwarder}
    (h : ∀ p ∈ f.pairs, p.done = false → p.Conserved) :
    f.NothingLost events ↔ f.ClosesFlushed events := by
  induction events generalizing f with
  | nil => exact iff_of_true h trivial
  | cons e events ih =>
    simp only [Forwarder.NothingLost, Forwarder.ClosesFlushed, ih (conserved_step h e)]
    constructor
    · rintro ⟨-, hclose, hrest⟩
      refine ⟨fun i side p he hp hcloses => ?_, hrest⟩
      have hp' := h p (List.mem_of_getElem? hp) hcloses.1
      exact (sent_eq_received_iff hp' hcloses).mp (hclose i side p he hp hcloses)
    · rintro ⟨hclose, hrest⟩
      refine ⟨h, fun i side p he hp hcloses => ?_, hrest⟩
      have hp' := h p (List.mem_of_getElem? hp) hcloses.1
      exact (sent_eq_received_iff hp' hcloses).mpr (hclose i side p he hp hcloses)

def Forwarder.live (f : Forwarder) : Nat := f.pairs.countP fun p => !p.done

theorem live_step {f : Forwarder} (h : f.active = f.live) (e : Event) :
    (f.step e).active = (f.step e).live := by
  cases e with
  | newConnection buffered =>
    have haccept : (Pair.accept buffered).done = false := by cases buffered <;> rfl
    simp [Forwarder.step, Forwarder.live, h, haccept]
  | socket i e =>
    simp only [Forwarder.step]
    split
    · exact h
    · rename_i p hp
      obtain ⟨hi, hget⟩ := List.getElem?_eq_some_iff.mp hp
      simp only [Forwarder.live, List.countP_set hi, hget, Pair.tornDownBy] at h ⊢
      rcases Bool.eq_false_or_eq_true p.done with hdone | hdone
      · simp [hdone, done_on hdone e, h]
      · have hpos : 0 < f.pairs.countP fun p => !p.done :=
          List.countP_pos_iff.mpr ⟨p, List.mem_of_getElem? hp, by simp [hdone]⟩
        rcases Bool.eq_false_or_eq_true (p.on e).done with hafter | hafter
        · simp [hdone, hafter, h]
        · simp only [hdone, hafter, h, Bool.not_false, Bool.and_false, Bool.false_eq_true, if_false,
            if_true]
          omega

theorem active_run (events : List Event) :
    (Forwarder.run {} events).active = (Forwarder.run {} events).live := by
  suffices h : ∀ f : Forwarder, f.active = f.live →
      (f.run events).active = (f.run events).live from h {} rfl
  intro f hf
  induction events generalizing f with
  | nil => exact hf
  | cons e events ih => exact ih _ (live_step hf e)

theorem nothing_lost_iff (events : List Event) :
    Forwarder.NothingLost {} events ↔ Forwarder.ClosesFlushed {} events :=
  nothingLost_iff_of_conserved events (by simp)

theorem early_close_loses :
    ¬Forwarder.NothingLost {}
      [.newConnection [0x47], .socket 0 (.disconnected .client), .socket 0 .connected] := by
  rintro ⟨-, -, -, hclose, -⟩
  have h := hclose 0 .client (Pair.accept [0x47]) rfl rfl ⟨rfl, rfl, by decide⟩
  exact absurd h (by decide)

end LocalForwarder

end Tunnel
