import MacXterm.Connect.VncConnection
import MacXterm.Core.Session
import MacXterm.Lib.Mealy

namespace Connect

open Qt Core

structure SimpleTcpConnection where
  type : SessionType
  state : State
  -- Whether there is a socket, and whether its first byte is still to come.
  sock : Bool
  awaitingAck : Bool

namespace SimpleTcpConnection

inductive Signal where
  | write (data : QByteArray)
  | dataReceived (data : QByteArray)
  | stateChanged (s : State)
  | errorOccurred (text : QString)

-- What the socket reports and what the window asks for; a socket may take no more bytes.
inductive Input where
  | connected
  | readyRead (data : QByteArray)
  | disconnected
  | errorOccurred (text : QString)
  | send (data : QByteArray) (taken : Bool)
  | disconnectSession

def startupHandshake (type : SessionType) (session : Session) : QByteArray :=
  match type with
  | .rlogin =>
      let user := toUtf8 session.username
      [0] ++ (user ++ [0]) ++ (user ++ [0]) ++ (toUtf8 "xterm-256color/38400" ++ [0])
  | .rsh =>
      let remote := toUtf8 session.username
      let own := toUtf8 (session.params.value "localuser" session.username)
      let cmd := toUtf8 (session.param "remotecommand")
      [0x30, 0] ++ (own ++ [0]) ++ (remote ++ [0]) ++ (cmd ++ [0])
  | .xdmcp => [0, 1, 0, 2]
  | _ => []

def expectsAckByte (type : SessionType) : Bool := type = .rlogin || type = .rsh

def connecting (type : SessionType) : SimpleTcpConnection :=
  ⟨type, .connecting, true, expectsAckByte type⟩

def setState (c : SimpleTcpConnection) (s : State) : SimpleTcpConnection × List Signal :=
  if s ≠ c.state then ({ c with state := s }, [.stateChanged s]) else (c, [])

def fail (c : SimpleTcpConnection) (text : QString) : SimpleTcpConnection × List Signal :=
  let (c, out) := c.setState .failed
  (c, out ++ [.errorOccurred text])

def received (data : QByteArray) : List Signal := if data = [] then [] else [.dataReceived data]

def onReadyRead (c : SimpleTcpConnection) (data : QByteArray) :
    SimpleTcpConnection × List Signal :=
  match c.awaitingAck, data with
  | true, status :: data =>
      let c := { c with awaitingAck := false }
      if status ≠ 0 then c.fail "Remote rejected the connection" else (c, received data)
  | _, data => (c, received data)

def step (session : Session) (c : SimpleTcpConnection) (i : Input) :
    SimpleTcpConnection × List Signal :=
  if ¬c.sock then (c, [])
  else
    match i with
    | .connected =>
        let h := startupHandshake c.type session
        let (c, out) := c.setState .connected
        (c, (if h = [] then [] else [.write h]) ++ out)
    | .readyRead data => c.onReadyRead data
    | .disconnected => c.setState .closed
    | .errorOccurred text => c.fail text
    | .send data taken => (c, if taken then [.write data] else [])
    | .disconnectSession => { c with sock := false }.setState .disconnected

def Signal.written : Signal → QByteArray
  | .write data => data
  | _ => []

def Signal.shown : Signal → QByteArray
  | .dataReceived data => data
  | _ => []

def Signal.isError : Signal → Bool
  | .errorOccurred _ => true
  | _ => false

def written (out : List Signal) : QByteArray := out.flatMap Signal.written

def shown (out : List Signal) : QByteArray := out.flatMap Signal.shown

def errors (out : List Signal) : Nat := out.countP Signal.isError

-- What there is to read, and whether the status is refused.
def reading : Bool → List QByteArray → QByteArray × Bool
  | true, [] => ([], false)
  | true, [] :: more => reading true more
  | true, (status :: late) :: more =>
      if status ≠ 0 then (more.flatten, true) else (late ++ more.flatten, false)
  | false, chunks => (chunks.flatten, false)

theorem reading_false (chunks : List QByteArray) :
    reading false chunks = (chunks.flatten, false) := by
  cases chunks with
  | nil => rfl
  | cons data more => simp only [reading]

def Input.arrival : Input → Option QByteArray
  | .readyRead data => some data
  | _ => none

def Input.failure : Input → Bool
  | .errorOccurred _ => true
  | _ => false

def Input.keeps : Input → Bool
  | .disconnectSession => false
  | _ => true

-- What happens until the window gives the socket up.
def live (is : List Input) : List Input := is.takeWhile Input.keeps

def arrivals (is : List Input) : List QByteArray := (live is).filterMap Input.arrival

section Step

variable (c : SimpleTcpConnection) (session : Session)

theorem setState_quiet (s : State) : written (c.setState s).2 = [] ∧ shown (c.setState s).2 = [] ∧
    errors (c.setState s).2 = 0 := by
  unfold setState
  split
  · exact ⟨rfl, rfl, rfl⟩
  · exact ⟨rfl, rfl, rfl⟩

theorem setState_keeps (s : State) : (c.setState s).1.sock = c.sock ∧
    (c.setState s).1.type = c.type ∧ (c.setState s).1.awaitingAck = c.awaitingAck := by
  unfold setState
  split
  · exact ⟨rfl, rfl, rfl⟩
  · exact ⟨rfl, rfl, rfl⟩

theorem shown_received (data : QByteArray) : shown (received data) = data := by
  unfold received
  split
  · rename_i h
    exact h.symm
  · exact List.append_nil data

theorem errors_received (data : QByteArray) : errors (received data) = 0 := by
  unfold received
  split
  · rfl
  · rfl

theorem shown_append (a b : List Signal) : shown (a ++ b) = shown a ++ shown b :=
  List.flatMap_append

theorem written_append (a b : List Signal) : written (a ++ b) = written a ++ written b :=
  List.flatMap_append

theorem errors_append (a b : List Signal) : errors (a ++ b) = errors a + errors b :=
  List.countP_append

theorem written_received (data : QByteArray) : written (received data) = [] := by
  unfold received
  split
  · rfl
  · rfl

theorem fail_signals (text : QString) : written (c.fail text).2 = [] ∧
    shown (c.fail text).2 = [] ∧ errors (c.fail text).2 = 1 := by
  obtain ⟨hwritten, hshown, herrors⟩ := c.setState_quiet .failed
  change written ((c.setState .failed).2 ++ [.errorOccurred text]) = [] ∧
    shown ((c.setState .failed).2 ++ [.errorOccurred text]) = [] ∧
    errors ((c.setState .failed).2 ++ [.errorOccurred text]) = 1
  rw [written_append, shown_append, errors_append, hwritten, hshown, herrors]
  exact ⟨rfl, rfl, rfl⟩

end Step

-- What one input puts on the wire.
def wire (type : SessionType) (session : Session) : Input → QByteArray
  | .connected => startupHandshake type session
  | .send data true => data
  | _ => []

-- One step, as long as there is a socket.
structure Stepped (session : Session) (c : SimpleTcpConnection) (i : Input)
    (r : SimpleTcpConnection × List Signal) : Prop where
  type : r.1.type = c.type
  sock : r.1.sock = i.keeps
  written : written r.2 = wire c.type session i
  shown : ∀ more, shown r.2 ++ (reading r.1.awaitingAck more).1 =
    (reading c.awaitingAck (i.arrival.toList ++ more)).1
  errors : ∀ more, errors r.2 + (reading r.1.awaitingAck more).2.toNat =
    i.failure.toNat + (reading c.awaitingAck (i.arrival.toList ++ more)).2.toNat

section Run

variable {c : SimpleTcpConnection} {session : Session}

theorem stepped_quiet {i : Input} {r : SimpleTcpConnection × List Signal}
    (hkeeps : r.1.type = c.type ∧ r.1.sock = i.keeps ∧ r.1.awaitingAck = c.awaitingAck)
    (hnone : i.arrival = none) (hwritten : written r.2 = wire c.type session i)
    (hshown : shown r.2 = []) (herrors : errors r.2 = i.failure.toNat) :
    Stepped session c i r := by
  obtain ⟨htype, hsock, hack⟩ := hkeeps
  refine ⟨htype, hsock, hwritten, fun more => ?_, fun more => ?_⟩
  · rw [hshown, hack, hnone]
    rfl
  · rw [herrors, hack, hnone]
    rfl

theorem stepped_received (h : c.sock = true) (data : QByteArray) :
    Stepped session c (.readyRead data) (c.onReadyRead data) := by
  cases hack : c.awaitingAck with
  | false =>
    have hrun : c.onReadyRead data = (c, received data) := by simp [onReadyRead, hack]
    rw [hrun]
    refine ⟨rfl, h, written_received data, fun more => ?_, fun more => ?_⟩
    · rw [hack, shown_received, reading_false, reading_false]
      rfl
    · rw [hack, errors_received, reading_false, reading_false]
      rfl
  | true =>
    cases data with
    | nil =>
      have hrun : c.onReadyRead [] = (c, received []) := by simp [onReadyRead, hack]
      rw [hrun]
      refine ⟨rfl, h, written_received [], fun more => ?_, fun more => ?_⟩
      · rw [hack, shown_received]
        rfl
      · rw [hack, errors_received]
        rfl
    | cons status late =>
      by_cases hstatus : status = 0
      · have hrun : c.onReadyRead (status :: late) =
            ({ c with awaitingAck := false }, received late) := by
          simp [onReadyRead, hack, hstatus]
        rw [hrun]
        refine ⟨rfl, h, written_received late, fun more => ?_, fun more => ?_⟩
        · rw [hack, shown_received, reading_false]
          simp [Input.arrival, reading, hstatus]
        · rw [hack, errors_received, reading_false]
          simp [Input.arrival, Input.failure, reading, hstatus]
      · have hrun : c.onReadyRead (status :: late) =
            { c with awaitingAck := false }.fail "Remote rejected the connection" := by
          simp [onReadyRead, hack, hstatus]
        obtain ⟨hwritten, hshown, herrors⟩ :=
          { c with awaitingAck := false }.fail_signals "Remote rejected the connection"
        obtain ⟨hsock, htype, hfalse⟩ := { c with awaitingAck := false }.setState_keeps .failed
        rw [hrun]
        refine ⟨htype, hsock.trans h, hwritten, fun more => ?_, fun more => ?_⟩
        · rw [hshown, hack]
          change [] ++ (reading (setState _ .failed).1.awaitingAck more).1 = _
          rw [hfalse, reading_false]
          simp [Input.arrival, reading, hstatus]
        · rw [herrors, hack]
          change 1 + (reading (setState _ .failed).1.awaitingAck more).2.toNat = _
          rw [hfalse, reading_false]
          simp [Input.arrival, Input.failure, reading, hstatus]

theorem step_stepped (h : c.sock = true) (i : Input) : Stepped session c i (step session c i) := by
  have hlive : ¬¬c.sock = true := not_not.mpr h
  unfold step
  rw [if_neg hlive]
  cases i with
  | connected =>
    obtain ⟨hwritten, hshown, herrors⟩ := c.setState_quiet .connected
    obtain ⟨hsock, htype, hack⟩ := c.setState_keeps .connected
    have hopening : written (if startupHandshake c.type session = [] then []
        else [.write (startupHandshake c.type session)]) = startupHandshake c.type session := by
      split
      · rename_i hnone
        exact hnone.symm
      · exact List.append_nil _
    refine stepped_quiet ⟨htype, hsock.trans h, hack⟩ rfl ?_ ?_ ?_
    · exact (written_append _ _).trans (by rw [hopening, hwritten, List.append_nil]; rfl)
    · refine (shown_append _ _).trans ?_
      rw [hshown, List.append_nil]
      split <;> rfl
    · refine (errors_append _ _).trans ?_
      rw [herrors]
      split <;> rfl
  | readyRead data => exact stepped_received h data
  | disconnected =>
    obtain ⟨hwritten, hshown, herrors⟩ := c.setState_quiet .closed
    obtain ⟨hsock, htype, hack⟩ := c.setState_keeps .closed
    exact stepped_quiet ⟨htype, hsock.trans h, hack⟩ rfl hwritten hshown herrors
  | errorOccurred text =>
    obtain ⟨hwritten, hshown, herrors⟩ := c.fail_signals text
    obtain ⟨hsock, htype, hack⟩ := c.setState_keeps .failed
    exact stepped_quiet ⟨htype, hsock.trans h, hack⟩ rfl hwritten hshown herrors
  | send data taken =>
    cases taken with
    | false => exact stepped_quiet ⟨rfl, h, rfl⟩ rfl rfl rfl rfl
    | true => exact stepped_quiet ⟨rfl, h, rfl⟩ rfl (List.append_nil data) rfl rfl
  | disconnectSession =>
    obtain ⟨hwritten, hshown, herrors⟩ := { c with sock := false }.setState_quiet .disconnected
    obtain ⟨hsock, htype, hack⟩ := { c with sock := false }.setState_keeps .disconnected
    exact stepped_quiet ⟨htype, hsock, hack⟩ rfl hwritten hshown herrors

theorem outputs_gone (h : c.sock = false) (is : List Input) :
    Mealy.outputs (step session) c is = [] := by
  have hquiet (i : Input) : step session c i = (c, []) := by
    unfold step
    rw [if_pos (by simp [h])]
  induction is with
  | nil => rfl
  | cons i is ih => rw [Mealy.outputs_cons, hquiet i, ih, List.append_nil]

theorem run_stepped (h : c.sock = true) (is : List Input) :
    written (Mealy.outputs (step session) c is) = (live is).flatMap (wire c.type session) ∧
      shown (Mealy.outputs (step session) c is) = (reading c.awaitingAck (arrivals is)).1 ∧
      errors (Mealy.outputs (step session) c is) =
        (live is).countP Input.failure + (reading c.awaitingAck (arrivals is)).2.toNat := by
  induction is generalizing c with
  | nil => cases hack : c.awaitingAck <;> exact ⟨rfl, rfl, rfl⟩
  | cons i is ih =>
    have hstep : Stepped session c i _ := step_stepped h i
    rw [Mealy.outputs_cons, written_append, shown_append, errors_append, hstep.written]
    cases hkeeps : i.keeps with
    | false =>
      obtain rfl : i = .disconnectSession := by cases i <;> first | rfl | cases hkeeps
      have hgone := @outputs_gone _ session (hstep.sock.trans hkeeps) is
      have hlive : live (.disconnectSession :: is) = [] := rfl
      have hnothing (awaiting : Bool) : reading awaiting [] = ([], false) := by
        cases awaiting <;> rfl
      have hshown := hstep.shown []
      have herrors := hstep.errors []
      simp only [Input.arrival, Option.toList_none, List.append_nil, hnothing] at hshown herrors
      rw [hgone, hshown, arrivals, hlive, List.filterMap_nil, hnothing]
      exact ⟨rfl, rfl, herrors⟩
    | true =>
      obtain ⟨hwritten, hshown, herrors⟩ := ih (hstep.sock.trans hkeeps)
      have hlive : live (i :: is) = i :: live is := List.takeWhile_cons_of_pos hkeeps
      have harrivals : arrivals (i :: is) = i.arrival.toList ++ arrivals is := by
        rw [arrivals, hlive, List.filterMap_cons]
        cases i.arrival <;> rfl
      rw [hwritten, hshown, herrors, hstep.type, hlive, harrivals, hstep.shown, List.flatMap_cons,
        List.countP_cons]
      have hcount := hstep.errors (arrivals is)
      refine ⟨rfl, rfl, ?_⟩
      cases hfailure : i.failure with
      | false =>
        rw [hfailure] at hcount
        simp only [Bool.toNat_false, Bool.false_eq_true, if_false] at hcount ⊢
        omega
      | true =>
        rw [hfailure] at hcount
        simp only [Bool.toNat_true, if_true] at hcount ⊢
        omega

end Run

section Reading

variable {status : UInt8} {text : QByteArray} {chunks : List QByteArray}

-- The status is the first byte of the stream, in whichever read it comes.
theorem reading_status (h : chunks.flatten = status :: text) : ∃ late more,
    text = late ++ more ∧
      reading true chunks = if status ≠ 0 then (more, true) else (text, false) := by
  induction chunks with
  | nil => cases h
  | cons data chunks ih =>
    cases data with
    | nil => exact ih h
    | cons b late =>
      obtain ⟨rfl, rfl⟩ := List.cons.inj h
      exact ⟨late, chunks.flatten, rfl, rfl⟩

end Reading

-- What the terminal is shown and what goes on the wire, however the bytes arrive.
theorem session_conversed (type : SessionType) (session : Session) (is : List Input) :
    written (Mealy.outputs (step session) (connecting type) is) =
        (live is).flatMap (wire type session) ∧
      (expectsAckByte type = false →
        shown (Mealy.outputs (step session) (connecting type) is) = (arrivals is).flatten) ∧
      ∀ status text, expectsAckByte type = true → (arrivals is).flatten = status :: text →
        if status = 0 then
          shown (Mealy.outputs (step session) (connecting type) is) = text ∧
            errors (Mealy.outputs (step session) (connecting type) is) =
              (live is).countP Input.failure
        else
          shown (Mealy.outputs (step session) (connecting type) is) <:+ text ∧
            errors (Mealy.outputs (step session) (connecting type) is) =
              (live is).countP Input.failure + 1 := by
  obtain ⟨hwritten, hshown, herrors⟩ :=
    @run_stepped (connecting type) session rfl is
  refine ⟨hwritten, fun hack => ?_, fun status text hack hstream => ?_⟩
  · rw [hshown]
    change (reading (expectsAckByte type) _).1 = _
    rw [hack, reading_false]
  · have hawaiting : (connecting type).awaitingAck = true := hack
    obtain ⟨late, more, htext, hreading⟩ := reading_status hstream
    rw [hshown, herrors, hawaiting, hreading]
    by_cases hstatus : status = 0
    · rw [if_pos hstatus, if_neg (not_not.mpr hstatus)]
      exact ⟨rfl, rfl⟩
    · rw [if_neg hstatus, if_pos hstatus]
      exact ⟨⟨late, htext.symm⟩, rfl⟩

section Handshake

-- What a server takes the handshake apart into.
def handshakeFields (type : SessionType) (session : Session) : List QByteArray :=
  match type with
  | .rlogin =>
      [[], toUtf8 session.username, toUtf8 session.username, toUtf8 "xterm-256color/38400"]
  | .rsh =>
      [[0x30], toUtf8 (session.params.value "localuser" session.username),
        toUtf8 session.username, toUtf8 (session.param "remotecommand")]
  | _ => []

theorem splitOn_fields_iff (fields : List QByteArray) :
    (fields.flatMap (· ++ [0])).splitOn 0 = fields ++ [[]] ↔ ∀ f ∈ fields, 0 ∉ f := by
  constructor
  · intro h f hf
    have hmem : f ∈ (fields.flatMap (· ++ [0])).splitOn 0 := h ▸ List.mem_append_left _ hf
    exact (mem_splitOn hmem).1
  · intro h
    induction fields with
    | nil => rfl
    | cons f fields ih =>
      rw [List.forall_mem_cons] at h
      rw [List.flatMap_cons, List.append_assoc, List.singleton_append,
        List.splitOn_append_cons_self_of_not_mem h.1, ih h.2]
      rfl

theorem startupHandshake_fields {type : SessionType} (h : expectsAckByte type = true)
    (session : Session) :
    startupHandshake type session = (handshakeFields type session).flatMap (· ++ [0]) := by
  have hcases : type = .rlogin ∨ type = .rsh := by simpa [expectsAckByte] using h
  rcases hcases with rfl | rfl
  · simp [startupHandshake, handshakeFields]
  · simp [startupHandshake, handshakeFields]

-- The names come apart again unless one of them holds a NUL.
theorem handshake_fields_iff {type : SessionType} (h : expectsAckByte type = true)
    (session : Session) :
    (startupHandshake type session).splitOn 0 = handshakeFields type session ++ [[]] ↔
      ∀ f ∈ handshakeFields type session, 0 ∉ f := by
  rw [startupHandshake_fields h, splitOn_fields_iff]

def guest : Session := (⟨"login", .rlogin, .empty⟩ : Session).setUsername "guest"

theorem handshake_fields_guest :
    (startupHandshake .rlogin guest).splitOn 0 = handshakeFields .rlogin guest ++ [[]] :=
  (handshake_fields_iff rfl guest).mpr (by decide)

end Handshake

end SimpleTcpConnection

end Connect
