import MacXterm.Connect.VncConnection
import MacXterm.Lib.Counted
import MacXterm.Lib.Mealy

namespace Connect

open Qt Rfb

-- What a client says to the server once the session is up.
inductive ClientMessage where
  | setEncodings (encodings : List Int32) (short : encodings.length < 2 ^ 16)
  | updateRequest (incremental : Bool) (x y w h : UInt16)
  | key (keysym : UInt32) (down : Bool)
  | pointer (buttonMask : UInt8) (x y : UInt16)
  deriving DecidableEq

namespace ClientMessage

def bytes : ClientMessage → QByteArray
  | .setEncodings encodings _ =>
      [2, 0] ++ BigEndian.bytes16 (.ofNat encodings.length) ++
        encodings.flatMap fun e => BigEndian.bytes32 e.toUInt32
  | .updateRequest incremental x y w h =>
      [3, if incremental then 1 else 0] ++ BigEndian.bytes16 x ++ BigEndian.bytes16 y ++
        BigEndian.bytes16 w ++ BigEndian.bytes16 h
  | .key keysym down => [4, if down then 1 else 0, 0, 0] ++ BigEndian.bytes32 keysym
  | .pointer buttonMask x y => [5, buttonMask] ++ BigEndian.bytes16 x ++ BigEndian.bytes16 y

-- What a server makes of the bytes in front of it.
def read : Parser ClientMessage := fun
  | 2 :: _ :: n1 :: n0 :: rest =>
      (Codec.word.decodeMany (BigEndian.word16 n1 n0).toNat rest).bind fun r =>
        if h : (r.1.map UInt32.toInt32).length < 2 ^ 16 then
          some (.setEncodings (r.1.map UInt32.toInt32) h, r.2)
        else none
  | 3 :: incremental :: x1 :: x0 :: y1 :: y0 :: w1 :: w0 :: h1 :: h0 :: rest =>
      some (.updateRequest (incremental != 0) (BigEndian.word16 x1 x0) (BigEndian.word16 y1 y0)
        (BigEndian.word16 w1 w0) (BigEndian.word16 h1 h0), rest)
  | 4 :: down :: _ :: _ :: k3 :: k2 :: k1 :: k0 :: rest =>
      some (.key (BigEndian.word32 k3 k2 k1 k0) (down != 0), rest)
  | 5 :: buttonMask :: x1 :: x0 :: y1 :: y0 :: rest =>
      some (.pointer buttonMask (BigEndian.word16 x1 x0) (BigEndian.word16 y1 y0), rest)
  | _ => none

def readAll (b : QByteArray) : Option (List ClientMessage) := read.all b.length b

theorem bytes_ne_nil (m : ClientMessage) : m.bytes ≠ [] := by
  cases m <;> exact List.cons_ne_nil _ _

theorem reads_setEncodings (encodings : List Int32) (short : encodings.length < 2 ^ 16) :
    Parser.Reads read (bytes (.setEncodings encodings short)) (.setEncodings encodings short) := by
  intro rest
  have hcount : (UInt16.ofNat encodings.length).toNat = (encodings.map Int32.toUInt32).length := by
    rw [UInt16.toNat_ofNat', Nat.mod_eq_of_lt short, List.length_map]
  have hmany := Codec.decodeMany_encode Codec.word (encodings.map Int32.toUInt32) rest
  have hback : (encodings.map Int32.toUInt32).map UInt32.toInt32 = encodings := by
    rw [List.map_map]
    exact List.map_id' encodings
  rw [← hcount, List.flatMap_map] at hmany
  simp only [bytes, read, BigEndian.bytes16, List.cons_append, List.nil_append,
    BigEndian.word16_bytes16]
  change (Codec.word.decodeMany _ (encodings.flatMap (fun e => Codec.word.encode e.toUInt32) ++
    rest)).bind _ = _
  rw [hmany, Option.bind_some]
  simp only [hback]
  rw [dif_pos short]

theorem bne_flag (flag : Bool) : ((if flag then (1 : UInt8) else 0) != 0) = flag := by
  cases flag <;> rfl

theorem reads_bytes (m : ClientMessage) : Parser.Reads read m.bytes m := by
  cases m with
  | setEncodings encodings short => exact reads_setEncodings encodings short
  | updateRequest incremental x y w h =>
    intro rest
    simp only [bytes, read, BigEndian.bytes16, List.cons_append, List.nil_append,
      BigEndian.word16_bytes16, bne_flag]
  | key keysym down =>
    intro rest
    simp only [bytes, read, BigEndian.bytes32, List.cons_append, List.nil_append,
      BigEndian.word32_bytes32, bne_flag]
  | pointer buttonMask x y =>
    intro rest
    simp only [bytes, read, BigEndian.bytes16, List.cons_append, List.nil_append,
      BigEndian.word16_bytes16]

theorem readAll_flatMap (ms : List ClientMessage) : readAll (ms.flatMap bytes) = some ms :=
  Parser.all_flatMap reads_bytes bytes_ne_nil ms (Nat.le_refl _)

end ClientMessage

-- The whole of VncConnection, with its socket and what the surface injects.
structure VncClient (z : Zlib) where
  conn : VncConnection z
  sock : Bool
  viewOnly : Bool
  buttonMask : Int

-- onReadyRead is taken apart into the arrival of the bytes and the turns it goes through.
inductive ClientInput where
  | readyRead (data : QByteArray)
  | turn
  | sendPointerEvent (x y buttonMask : Int)
  | sendKeyEvent (keysym : UInt32) (down : Bool)
  | setViewOnly (on : Bool)
  | disconnectSession

def Event.written : Event → QByteArray
  | .write data => data
  | _ => []

namespace VncClient

variable {z : Zlib}

def connecting : VncClient z := ⟨.connecting, true, false, 0⟩

def mute (c : VncClient z) : Bool := c.viewOnly || c.conn.phase ≠ .running || !c.sock

def step (c : VncClient z) : ClientInput → VncClient z × List Event
  | .readyRead data => if c.sock then ({ c with conn := c.conn.receive data }, []) else (c, [])
  | .turn =>
      if c.sock then
        let r := c.conn.turn.result
        ({ c with conn := r.1 }, r.2)
      else (c, [])
  | .sendPointerEvent x y buttonMask =>
      if c.mute then (c, [])
      else ({ c with buttonMask := buttonMask }, [.write (encodePointerEvent x y buttonMask)])
  | .sendKeyEvent keysym down =>
      if c.mute then (c, []) else (c, [.write (encodeKeyEvent keysym down)])
  | .setViewOnly on => ({ c with viewOnly := on }, [])
  | .disconnectSession =>
      let r := c.conn.setState .disconnected
      ({ c with conn := r.1, sock := false }, r.2)

-- What an input of the surface is to tell the server.
def tells (c : VncClient z) : ClientInput → List ClientMessage
  | .sendPointerEvent x y buttonMask =>
      if c.mute then [] else [.pointer (.ofInt buttonMask) (coordinate x) (coordinate y)]
  | .sendKeyEvent keysym down => if c.mute then [] else [.key keysym down]
  | _ => []

def told (c : VncClient z) : List ClientInput → List ClientMessage
  | [] => []
  | i :: is => c.tells i ++ told (c.step i).1 is

def written (out : List Event) : QByteArray := out.flatMap Event.written

def handshake (v : Version) (type : UInt8) : QByteArray := formatVersion v ++ [type, 1]

def opening (s : ServerInit) : List ClientMessage :=
  [.setEncodings [EncZRLE, EncHextile, EncRRE, EncCopyRect, EncRaw] (by decide),
    .updateRequest false 0 0 s.width s.height]

-- What has been written in a phase, with what the surface has told.
inductive Said (s : ServerInit) : Phase → List ClientMessage → QByteArray → Prop
  | version : Said s .version [] []
  | security (v : Version) : Said s .security [] (formatVersion v)
  | securityResult (v : Version) (type : UInt8) :
      Said s .securityResult [] (formatVersion v ++ [type])
  | serverInit (v : Version) (type : UInt8) : Said s .serverInit [] (handshake v type)
  | running (v : Version) (type : UInt8) (ms : List ClientMessage) :
      Said s .running ms (handshake v type ++ (opening s ++ ms).flatMap ClientMessage.bytes)

-- What one turn does to the phase and to what has been written.
inductive Turned (c : VncConnection z) (r : VncConnection z × List Event) : Prop
  | quiet (hphase : r.1.phase = c.phase) (hinit : r.1.serverInit = c.serverInit)
      (hout : written r.2 = [])
  | version (v : Version) (hphase : c.phase = .version) (hnext : r.1.phase = .security)
      (hout : written r.2 = formatVersion v)
  | security (type : UInt8) (hphase : c.phase = .security) (hnext : r.1.phase = .securityResult)
      (hout : written r.2 = [type])
  | securityResult (hphase : c.phase = .securityResult) (hnext : r.1.phase = .serverInit)
      (hout : written r.2 = [1])
  | serverInit (hphase : c.phase = .serverInit) (hnext : r.1.phase = .running)
      (hout : written r.2 = (opening r.1.serverInit).flatMap ClientMessage.bytes)

theorem written_append (a b : List Event) : written (a ++ b) = written a ++ written b :=
  List.flatMap_append

theorem written_setState (c : VncConnection z) (s : State) : written (c.setState s).2 = [] := by
  unfold VncConnection.setState
  split <;> rfl

theorem setState_keeps (c : VncConnection z) (s : State) :
    (c.setState s).1.phase = c.phase ∧ (c.setState s).1.serverInit = c.serverInit := by
  unfold VncConnection.setState
  split <;> exact ⟨rfl, rfl⟩

theorem turned_fail (c d : VncConnection z) (text : QString) (hphase : d.phase = c.phase)
    (hinit : d.serverInit = c.serverInit) : Turned c (d.fail text).result := by
  obtain ⟨hphase', hinit'⟩ := setState_keeps d .failed
  refine .quiet (hphase'.trans hphase) (hinit'.trans hinit) ?_
  change written ((d.setState .failed).2 ++ [.errorOccurred text]) = []
  rw [written_append, written_setState]
  rfl

theorem turned_version (c : VncConnection z) (h : c.phase = .version) :
    Turned c c.readVersion.result := by
  unfold VncConnection.readVersion
  split
  · exact .quiet rfl rfl rfl
  · split
    · exact turned_fail c c _ rfl rfl
    · rename_i v _
      exact .version v h rfl (List.append_nil _)

theorem turned_security (c : VncConnection z) (h : c.phase = .security) :
    Turned c c.readSecurity.result := by
  unfold VncConnection.readSecurity
  split
  · exact .quiet rfl rfl rfl
  · dsimp only
    split
    · exact turned_fail c c _ rfl rfl
    · split
      · exact .quiet rfl rfl rfl
      · exact .security _ h rfl rfl

theorem turned_securityResult (c : VncConnection z) (h : c.phase = .securityResult) :
    Turned c c.readSecurityResult.result := by
  unfold VncConnection.readSecurityResult
  split
  · exact .quiet rfl rfl rfl
  · dsimp only
    split
    · exact turned_fail c _ _ rfl rfl
    · exact .securityResult h rfl rfl

theorem turned_serverInit (c : VncConnection z) (h : c.phase = .serverInit) :
    Turned c c.readServerInit.result := by
  unfold VncConnection.readServerInit
  split
  · exact .quiet rfl rfl rfl
  · dsimp only
    split
    · exact .quiet rfl rfl rfl
    · refine .serverInit h rfl ?_
      unfold VncConnection.setState
      split <;> rfl

theorem written_signal (ps : List (Rectangle × RectData)) :
    written (ps.map VncConnection.signal) = [] := by
  refine List.flatMap_eq_nil_iff.mpr fun e he => ?_
  obtain ⟨p, -, rfl⟩ := List.mem_map.mp he
  unfold VncConnection.signal
  split <;> rfl

theorem turned_update (c : VncConnection z) : Turned c c.readUpdate.result := by
  unfold VncConnection.readUpdate
  split
  · exact .quiet rfl rfl rfl
  · split
    · exact .quiet rfl rfl rfl
    · dsimp only
      split
      · exact .quiet rfl rfl (written_signal _)
      · exact .quiet rfl rfl (written_signal _)

theorem turned_turn (c : VncConnection z) : Turned c c.turn.result := by
  cases h : c.phase with
  | version =>
    rw [VncConnection.turn_version h]
    exact turned_version c h
  | security =>
    rw [VncConnection.turn_security h]
    exact turned_security c h
  | securityResult =>
    rw [VncConnection.turn_securityResult h]
    exact turned_securityResult c h
  | serverInit =>
    rw [VncConnection.turn_serverInit h]
    exact turned_serverInit c h
  | running =>
    rw [VncConnection.turn_running h]
    exact turned_update c

variable {s : ServerInit} {phase : Phase} {ms : List ClientMessage} {said : QByteArray}

theorem Said.turned {c : VncConnection z} {r : VncConnection z × List Event}
    (h : Said c.serverInit c.phase ms said) (hr : Turned c r) :
    Said r.1.serverInit r.1.phase ms (said ++ written r.2) := by
  cases hr with
  | quiet hphase hinit hout =>
    rw [hphase, hinit, hout, List.append_nil]
    exact h
  | version v hphase hnext hout =>
    rw [hphase] at h
    rw [hnext, hout]
    cases h
    exact .security v
  | security type hphase hnext hout =>
    rw [hphase] at h
    rw [hnext, hout]
    cases h with
    | security v => exact .securityResult v type
  | securityResult hphase hnext hout =>
    rw [hphase] at h
    rw [hnext, hout]
    cases h with
    | securityResult v type =>
      rw [List.append_assoc]
      exact .serverInit v type
  | serverInit hphase hnext hout =>
    rw [hphase] at h
    rw [hnext, hout]
    cases h with
    | serverInit v type =>
      have hrunning := Said.running (s := r.1.serverInit) v type []
      rwa [List.append_nil] at hrunning

theorem Said.more (h : Said s .running ms said) (m : ClientMessage) :
    Said s .running (ms ++ [m]) (said ++ m.bytes) := by
  cases h with
  | running v type =>
    have hsaid : handshake v type ++ (opening s ++ ms).flatMap ClientMessage.bytes ++ m.bytes =
        handshake v type ++ (opening s ++ (ms ++ [m])).flatMap ClientMessage.bytes := by
      simp [List.flatMap_append]
    rw [hsaid]
    exact .running v type (ms ++ [m])

theorem phase_of_not_mute {c : VncClient z} (h : c.mute = false) : c.conn.phase = .running := by
  simp only [mute, Bool.or_eq_false_iff] at h
  simpa using h.1.2

theorem said_step (c : VncClient z) (i : ClientInput)
    (h : Said c.conn.serverInit c.conn.phase ms said) :
    Said (c.step i).1.conn.serverInit (c.step i).1.conn.phase (ms ++ c.tells i)
      (said ++ written (c.step i).2) := by
  have hquiet : Said c.conn.serverInit c.conn.phase (ms ++ []) (said ++ written []) := by
    simpa [written] using h
  cases i with
  | readyRead data =>
    simp only [step, tells]
    split <;> exact hquiet
  | turn =>
    simp only [step, tells]
    split
    · rw [List.append_nil]
      exact h.turned (turned_turn c.conn)
    · exact hquiet
  | sendPointerEvent x y buttonMask =>
    simp only [step, tells]
    split
    · exact hquiet
    · rename_i hmute
      rw [phase_of_not_mute (Bool.eq_false_iff.mpr hmute)] at h ⊢
      exact h.more _
  | sendKeyEvent keysym down =>
    simp only [step, tells]
    split
    · exact hquiet
    · rename_i hmute
      rw [phase_of_not_mute (Bool.eq_false_iff.mpr hmute)] at h ⊢
      exact h.more _
  | setViewOnly on => exact hquiet
  | disconnectSession =>
    obtain ⟨hphase, hinit⟩ := setState_keeps c.conn .disconnected
    simp only [step, tells]
    rw [hphase, hinit, written_setState]
    exact hquiet

theorem said_run (c : VncClient z) (inputs : List ClientInput)
    (h : Said c.conn.serverInit c.conn.phase ms said) :
    Said (Mealy.after step c inputs).conn.serverInit (Mealy.after step c inputs).conn.phase
      (ms ++ c.told inputs) (said ++ written (Mealy.outputs step c inputs)) := by
  induction inputs generalizing c ms said with
  | nil => simpa [told, written, Mealy.after, Mealy.outputs, Mealy.trace] using h
  | cons i inputs ih =>
    have hrest := ih (c.step i).1 (said_step c i h)
    rw [Mealy.after_cons, Mealy.outputs_cons, written_append, told, ← List.append_assoc,
      ← List.append_assoc]
    exact hrest

-- The turns of one call of onReadyRead are turns of the client.
theorem onReadyRead_turns (c : VncClient z) (hsock : c.sock = true) (data : QByteArray)
    {conn : VncConnection z} {out : List Event}
    (h : c.conn.onReadyRead data = some (conn, out)) :
    ∃ k, let inputs := .readyRead data :: List.replicate k .turn
      Mealy.after step c inputs = { c with conn := conn } ∧ Mealy.outputs step c inputs = out := by
  have hreceive : c.step (.readyRead data) = ({ c with conn := c.conn.receive data }, []) :=
    if_pos hsock
  have hturns (fuel : Nat) (d : VncConnection z) {out : List Event}
      (hrun : Reactor.run VncConnection.turn fuel d = some (conn, out)) :
      ∃ k, Mealy.after step { c with conn := d } (List.replicate k .turn) =
          { c with conn := conn } ∧
        Mealy.outputs step { c with conn := d } (List.replicate k .turn) = out := by
    induction fuel generalizing d out with
    | zero => cases hrun
    | succ fuel ih =>
      have hstep : step { c with conn := d } .turn =
          ({ c with conn := d.turn.result.1 }, d.turn.result.2) := if_pos hsock
      cases hturn : d.turn with
      | rest e o =>
        rw [Reactor.run_rest hturn] at hrun
        obtain ⟨rfl, rfl⟩ : e = conn ∧ o = out := by simpa using hrun
        refine ⟨1, ?_, ?_⟩
        · rw [List.replicate_one, Mealy.after_cons, hstep, hturn]
          rfl
        · rw [List.replicate_one, Mealy.outputs_cons, hstep, hturn]
          exact List.append_nil _
      | go e o =>
        rw [Reactor.run_go hturn] at hrun
        obtain ⟨⟨last, more⟩, hrest, heq⟩ := Option.map_eq_some_iff.mp hrun
        obtain ⟨rfl, rfl⟩ : last = conn ∧ o ++ more = out := by simpa using heq
        obtain ⟨k, hafter, hout⟩ := ih e hrest
        refine ⟨k + 1, ?_, ?_⟩
        · rw [List.replicate_succ, Mealy.after_cons, hstep, hturn]
          exact hafter
        · rw [List.replicate_succ, Mealy.outputs_cons, hstep, hturn, ← hout]
          rfl
  obtain ⟨k, hafter, hout⟩ := hturns _ _ h
  refine ⟨k, ?_, ?_⟩
  · rw [Mealy.after_cons, hreceive]
    exact hafter
  · rw [Mealy.outputs_cons, hreceive]
    exact hout

-- A server that reads the client gets the handshake, the two opening messages and then what the
-- surface told, whatever came in and however it was cut.
theorem conversation (inputs : List ClientInput) :
    let c := Mealy.after step (connecting : VncClient z) inputs
    let said := written (Mealy.outputs step (connecting : VncClient z) inputs)
    let ms := (connecting : VncClient z).told inputs
    (c.conn.phase ≠ .running → ms = [] ∧ ∃ v type, said <+: handshake v type) ∧
      (c.conn.phase = .running → ∃ v type rest, said = handshake v type ++ rest ∧
        ClientMessage.readAll rest = some (opening c.conn.serverInit ++ ms)) := by
  intro c said ms
  have h : Said c.conn.serverInit c.conn.phase ms said := said_run connecting inputs .version
  generalize c.conn.serverInit = s at h
  generalize c.conn.phase = phase at h
  generalize ms = ms at h
  generalize said = said at h
  cases h with
  | version => exact ⟨fun _ => ⟨rfl, ⟨0, 0⟩, 0, List.nil_prefix⟩, nofun⟩
  | security v =>
    exact ⟨fun _ => ⟨rfl, v, 0, List.prefix_append _ _⟩, nofun⟩
  | securityResult v type =>
    refine ⟨fun _ => ⟨rfl, v, type, [1], ?_⟩, nofun⟩
    rw [List.append_assoc]
    rfl
  | serverInit v type => exact ⟨fun _ => ⟨rfl, v, type, List.prefix_refl _⟩, nofun⟩
  | running v type ms =>
    exact ⟨fun h => absurd rfl h, fun _ => ⟨v, type, _, rfl, ClientMessage.readAll_flatMap _⟩⟩

end VncClient

end Connect
