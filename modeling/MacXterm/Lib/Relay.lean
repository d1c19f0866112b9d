import Mathlib.Data.List.Basic
import Mathlib.Data.List.Infix

namespace Relay

variable {α P : Type}

structure Link (α : Type) where
  content : List α
  received : List α
  written : List α
  yielded : List α
  delivered : List α
  gone : Bool
  lost : Bool
  torn : Bool
  failed : Bool
deriving DecidableEq

def Link.fresh (content : List α) : Link α := ⟨content, [], [], [], [], false, false, false, false⟩

inductive Call (α : Type)
  | stopping
  | poll
  | recv (size : Nat)
  | send (buf : List α)
  | channelRead (size : Nat)
  | channelWrite (buf : List α)
  | channelEof
deriving DecidableEq

inductive Reply (α : Type)
  | flag (b : Bool)
  | polled (n : Int)
  | data (bytes : List α)
  | zero
  | again
  | error
  | took (k : Nat)
deriving DecidableEq

-- What a call does to the two sides; `none` where the reply cannot be one to this call.
def Link.answer [DecidableEq α] (l : Link α) : Call α → Reply α → Option (Link α)
  | .stopping, .flag _ => some l
  | .poll, .polled _ => some l
  | .recv size, .data bytes =>
      if bytes ≠ [] ∧ bytes.length ≤ size then some { l with received := l.received ++ bytes }
      else none
  | .recv _, .zero => some l
  | .recv _, .again => some l
  | .recv _, .error => some { l with gone := true }
  | .send buf, .took k =>
      if k ≤ buf.length then
        some { l with delivered := l.delivered ++ buf.take k, lost := l.lost || k != buf.length }
      else none
  | .send _, .again => some { l with lost := true }
  | .send _, .error => some { l with gone := true, lost := true }
  | .channelRead size, .data bytes =>
      if bytes ≠ [] ∧ bytes.length ≤ size ∧ l.yielded ++ bytes <+: l.content then
        some { l with yielded := l.yielded ++ bytes }
      else none
  | .channelRead _, .zero => some l
  | .channelRead _, .again => some l
  | .channelRead _, .error => some { l with failed := true }
  | .channelWrite buf, .took k =>
      if k ≤ buf.length then some { l with written := l.written ++ buf.take k } else none
  | .channelWrite _, .again => some l
  | .channelWrite _, .error => some { l with torn := true, failed := true }
  | .channelEof, .flag b => if b = true → l.yielded = l.content then some l else none
  | _, _ => none

inductive Move (P : Type)
  | at (p : P)
  | pass
  | close
  | stop
deriving DecidableEq

inductive Status (P : Type)
  | at (p : P)
  | closed
  | stopped
deriving DecidableEq

structure Pump (α P : Type) where
  head : P
  call : P → Call α
  next : P → Reply α → Move P

def Pump.after (pump : Pump α P) (p : P) (r : Reply α) : Status P :=
  match pump.next p r with
  | .at q => .at q
  | .pass => .at pump.head
  | .close => .closed
  | .stop => .stopped

theorem ite_ne_close {m m' : Move P} {b : Prop} [Decidable b] (h : m ≠ .close)
    (h' : m' ≠ .close) : (if b then m else m') ≠ .close := by
  split
  · exact h
  · exact h'

def Intact (l : Link α) : Prop := l.written <+: l.received ∧ l.delivered <+: l.yielded

def Complete (l : Link α) : Prop := l.gone = false → l.failed = false → l.delivered = l.content

-- A send takes all that it is given or fails for good, and none follows bytes that fell away.
def SendsWhole (l : Link α) : Call α → Reply α → Prop
  | .send buf, .took k => if l.lost then k = 0 else k = buf.length
  | .send _, .again => l.lost = true
  | _, _ => True

def WritesStop (l : Link α) : Call α → Reply α → Prop
  | .channelWrite _, .took k => l.torn = true → k = 0
  | _, _ => True

def Lossless (l : Link α) (c : Call α) (r : Reply α) : Prop := SendsWhole l c r ∧ WritesStop l c r

def AtEnd (l : Link α) : Prop := l.gone = true ∨ l.failed = true ∨ l.yielded = l.content

def outAfter : Call α → Reply α → List α → List α
  | .recv _, .data bytes, _ => bytes
  | .channelWrite buf, .took k, _ => buf.drop k
  | .channelWrite _, .error, _ => []
  | _, _, held => held

def inAfter : Call α → Reply α → List α → List α
  | .channelRead _, .data bytes, _ => bytes
  | .send _, .took _, _ => []
  | .send _, .again, _ => []
  | .send _, .error, _ => []
  | _, _, held => held

def Ready (out inn : List α) : Call α → Prop
  | .recv _ => out = []
  | .channelWrite buf => out = buf
  | .channelRead _ => inn = []
  | .send buf => inn = buf
  | _ => True

def Holds (out inn : P → List α) (head : P) (held sending : List α) : Move P → Prop
  | .at q => out q = held ∧ inn q = sending
  | .pass => out head = held ∧ inn head = sending
  | .close => sending = []
  | .stop => True

theorem Holds.ite {out inn : P → List α} {head : P} {held sending : List α} {m m' : Move P}
    {b : Prop} [Decidable b] (h : Holds out inn head held sending m)
    (h' : Holds out inn head held sending m') :
    Holds out inn head held sending (if b then m else m') := by
  split
  · exact h
  · exact h'

theorem holds_written {out inn : P → List α} {head p q : P} {sending : List α} (buf : List α)
    (off k : Nat) (hp : out p = buf.drop (off + k) ∧ inn p = sending)
    (hq : out q = [] ∧ inn q = sending) :
    Holds out inn head ((buf.drop off).drop k) sending
      (if off + k < buf.length then .at p else .at q) := by
  rw [List.drop_drop]
  split
  · exact hp
  · rename_i h
    rw [List.drop_eq_nil_of_le (Nat.not_lt.mp h)]
    exact hq

structure Careful (pump : Pump α P) (out inn : P → List α) : Prop where
  head : out pump.head = [] ∧ inn pump.head = []
  ready : ∀ p, Ready (out p) (inn p) (pump.call p)
  holds : ∀ p r, Holds out inn pump.head (outAfter (pump.call p) r (out p))
    (inAfter (pump.call p) r (inn p)) (pump.next p r)

-- The points of a loop that has seen a write fail.
structure Quiet (pump : Pump α P) (quiet : P → Prop) : Prop where
  enters : ∀ p q buf, pump.call p = .channelWrite buf → pump.after p .error = .at q → quiet q
  stays : ∀ p q r, quiet p → pump.after p r = .at q → quiet q
  silent : ∀ p buf, quiet p → pump.call p ≠ .channelWrite buf

structure Sound (l : Link α) (out inn : List α) : Prop where
  written : l.written <+: l.received
  whole : l.torn = false → l.received = l.written ++ out
  delivered : l.delivered <+: l.yielded
  kept : l.lost = false → l.yielded = l.delivered ++ inn
  there : l.gone = false → l.lost = false
  yielded : l.yielded <+: l.content

theorem sound_fresh (content : List α) : Sound (Link.fresh content) [] [] :=
  ⟨List.prefix_rfl, fun _ => rfl, List.prefix_rfl, fun _ => rfl, fun _ => rfl,
    List.nil_prefix⟩

section Calls

variable {l : Link α} {out inn bytes buf : List α}

theorem Sound.recv (h : Sound l out inn) (hout : out = []) :
    Sound { l with received := l.received ++ bytes } bytes inn := by
  subst hout
  refine { h with written := h.written.trans (List.prefix_append _ _), whole := ?_ }
  intro ht
  have hw := h.whole ht
  rw [List.append_nil] at hw
  simp only [hw]

theorem Sound.hangup (h : Sound l out inn) : Sound { l with gone := true } out inn :=
  { h with there := nofun }

theorem Sound.fail (h : Sound l out inn) : Sound { l with failed := true } out inn := { h with }

theorem Sound.tear (h : Sound l out inn) :
    Sound { l with torn := true, failed := true } [] inn :=
  { h with whole := nofun }

theorem Sound.write {k : Nat} (h : Sound l out inn) (hout : out = buf)
    (hk : l.torn = true → k = 0) :
    Sound { l with written := l.written ++ buf.take k } (buf.drop k) inn := by
  subst hout
  cases ht : l.torn with
  | true =>
    rw [hk ht, List.take_zero, List.append_nil]
    exact { h with whole := nofun }
  | false =>
    have hw := h.whole ht
    refine { h with written := ?_, whole := ?_ }
    · rw [hw]
      exact (List.prefix_append_right_inj _).mpr (List.take_prefix k out)
    · intro _
      simp only [hw, List.append_assoc, List.take_append_drop]

theorem Sound.read (h : Sound l out inn) (hinn : inn = [])
    (hcontent : l.yielded ++ bytes <+: l.content) :
    Sound { l with yielded := l.yielded ++ bytes } out bytes := by
  subst hinn
  refine { h with
    delivered := h.delivered.trans (List.prefix_append _ _)
    kept := ?_
    yielded := hcontent }
  intro hl
  have hk := h.kept hl
  rw [List.append_nil] at hk
  simp only [hk]

theorem Sound.drop (h : Sound l out inn) (hgone : l.gone = true ∨ l.lost = true) :
    Sound { l with lost := true } out [] := by
  refine { h with kept := nofun, there := ?_ }
  intro hg
  have hl : l.lost = false := h.there hg
  rcases hgone with hgone | hgone
  · exact absurd (hgone.symm.trans hg) (by decide)
  · exact absurd (hgone.symm.trans hl) (by decide)

theorem Sound.send {k : Nat} (h : Sound l out inn) (hinn : inn = buf)
    (hk : if l.lost then k = 0 else k = buf.length) :
    Sound { l with delivered := l.delivered ++ buf.take k, lost := l.lost || k != buf.length }
      out [] := by
  subst hinn
  cases hl : l.lost with
  | true =>
    rw [hl, if_pos rfl] at hk
    rw [hk, List.take_zero, List.append_nil, Bool.true_or]
    exact h.drop (.inr hl)
  | false =>
    rw [hl, if_neg (by decide)] at hk
    have hkept := h.kept hl
    rw [hk, List.take_length, bne_self_eq_false, Bool.or_false]
    refine { h with delivered := ?_, kept := ?_, there := fun _ => rfl }
    · simp only [hkept, List.prefix_rfl]
    · intro _
      simp only [hkept, List.append_nil]

end Calls

section Runs

theorem Careful.at_point {pump : Pump α P} {out inn : P → List α} {p q : P} {r : Reply α}
    (h : Careful pump out inn) (hq : pump.after p r = .at q) :
    out q = outAfter (pump.call p) r (out p) ∧ inn q = inAfter (pump.call p) r (inn p) := by
  have hm := h.holds p r
  unfold Pump.after at hq
  cases hn : pump.next p r with
  | «at» t =>
    rw [hn] at hm hq
    cases hq
    exact hm
  | pass =>
    rw [hn] at hm hq
    cases hq
    exact hm
  | close => simp [hn] at hq
  | stop => simp [hn] at hq

theorem after_closed {pump : Pump α P} {p : P} {r : Reply α} (h : pump.after p r = .closed) :
    pump.next p r = .close := by
  unfold Pump.after at h
  cases hn : pump.next p r with
  | close => rfl
  | _ => simp [hn] at h

theorem Careful.at_close {pump : Pump α P} {out inn : P → List α} {p : P} {r : Reply α}
    (h : Careful pump out inn) (hq : pump.next p r = .close) :
    inAfter (pump.call p) r (inn p) = [] := by
  have hm := h.holds p r
  rw [hq] at hm
  exact hm

variable [DecidableEq α] {l l' : Link α} {c : Call α} {r : Reply α} {out inn : List α}

theorem Sound.answer (h : Sound l out inn) (hready : Ready out inn c)
    (hanswer : l.answer c r = some l') (hloss : Lossless l c r) :
    Sound l' (outAfter c r out) (inAfter c r inn) := by
  cases c with
  | stopping =>
    cases r with
    | flag b => cases hanswer; exact h
    | _ => cases hanswer
  | poll =>
    cases r with
    | polled n => cases hanswer; exact h
    | _ => cases hanswer
  | recv size =>
    cases r with
    | data bytes =>
      obtain ⟨-, ⟨⟩⟩ := Option.ite_none_right_eq_some.mp hanswer
      exact h.recv hready
    | zero => cases hanswer; exact h
    | again => cases hanswer; exact h
    | error => cases hanswer; exact h.hangup
    | _ => cases hanswer
  | send buf =>
    cases r with
    | took k =>
      obtain ⟨-, ⟨⟩⟩ := Option.ite_none_right_eq_some.mp hanswer
      exact h.send hready hloss.1
    | again => cases hanswer; exact h.drop (.inr hloss.1)
    | error => cases hanswer; exact h.hangup.drop (.inl rfl)
    | _ => cases hanswer
  | channelRead size =>
    cases r with
    | data bytes =>
      obtain ⟨⟨-, -, hcontent⟩, ⟨⟩⟩ := Option.ite_none_right_eq_some.mp hanswer
      exact h.read hready hcontent
    | zero => cases hanswer; exact h
    | again => cases hanswer; exact h
    | error => cases hanswer; exact h.fail
    | _ => cases hanswer
  | channelWrite buf =>
    cases r with
    | took k =>
      obtain ⟨-, ⟨⟩⟩ := Option.ite_none_right_eq_some.mp hanswer
      exact h.write hready hloss.2
    | again => cases hanswer; exact h
    | error => cases hanswer; exact h.tear
    | _ => cases hanswer
  | channelEof =>
    cases r with
    | flag b =>
      obtain ⟨-, ⟨⟩⟩ := Option.ite_none_right_eq_some.mp hanswer
      exact h
    | _ => cases hanswer

-- The states that a loop reaches while every reply meets `ok`.
inductive Reach (pump : Pump α P) (ok : Link α → P → Reply α → Prop) : Link α → Status P → Prop
  | start (content : List α) : Reach pump ok (Link.fresh content) (.at pump.head)
  | step {l l' : Link α} {p : P} {r : Reply α} : Reach pump ok l (.at p) →
      l.answer (pump.call p) r = some l' → ok l p r → Reach pump ok l' (pump.after p r)

variable {pump : Pump α P} {ok ok' : Link α → P → Reply α → Prop} {st : Status P}

theorem Reach.strengthen (h : Reach pump ok l st)
    (hok : ∀ l p r, Reach pump ok l (.at p) → ok l p r → ok' l p r) : Reach pump ok' l st := by
  induction h with
  | start content => exact .start content
  | step hreach hanswer hstep ih => exact .step ih hanswer (hok _ _ _ hreach hstep)

theorem answer_eof (h : l.answer .channelEof (.flag true) = some l') : AtEnd l' := by
  obtain ⟨hend, ⟨⟩⟩ := Option.ite_none_right_eq_some.mp h
  exact .inr (.inr (hend rfl))

theorem answer_torn (h : l.answer c r = some l') (ht : l'.torn = true) :
    l.torn = true ∨ (∃ buf, c = .channelWrite buf) ∧ r = .error := by
  cases hl : l.torn with
  | true => exact .inl rfl
  | false =>
    refine .inr ?_
    unfold Link.answer at h
    split at h
    any_goals
      split at h
      any_goals cases h
    any_goals cases h
    all_goals first
      | exact absurd (hl.symm.trans ht) (by decide)
      | exact ⟨⟨_, rfl⟩, rfl⟩

theorem Reach.quiet {quiet : P → Prop} {p : P} (h : Reach pump ok l (.at p))
    (hq : Quiet pump quiet) (ht : l.torn = true) : quiet p := by
  generalize hst : Status.at p = st at h
  induction h generalizing p with
  | start content => exact absurd ht Bool.false_ne_true
  | step _ hanswer _ ih =>
    rcases answer_torn hanswer ht with ht | ⟨⟨buf, hcall⟩, rfl⟩
    · exact hq.stays _ _ _ (ih ht rfl) hst.symm
    · exact hq.enters _ _ buf hcall hst.symm

theorem Reach.writesStop {quiet : P → Prop} (h : Reach pump ok l st) (hq : Quiet pump quiet) :
    Reach pump (fun l p r => ok l p r ∧ WritesStop l (pump.call p) r) l st := by
  refine h.strengthen ?_
  intro l p r hreach hok
  refine ⟨hok, ?_⟩
  unfold WritesStop
  split
  · rename_i hcall
    intro ht
    exact absurd hcall (hq.silent p _ (hreach.quiet hq ht))
  · trivial

theorem Reach.sound {out inn : P → List α} {p : P} (h : Reach pump ok l (.at p))
    (careful : Careful pump out inn)
    (hloss : ∀ l p r, ok l p r → Lossless l (pump.call p) r) : Sound l (out p) (inn p) := by
  generalize hst : Status.at p = st at h
  induction h generalizing p with
  | start content =>
    obtain rfl := Status.at.inj hst
    rw [careful.head.1, careful.head.2]
    exact sound_fresh content
  | step _ hanswer hok ih =>
    rw [(careful.at_point hst.symm).1, (careful.at_point hst.symm).2]
    exact (ih rfl).answer (careful.ready _) hanswer (hloss _ _ _ hok)

-- A loop ends a link only at the end of the channel or for one of its two failures.
def ClosesAtEnd (pump : Pump α P) (ok : Link α → P → Reply α → Prop) : Prop :=
  ∀ l l' p r, l.answer (pump.call p) r = some l' → ok l p r → pump.next p r = .close → AtEnd l'

theorem Reach.intact {out inn : P → List α} (h : Reach pump ok l st)
    (careful : Careful pump out inn)
    (hloss : ∀ l p r, ok l p r → Lossless l (pump.call p) r)
    (hclose : ClosesAtEnd pump ok) : Intact l ∧ (st = .closed → Complete l) := by
  cases h with
  | start content => exact ⟨⟨List.prefix_rfl, List.prefix_rfl⟩, nofun⟩
  | step hreach hanswer hok =>
    have hsound := (hreach.sound careful hloss).answer (careful.ready _) hanswer
      (hloss _ _ _ hok)
    refine ⟨⟨hsound.written, hsound.delivered⟩, ?_⟩
    intro hclosed hgone hfailed
    have hclosed := after_closed hclosed
    rcases hclose _ _ _ _ hanswer hok hclosed with h | h | h
    · exact absurd (h.symm.trans hgone) (by decide)
    · exact absurd (h.symm.trans hfailed) (by decide)
    · have hkept := hsound.kept (hsound.there hgone)
      rw [careful.at_close hclosed, List.append_nil] at hkept
      rw [← h, hkept]

theorem Reach.intact_of_quiet {out inn : P → List α} {quiet : P → Prop}
    (h : Reach pump ok l st) (careful : Careful pump out inn) (hq : Quiet pump quiet)
    (hsend : ∀ l p r, ok l p r → SendsWhole l (pump.call p) r)
    (hclose : ClosesAtEnd pump ok) : Intact l ∧ (st = .closed → Complete l) :=
  (h.writesStop hq).intact careful (fun _ _ _ hok => ⟨hsend _ _ _ hok.1, hok.2⟩)
    (fun _ _ _ _ hanswer hok => hclose _ _ _ _ hanswer hok.1)

end Runs

-- One thread that serves several links in turn with the same body.
structure Server (α P : Type) where
  pairs : List (Link α × P)
  i : Option Nat
  closed : List (Link α)
  stopped : Bool

inductive Event (α : Type)
  | stop
  | accept (content : List α)
  | round
  | finish
  | reply (r : Reply α)

namespace Server

def idle : Server α P := ⟨[], none, [], false⟩

def current (s : Server α P) : Option (Link α × P) := s.i.bind fun k => s.pairs[k]?

-- The link of the pair in turn after one reply, and where its body goes on.
def serve (pump : Pump α P) (s : Server α P) (k : Nat) (l : Link α) : Move P → Server α P
  | .at q => { s with pairs := s.pairs.set k (l, q) }
  | .pass => { s with pairs := s.pairs.set k (l, pump.head), i := some (k + 1) }
  | .close => { s with pairs := s.pairs.eraseIdx k, closed := s.closed ++ [l] }
  | .stop => { s with pairs := s.pairs.eraseIdx k, stopped := true }

def step [DecidableEq α] (pump : Pump α P) (midRound : Bool) (s : Server α P) :
    Event α → Option (Server α P)
  | .stop => if s.i = none then some { s with stopped := true } else none
  | .accept content =>
      if s.i = none ∨ midRound then
        some { s with pairs := s.pairs ++ [(Link.fresh content, pump.head)] }
      else none
  | .round => if s.i = none ∧ s.stopped = false then some { s with i := some 0 } else none
  | .finish => do
      let k ← s.i
      if s.pairs.length ≤ k then some { s with i := none } else none
  | .reply r => do
      let k ← s.i
      let (l, p) ← s.pairs[k]?
      let l' ← l.answer (pump.call p) r
      some (s.serve pump k l' (pump.next p r))

def Meets (ok : Link α → P → Reply α → Prop) (s : Server α P) : Event α → Prop
  | .reply r => ∀ q ∈ s.current, ok q.1 q.2 r
  | _ => True

inductive Reach [DecidableEq α] (pump : Pump α P) (midRound : Bool)
    (ok : Link α → P → Reply α → Prop) : Server α P → Prop
  | start : Reach pump midRound ok idle
  | step {s t : Server α P} {e : Event α} : Reach pump midRound ok s →
      s.step pump midRound e = some t → s.Meets ok e → Reach pump midRound ok t

def Serves [DecidableEq α] (pump : Pump α P) (ok : Link α → P → Reply α → Prop)
    (s : Server α P) : Prop :=
  (∀ q ∈ s.pairs, Relay.Reach pump ok q.1 (.at q.2)) ∧
    ∀ l ∈ s.closed, Relay.Reach pump ok l .closed

section Serves

variable [DecidableEq α] {pump : Pump α P} {ok : Link α → P → Reply α → Prop}
  {s t : Server α P} {midRound : Bool}

theorem Serves.serve {l : Link α} {k : Nat} {p : P} {r : Reply α} (h : s.Serves pump ok)
    (hl : Relay.Reach pump ok l (pump.after p r)) :
    (s.serve pump k l (pump.next p r)).Serves pump ok := by
  unfold Pump.after at hl
  cases hn : pump.next p r with
  | «at» q =>
    rw [hn] at hl
    refine ⟨?_, h.2⟩
    intro q' hq
    rcases List.mem_or_eq_of_mem_set hq with hq | rfl
    · exact h.1 q' hq
    · exact hl
  | pass =>
    rw [hn] at hl
    refine ⟨?_, h.2⟩
    intro q' hq
    rcases List.mem_or_eq_of_mem_set hq with hq | rfl
    · exact h.1 q' hq
    · exact hl
  | close =>
    rw [hn] at hl
    refine ⟨fun q' hq => h.1 q' (List.mem_of_mem_eraseIdx hq), ?_⟩
    intro l' hl'
    rcases List.mem_append.mp hl' with hl' | hl'
    · exact h.2 l' hl'
    · rw [List.mem_singleton.mp hl']
      exact hl
  | stop => exact ⟨fun q' hq => h.1 q' (List.mem_of_mem_eraseIdx hq), h.2⟩

theorem Serves.step {e : Event α} (h : s.Serves pump ok) (hstep : s.step pump midRound e = some t)
    (hok : s.Meets ok e) : t.Serves pump ok := by
  cases e with
  | stop =>
    obtain ⟨-, ⟨⟩⟩ := Option.ite_none_right_eq_some.mp hstep
    exact h
  | accept content =>
    obtain ⟨-, ⟨⟩⟩ := Option.ite_none_right_eq_some.mp hstep
    refine ⟨?_, h.2⟩
    intro q hq
    rcases List.mem_append.mp hq with hq | hq
    · exact h.1 q hq
    · rw [List.mem_singleton.mp hq]
      exact .start content
  | round =>
    obtain ⟨-, ⟨⟩⟩ := Option.ite_none_right_eq_some.mp hstep
    exact h
  | finish =>
    obtain ⟨k, -, hk⟩ := Option.bind_eq_some_iff.mp hstep
    obtain ⟨-, ⟨⟩⟩ := Option.ite_none_right_eq_some.mp hk
    exact h
  | reply r =>
    obtain ⟨k, hi, hk⟩ := Option.bind_eq_some_iff.mp hstep
    obtain ⟨⟨l, p⟩, hpair, hq⟩ := Option.bind_eq_some_iff.mp hk
    obtain ⟨l', hanswer, ⟨⟩⟩ := Option.bind_eq_some_iff.mp hq
    have hcurrent : s.current = some (l, p) := by rw [current, hi]; exact hpair
    have hreach := h.1 (l, p) (List.mem_of_getElem? hpair)
    exact h.serve (hreach.step hanswer (hok (l, p) hcurrent))

theorem Reach.serves (h : Reach pump midRound ok s) : s.Serves pump ok := by
  induction h with
  | start => exact ⟨nofun, nofun⟩
  | step _ hstep hok ih => exact ih.step hstep hok

theorem Reach.intact (h : Reach pump midRound ok s)
    (hpairs : ∀ l st, Relay.Reach pump ok l st → Intact l ∧ (st = .closed → Complete l)) :
    (∀ q ∈ s.pairs, Intact q.1) ∧ ∀ l ∈ s.closed, Intact l ∧ Complete l := by
  refine ⟨?_, ?_⟩
  · intro q hq
    exact (hpairs _ _ (h.serves.1 q hq)).1
  · intro l hl
    obtain ⟨hintact, hcomplete⟩ := hpairs _ _ (h.serves.2 l hl)
    exact ⟨hintact, hcomplete rfl⟩

end Serves

end Server

end Relay
