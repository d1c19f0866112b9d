import MacXterm.Connect.TelnetProtocol

namespace Connect

open Qt

namespace Telnet

inductive Side where
  | near | far
deriving DecidableEq

def Side.other : Side → Side
  | near => far
  | far => near

-- The option state of one end: what it last said it does, and what it last let the other end do.
structure Options where
  us : UInt8 → Bool := fun _ => false
  him : UInt8 → Bool := fun _ => false

namespace Options

def said (o : Options) (c : Command) : Options :=
  match c.verb with
  | .will => { o with us := fun opt => if opt = c.opt then true else o.us opt }
  | .wont => { o with us := fun opt => if opt = c.opt then false else o.us opt }
  | .do_ => { o with him := fun opt => if opt = c.opt then true else o.him opt }
  | .dont => { o with him := fun opt => if opt = c.opt then false else o.him opt }

def already (o : Options) (c : Command) : Bool :=
  match c.verb with
  | .do_ => o.us c.opt
  | .dont => !o.us c.opt
  | .will => o.him c.opt
  | .wont => !o.him c.opt

end Options

structure End where
  conn : TelnetConnection := {}
  options : Options := {}

structure Message where
  dest : Side
  command : Command
deriving DecidableEq

structure Net where
  near : End := {}
  far : End := {}
  inFlight : List Message

namespace Net

def at_ (n : Net) : Side → End
  | .near => n.near
  | .far => n.far

def set (n : Net) (side : Side) (e : End) : Net :=
  match side with
  | .near => { n with near := e }
  | .far => { n with far := e }

def replies (n : Net) (m : Message) : List Command :=
  commands ((n.at_ m.dest).conn.onReadyRead m.command.encode).2.response

def receive (e : End) (c : Command) : End :=
  let r := e.conn.onReadyRead c.encode
  ⟨r.1, (commands r.2.response).foldl Options.said e.options⟩

def deliver (n : Net) (i : Nat) : Option Net :=
  (n.inFlight[i]?).map fun m =>
    { n.set m.dest (receive (n.at_ m.dest) m.command) with
      inFlight := n.inFlight.eraseIdx i ++ (n.replies m).map (⟨m.dest.other, ·⟩) }

def run (n : Net) : List Nat → Option Net
  | [] => some n
  | i :: schedule => (n.deliver i).bind (run · schedule)

def start (inFlight : List Message) : Net := { inFlight }

def Needless (n : Net) (i : Nat) : Prop :=
  ∃ m, n.inFlight[i]? = some m ∧ (n.at_ m.dest).options.already m.command = true ∧
    n.replies m ≠ []

def NeverNeedless (inFlight : List Message) : Prop :=
  ∀ schedule n i, (start inFlight).run schedule = some n → ¬n.Needless i

def FinitelyMany (inFlight : List Message) : Prop :=
  ∃ bound, ∀ schedule n, (start inFlight).run schedule = some n → schedule.length ≤ bound

structure Ready (n : Net) : Prop where
  near : n.near.conn = {}
  far : n.far.conn = {}

theorem Ready.at_ {n : Net} (h : n.Ready) (side : Side) : (n.at_ side).conn = {} := by
  cases side with
  | near => exact h.near
  | far => exact h.far

theorem ready_start (inFlight : List Message) : (start inFlight).Ready := ⟨rfl, rfl⟩

theorem onReadyRead_encode (c : Command) :
    TelnetConnection.onReadyRead {} c.encode = ({}, { response := c.answer.encode }) := by
  rw [TelnetConnection.onReadyRead, process_encode]

theorem replies_eq {n : Net} (h : n.Ready) (m : Message) : n.replies m = [m.command.answer] := by
  rw [replies, h.at_, onReadyRead_encode, commands_encode]

theorem receive_eq {e : End} (h : e.conn = {}) (c : Command) :
    receive e c = ⟨{}, e.options.said c.answer⟩ := by
  rw [receive, h, onReadyRead_encode]
  simp only [commands_encode, List.foldl_cons, List.foldl_nil]

@[simp] theorem at_set_self (n : Net) (side : Side) (e : End) : (n.set side e).at_ side = e := by
  cases side <;> rfl

@[simp] theorem at_set_other (n : Net) (side : Side) (e : End) :
    (n.set side e).at_ side.other = n.at_ side.other := by
  cases side <;> rfl

theorem at_inFlight (n : Net) (side : Side) (inFlight : List Message) :
    { n with inFlight }.at_ side = n.at_ side := by
  cases side <;> rfl

theorem Ready.set {n : Net} (h : n.Ready) (side : Side) {e : End} (he : e.conn = {})
    (inFlight : List Message) : { n.set side e with inFlight }.Ready := by
  cases side with
  | near => exact ⟨he, h.far⟩
  | far => exact ⟨h.near, he⟩

theorem deliver_eq {n : Net} (h : n.Ready) {i : Nat} {m : Message}
    (hm : n.inFlight[i]? = some m) :
    n.deliver i = some { n.set m.dest ⟨{}, (n.at_ m.dest).options.said m.command.answer⟩ with
      inFlight := n.inFlight.eraseIdx i ++ [⟨m.dest.other, m.command.answer⟩] } := by
  rw [deliver, hm, Option.map_some, receive_eq (h.at_ m.dest), replies_eq h]
  rfl

theorem ready_deliver {n n' : Net} (h : n.Ready) {i : Nat} (hd : n.deliver i = some n') :
    n'.Ready ∧ n'.inFlight.length = n.inFlight.length := by
  obtain ⟨m, hm, -⟩ := Option.map_eq_some_iff.mp hd
  rw [deliver_eq h hm, Option.some.injEq] at hd
  subst hd
  refine ⟨h.set m.dest rfl _, ?_⟩
  have hi : i < n.inFlight.length := (List.getElem?_eq_some_iff.mp hm).1
  rw [List.length_append, List.length_eraseIdx_of_lt hi, List.length_singleton]
  omega

-- Every delivery takes one command out of flight and puts one in.
theorem run_any_length (n : Net) (h : n.Ready) (hne : n.inFlight ≠ []) (k : Nat) :
    ∃ n', n.run (List.replicate k 0) = some n' := by
  induction k generalizing n with
  | zero => exact ⟨n, rfl⟩
  | succ k ih =>
    obtain ⟨m, ms, hms⟩ := List.exists_cons_of_ne_nil hne
    have hd := deliver_eq h (i := 0) (m := m) (by rw [hms]; rfl)
    obtain ⟨hready, hlength⟩ := ready_deliver h hd
    obtain ⟨n', hn'⟩ := ih _ hready (by
      rw [ne_eq, ← List.length_eq_zero_iff, hlength, List.length_eq_zero_iff]
      exact hne)
    exact ⟨n', by rw [List.replicate_succ, run, hd, Option.bind_some, hn']⟩

theorem finitelyMany_iff (inFlight : List Message) : FinitelyMany inFlight ↔ inFlight = [] := by
  constructor
  · rintro ⟨bound, hbound⟩
    by_contra hne
    obtain ⟨n, hn⟩ := run_any_length (start inFlight) (ready_start inFlight) hne (bound + 1)
    have := hbound _ n hn
    rw [List.length_replicate] at this
    omega
  · rintro rfl
    refine ⟨0, fun schedule n hrun => ?_⟩
    cases schedule with
    | nil => exact Nat.le_refl 0
    | cons i schedule => simp [run, deliver, start] at hrun

def Violates (n : Net) : Prop := ∃ schedule n' i, n.run schedule = some n' ∧ n'.Needless i

theorem violates_of_deliver {n n' : Net} {i : Nat} (hd : n.deliver i = some n')
    (h : n'.Violates) : n.Violates := by
  obtain ⟨schedule, n'', j, hrun, hneedless⟩ := h
  exact ⟨i :: schedule, n'', j, by rw [run, hd, Option.bind_some, hrun], hneedless⟩

structure Last (n : Net) (m : Message) : Prop where
  ready : n.Ready
  last : ∃ rest, n.inFlight = rest ++ [m]

theorem Last.violates {n : Net} {m : Message} (h : n.Last m)
    (halready : (n.at_ m.dest).options.already m.command = true) : n.Violates := by
  obtain ⟨rest, hrest⟩ := h.last
  refine ⟨[], n, rest.length, rfl, m, ?_, halready, ?_⟩
  · rw [hrest]
    simp
  · rw [replies_eq h.ready]
    exact List.cons_ne_nil _ _

theorem Last.next {n : Net} {m : Message} (h : n.Last m) :
    ∃ n' i, n.deliver i = some n' ∧ n'.Last ⟨m.dest.other, m.command.answer⟩ ∧
      (n'.at_ m.dest).options = (n.at_ m.dest).options.said m.command.answer ∧
      (n'.at_ m.dest.other).options = (n.at_ m.dest.other).options := by
  obtain ⟨rest, hrest⟩ := h.last
  have hm : n.inFlight[rest.length]? = some m := by
    rw [hrest]
    simp
  have hd := deliver_eq h.ready hm
  refine ⟨_, rest.length, hd, ⟨(ready_deliver h.ready hd).1, _, rfl⟩, ?_, ?_⟩
  · rw [at_inFlight, at_set_self]
  · rw [at_inFlight, at_set_other]

theorem other_other (side : Side) : side.other.other = side := by cases side <;> rfl

theorem Last.violates_of_off {n : Net} {m : Message} (h : n.Last m)
    (hnear : n.near.options = {}) (hfar : n.far.options = {}) : n.Violates := by
  have hoff (side : Side) : (n.at_ side).options = {} := by
    cases side with
    | near => exact hnear
    | far => exact hfar
  obtain ⟨n1, i1, hd1, hlast1, hself1, hother1⟩ := h.next
  obtain ⟨n2, i2, hd2, hlast2, hself2, hother2⟩ := hlast1.next
  obtain ⟨n3, i3, hd3, hlast3, hself3, hother3⟩ := hlast2.next
  simp only [other_other] at hother2 hself3 hother3 hlast2 hlast3
  rw [hoff] at hself1 hother1
  rw [hother1] at hself2
  rw [hself1] at hother2
  obtain ⟨side, verb, opt⟩ := m
  cases verb with
  | dont => exact h.violates (by rw [hoff]; rfl)
  | wont => exact h.violates (by rw [hoff]; rfl)
  | do_ =>
    refine violates_of_deliver hd1 ?_
    by_cases hopt : opt = OPT_SGA
    · subst hopt
      refine violates_of_deliver hd2 (hlast2.violates ?_)
      rw [hother2]
      rfl
    · refine hlast1.violates ?_
      rw [hother1]
      simp [Command.answer, hopt, Options.already]
  | will =>
    refine violates_of_deliver hd1 ?_
    by_cases hsga : opt = OPT_SGA
    · subst hsga
      refine violates_of_deliver hd2 (hlast2.violates ?_)
      rw [hother2]
      rfl
    · by_cases hecho : opt = OPT_ECHO
      · subst hecho
        refine violates_of_deliver hd2 (violates_of_deliver hd3 (hlast3.violates ?_))
        rw [hother3, hself2]
        rfl
      · refine hlast1.violates ?_
        rw [hother1]
        simp [Command.answer, hsga, hecho, Options.already]

theorem neverNeedless_iff (inFlight : List Message) : NeverNeedless inFlight ↔ inFlight = [] := by
  constructor
  · intro hnever
    by_contra hne
    have hlast : (start inFlight).Last (inFlight.getLast hne) :=
      ⟨ready_start inFlight, inFlight.dropLast, (List.dropLast_append_getLast hne).symm⟩
    obtain ⟨schedule, n, i, hrun, hneedless⟩ := hlast.violates_of_off rfl rfl
    exact hnever schedule n i hrun hneedless
  · rintro rfl schedule n i hrun ⟨m, hm, -⟩
    cases schedule with
    | nil =>
      obtain rfl := Option.some.inj hrun
      simp [start] at hm
    | cons j schedule => simp [run, deliver, start] at hrun

theorem negotiation_settles_iff (inFlight : List Message) :
    NeverNeedless inFlight ∧ FinitelyMany inFlight ↔ inFlight = [] := by
  rw [neverNeedless_iff, finitelyMany_iff, and_self]

theorem refusals_loop : ¬NeverNeedless [⟨.near, ⟨.dont, OPT_ECHO⟩⟩] := by
  intro hnever
  refine hnever [] (start [⟨.near, ⟨.dont, OPT_ECHO⟩⟩]) 0 rfl ⟨_, rfl, rfl, ?_⟩
  decide

end Net

end Telnet

end Connect
