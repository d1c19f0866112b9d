import MacXterm.Connect.XdmcpConnection

namespace Connect

open Qt Xdmcp

namespace Xdmcp

def Rejects (dg : QByteArray) : Prop :=
  (parseHeader dg).valid = true ∧ isRejection (parseHeader dg).opcode = true

def Greets (dg : QByteArray) : Prop := (parseWilling dg).valid = true

def Grants (dg : QByteArray) : Prop := (parseAccept dg).valid = true

instance (dg : QByteArray) : Decidable (Rejects dg) := inferInstanceAs (Decidable (_ ∧ _))

instance (dg : QByteArray) : Decidable (Greets dg) := inferInstanceAs (Decidable (_ = _))

instance (dg : QByteArray) : Decidable (Grants dg) := inferInstanceAs (Decidable (_ = _))

-- What has been received so far settles the handshake one way or the other.
def Resolved (dgs : List QByteArray) : Prop :=
  (∃ dg ∈ dgs, Rejects dg) ∨ ∃ w a, [w, a].Sublist dgs ∧ Greets w ∧ Grants a

def step (remote : Remote) (localAddress : UInt32) (phase : Phase) (dg : QByteArray) :
    Phase × List Output :=
  (handle remote localAddress phase dg).result

def isRequest : Output → Bool
  | .sent dg _ => (parseHeader dg).valid && (parseHeader dg).opcode == Request
  | _ => false

def isWilling : Output → Bool
  | .willing _ _ => true
  | _ => false

def isTerminal : Output → Bool
  | .accepted _ => true
  | .rejected _ => true
  | _ => false

section Handle

variable {remote : Remote} {localAddress : UInt32} {phase : Phase} {dg : QByteArray}

theorem Greets.not_rejects (h : Greets dg) : ¬ Rejects dg := by
  rintro ⟨-, hreject⟩
  rw [(header_of_willing h).2] at hreject
  exact absurd hreject (by decide)

theorem Grants.not_rejects (h : Grants dg) : ¬ Rejects dg := by
  rintro ⟨-, hreject⟩
  rw [(header_of_accept h).2] at hreject
  exact absurd hreject (by decide)

theorem handle_rejects (h : Rejects dg) : handle remote localAddress phase dg =
    .rest .done [.rejected (parseHeader dg).opcode] := by
  simp only [handle, h.1, h.2, Bool.not_true, Bool.false_eq_true, if_false, if_true]

theorem handle_greets (h : Greets dg) : handle remote localAddress .query dg =
    .go .request [.willing (parseWilling dg).hostname (parseWilling dg).status,
      .sent (encodeRequest (requestParams localAddress)) remote] := by
  obtain ⟨hvalid, hopcode⟩ := header_of_willing h
  have hno : isRejection Willing = false := by decide
  have hwilling : (parseWilling dg).valid = true := h
  simp [handle, hvalid, hopcode, hno, hwilling]

theorem handle_grants (h : Grants dg) : handle remote localAddress .request dg =
    .go .done [.accepted (parseAccept dg).sessionId] := by
  obtain ⟨hvalid, hopcode⟩ := header_of_accept h
  have hno : isRejection Accept = false := by decide
  have haccept : (parseAccept dg).valid = true := h
  simp [handle, hvalid, hopcode, hno, haccept]

theorem handle_other (hreject : ¬ Rejects dg) (hquery : phase = .query → ¬ Greets dg)
    (hrequest : phase = .request → ¬ Grants dg) :
    handle remote localAddress phase dg = .go phase [] := by
  unfold handle
  dsimp only
  split_ifs with hvalid hno hq hw hr ha
  · rfl
  · exact absurd ⟨by simpa using hvalid, hno⟩ hreject
  · rfl
  · exact absurd (by simpa [Greets] using hw) (hquery hq.1)
  · rfl
  · exact absurd (by simpa [Grants] using ha) (hrequest hr.1)
  · rfl

theorem step_cases (remote : Remote) (localAddress : UInt32) (phase : Phase) (dg : QByteArray) :
    (Rejects dg ∧ step remote localAddress phase dg =
      (.done, [.rejected (parseHeader dg).opcode])) ∨
    (¬ Rejects dg ∧ phase = .query ∧ Greets dg ∧ step remote localAddress phase dg =
      (.request, [.willing (parseWilling dg).hostname (parseWilling dg).status,
        .sent (encodeRequest (requestParams localAddress)) remote])) ∨
    (¬ Rejects dg ∧ phase = .request ∧ Grants dg ∧ step remote localAddress phase dg =
      (.done, [.accepted (parseAccept dg).sessionId])) ∨
    (¬ Rejects dg ∧ (phase = .query → ¬ Greets dg) ∧ (phase = .request → ¬ Grants dg) ∧
      step remote localAddress phase dg = (phase, [])) := by
  by_cases hreject : Rejects dg
  · exact .inl ⟨hreject, congrArg Turn.result (handle_rejects hreject)⟩
  by_cases hquery : phase = .query ∧ Greets dg
  · obtain ⟨rfl, hgreets⟩ := hquery
    exact .inr (.inl ⟨hreject, rfl, hgreets, congrArg Turn.result (handle_greets hgreets)⟩)
  by_cases hrequest : phase = .request ∧ Grants dg
  · obtain ⟨rfl, hgrants⟩ := hrequest
    exact .inr (.inr (.inl ⟨hreject, rfl, hgrants, congrArg Turn.result (handle_grants hgrants)⟩))
  · have hq : phase = .query → ¬ Greets dg := fun hp hg => hquery ⟨hp, hg⟩
    have hr : phase = .request → ¬ Grants dg := fun hp hg => hrequest ⟨hp, hg⟩
    exact .inr (.inr (.inr ⟨hreject, hq, hr, congrArg Turn.result (handle_other hreject hq hr)⟩))

end Handle

section Trace

variable {remote : Remote} {localAddress : UInt32} {phase : Phase} {dg : QByteArray}
  {dgs : List QByteArray}

theorem isRequest_encodeRequest (remote : Remote) (p : RequestParams) :
    isRequest (.sent (encodeRequest p) remote) = true := by
  simp only [isRequest, encodeRequest, parseHeader_packet]
  rfl

-- A Request and a willing signal can still come only while the Query is out.
theorem once_while_query {p : Output → Bool} (hrejected : ∀ op, p (.rejected op) = false)
    (haccepted : ∀ id, p (.accepted id) = false)
    (hgreeting : ∀ host status, [Output.willing host status,
      .sent (encodeRequest (requestParams localAddress)) remote].countP p ≤ 1) :
    (Mealy.outputs (step remote localAddress) phase dgs).countP p ≤ 1 := by
  have hbudget : (Mealy.outputs (step remote localAddress) phase dgs).countP p ≤
      if phase = .query then 1 else 0 := by
    refine Mealy.count_le_budget (fun phase : Phase => if phase = .query then 1 else 0) ?_
    intro phase dg
    rcases step_cases remote localAddress phase dg with ⟨-, hstep⟩ | ⟨-, rfl, -, hstep⟩ |
      ⟨-, rfl, -, hstep⟩ | ⟨-, -, -, hstep⟩
    · simp [hstep, hrejected]
    · rw [hstep]
      exact hgreeting _ _
    · simp [hstep, haccepted]
    · simp [hstep]
  refine hbudget.trans ?_
  split <;> omega

theorem requests_once :
    (Mealy.outputs (step remote localAddress) phase dgs).countP isRequest ≤ 1 :=
  once_while_query (fun _ => rfl) (fun _ => rfl) fun _ _ => by
    rw [List.countP_cons, List.countP_singleton, isRequest_encodeRequest]
    exact le_rfl

theorem willing_once :
    (Mealy.outputs (step remote localAddress) phase dgs).countP isWilling ≤ 1 :=
  once_while_query (fun _ => rfl) (fun _ => rfl) fun _ _ => le_rfl

-- Which datagrams end the handshake, from each phase of it.
theorem after_done : Mealy.after (step remote localAddress) .done dgs = .done := by
  induction dgs with
  | nil => rfl
  | cons dg dgs ih =>
    rw [Mealy.after_cons]
    rcases step_cases remote localAddress .done dg with ⟨-, hstep⟩ | ⟨-, hphase, -⟩ |
      ⟨-, hphase, -⟩ | ⟨-, -, -, hstep⟩
    · rw [hstep]
      exact ih
    · cases hphase
    · cases hphase
    · rw [hstep]
      exact ih

theorem after_request : Mealy.after (step remote localAddress) .request dgs = .done ↔
    ∃ dg ∈ dgs, Rejects dg ∨ Grants dg := by
  induction dgs with
  | nil => simp [Mealy.after]
  | cons dg dgs ih =>
    rw [Mealy.after_cons, List.exists_mem_cons_iff]
    rcases step_cases remote localAddress .request dg with ⟨hreject, hstep⟩ | ⟨-, hphase, -⟩ |
      ⟨-, -, hgrants, hstep⟩ | ⟨hreject, -, hgrants, hstep⟩
    · rw [hstep]
      exact iff_of_true after_done (.inl (.inl hreject))
    · cases hphase
    · rw [hstep]
      exact iff_of_true after_done (.inl (.inr hgrants))
    · rw [hstep, ih, or_iff_right]
      exact fun h => h.elim hreject (hgrants rfl)

theorem resolved_cons_greets (hgreets : Greets dg) :
    Resolved (dg :: dgs) ↔ ∃ d ∈ dgs, Rejects d ∨ Grants d := by
  unfold Resolved
  rw [List.exists_mem_cons_iff, or_iff_right hgreets.not_rejects]
  constructor
  · rintro (⟨d, hd, hreject⟩ | ⟨w, a, hsub, -, ha⟩)
    · exact ⟨d, hd, .inl hreject⟩
    · refine ⟨a, ?_, .inr ha⟩
      cases hsub with
      | cons _ hsub => exact hsub.subset (List.mem_cons_of_mem w List.mem_cons_self)
      | cons_cons _ hsub => exact hsub.subset List.mem_cons_self
  · rintro ⟨d, hd, hreject | hgrants⟩
    · exact .inl ⟨d, hd, hreject⟩
    · refine .inr ⟨dg, d, ?_, hgreets, hgrants⟩
      exact (List.singleton_sublist.mpr hd).cons_cons dg

theorem resolved_cons_other (hreject : ¬ Rejects dg) (hgreets : ¬ Greets dg) :
    Resolved (dg :: dgs) ↔ Resolved dgs := by
  unfold Resolved
  rw [List.exists_mem_cons_iff, or_iff_right hreject]
  refine or_congr Iff.rfl ⟨?_, ?_⟩
  · rintro ⟨w, a, hsub, hw, ha⟩
    cases hsub with
    | cons _ hsub => exact ⟨w, a, hsub, hw, ha⟩
    | cons_cons _ hsub => exact absurd hw hgreets
  · rintro ⟨w, a, hsub, hw, ha⟩
    exact ⟨w, a, hsub.cons dg, hw, ha⟩

variable (remote localAddress) in
theorem after_query : Mealy.after (step remote localAddress) .query dgs = .done ↔
    Resolved dgs := by
  induction dgs with
  | nil => simp [Mealy.after, Resolved]
  | cons dg dgs ih =>
    rw [Mealy.after_cons]
    rcases step_cases remote localAddress .query dg with ⟨hreject, hstep⟩ |
      ⟨-, -, hgreets, hstep⟩ | ⟨-, hphase, -⟩ | ⟨hreject, hgreets, -, hstep⟩
    · rw [hstep]
      exact iff_of_true after_done (.inl ⟨dg, List.mem_cons_self, hreject⟩)
    · rw [hstep, after_request, resolved_cons_greets hgreets]
    · cases hphase
    · rw [hstep, ih, resolved_cons_other hreject (hgreets rfl)]

theorem accepted_after_request {before later : List (QByteArray × List Output)}
    {out : List Output} {id : UInt32}
    (hsplit : Mealy.trace (step remote localAddress) phase dgs = before ++ (dg, out) :: later)
    (haccepted : .accepted id ∈ out) : Grants dg ∧ (parseAccept dg).sessionId = id ∧
      (phase = .request ∨ ∃ o ∈ before.flatMap Prod.snd, isRequest o = true) := by
  induction dgs generalizing phase before with
  | nil => simp [Mealy.trace] at hsplit
  | cons d dgs ih =>
    rw [Mealy.trace_cons] at hsplit
    rcases List.cons_eq_append_iff.mp hsplit with ⟨rfl, hcons⟩ | ⟨before, rfl, hrest⟩
    · obtain ⟨hread, -⟩ := List.cons.inj hcons
      obtain ⟨rfl, rfl⟩ := Prod.mk.inj hread
      rcases step_cases remote localAddress phase dg with ⟨-, hstep⟩ | ⟨-, -, -, hstep⟩ |
        ⟨-, hphase, hgrants, hstep⟩ | ⟨-, -, -, hstep⟩
      · simp [hstep] at haccepted
      · simp [hstep] at haccepted
      · obtain rfl : id = (parseAccept dg).sessionId := by simpa [hstep] using haccepted
        exact ⟨hgrants, rfl, .inl hphase⟩
      · simp [hstep] at haccepted
    · obtain ⟨hgrants, hid, hor⟩ := ih hrest
      refine ⟨hgrants, hid, ?_⟩
      rw [List.flatMap_cons]
      rcases hor with hphase | ⟨o, ho, hrequest⟩
      · rcases step_cases remote localAddress phase d with ⟨-, hstep⟩ | ⟨-, -, -, hstep⟩ |
          ⟨-, -, -, hstep⟩ | ⟨-, -, -, hstep⟩
        · simp [hstep] at hphase
        · refine .inr ⟨_, ?_, isRequest_encodeRequest remote (requestParams localAddress)⟩
          rw [hstep]
          exact List.mem_append_left _ (List.mem_cons_of_mem _ List.mem_cons_self)
        · simp [hstep] at hphase
        · rw [hstep] at hphase
          exact .inl hphase
      · exact .inr ⟨o, List.mem_append_right _ ho, hrequest⟩

def Calm (phase : Phase) (dg : QByteArray) : Prop := phase = .done → ¬ Rejects dg

theorem calm_iff_not_late : Mealy.Along (step remote localAddress) Calm .query dgs ↔
    ∀ a d b, dgs = a ++ d :: b → Resolved a → ¬ Rejects d := by
  simp only [Mealy.along_iff, Calm, after_query]

theorem quiet_when_done (h : Mealy.Along (step remote localAddress) Calm .done dgs) :
    Mealy.outputs (step remote localAddress) .done dgs = [] := by
  refine Mealy.outputs_quiet (fun dg hcalm => ?_) h
  rcases step_cases remote localAddress .done dg with ⟨hreject, -⟩ | ⟨-, hphase, -⟩ |
    ⟨-, hphase, -⟩ | ⟨-, -, -, hstep⟩
  · exact absurd hreject (hcalm rfl)
  · cases hphase
  · cases hphase
  · exact hstep

theorem terminal_last (h : Mealy.Along (step remote localAddress) Calm phase dgs) :
    ∀ o ∈ (Mealy.outputs (step remote localAddress) phase dgs).dropLast, isTerminal o = false := by
  induction dgs generalizing phase with
  | nil => exact fun o ho => absurd ho (List.not_mem_nil)
  | cons dg dgs ih =>
    obtain ⟨-, hdgs⟩ := h
    rw [Mealy.outputs_cons]
    rcases step_cases remote localAddress phase dg with ⟨-, hstep⟩ | ⟨-, -, -, hstep⟩ |
      ⟨-, -, -, hstep⟩ | ⟨-, -, -, hstep⟩
    · rw [hstep] at hdgs ⊢
      rw [quiet_when_done hdgs]
      exact fun o ho => absurd ho List.not_mem_nil
    · rw [hstep] at hdgs ⊢
      intro o ho
      rw [List.dropLast_append] at ho
      split at ho
      · obtain rfl : o = .willing _ _ := by simpa using ho
        rfl
      · rcases List.mem_append.mp ho with ho | ho
        · simp only [List.mem_cons, List.not_mem_nil, or_false] at ho
          rcases ho with rfl | rfl <;> rfl
        · exact ih hdgs o ho
    · rw [hstep] at hdgs ⊢
      rw [quiet_when_done hdgs]
      exact fun o ho => absurd ho List.not_mem_nil
    · rw [hstep] at hdgs ⊢
      exact ih hdgs

theorem terminal_of_done (hphase : phase ≠ .done)
    (h : Mealy.after (step remote localAddress) phase dgs = .done) :
    ∃ o ∈ Mealy.outputs (step remote localAddress) phase dgs, isTerminal o = true := by
  induction dgs generalizing phase with
  | nil => exact absurd h hphase
  | cons dg dgs ih =>
    rw [Mealy.after_cons] at h
    rw [Mealy.outputs_cons]
    rcases step_cases remote localAddress phase dg with ⟨-, hstep⟩ | ⟨-, -, -, hstep⟩ |
      ⟨-, -, -, hstep⟩ | ⟨-, -, -, hstep⟩
    · rw [hstep]
      exact ⟨_, List.mem_append_left _ List.mem_cons_self, rfl⟩
    · rw [hstep] at h ⊢
      obtain ⟨o, ho, hterminal⟩ := ih Phase.noConfusion h
      exact ⟨o, List.mem_append_right _ ho, hterminal⟩
    · rw [hstep]
      exact ⟨_, List.mem_append_left _ List.mem_cons_self, rfl⟩
    · rw [hstep] at h ⊢
      exact ih hphase h

theorem calm_of_terminal_last
    (h : ∀ o ∈ (Mealy.outputs (step remote localAddress) .query dgs).dropLast,
      isTerminal o = false) : ∀ a d b, dgs = a ++ d :: b → Resolved a → ¬ Rejects d := by
  rintro a d b rfl hresolved hreject
  have hdone := (after_query remote localAddress).mpr hresolved
  obtain ⟨o, ho, hterminal⟩ := terminal_of_done (by decide) hdone
  have hmem : o ∈ (Mealy.outputs (step remote localAddress) .query (a ++ d :: b)).dropLast := by
    have hstep : step remote localAddress .done d = (.done, [.rejected (parseHeader d).opcode]) :=
      congrArg Turn.result (handle_rejects hreject)
    rw [Mealy.outputs_append, hdone, Mealy.outputs_cons, hstep, List.singleton_append,
      List.dropLast_append_of_ne_nil (List.cons_ne_nil _ _)]
    exact List.mem_append_left _ ho
  rw [h o hmem] at hterminal
  cases hterminal

end Trace

end Xdmcp

namespace XdmcpConnection

-- What a handshake may put out, over the datagrams read since start().
structure Orderly (reads : List (QByteArray × List Output)) : Prop where
  requests : (reads.flatMap Prod.snd).countP isRequest ≤ 1
  willing : (reads.flatMap Prod.snd).countP isWilling ≤ 1
  terminal : (reads.flatMap Prod.snd).countP isTerminal ≤ 1
  accepted : ∀ before dg out later id, reads = before ++ (dg, out) :: later →
    .accepted id ∈ out → (parseAccept dg).valid = true ∧ (parseAccept dg).sessionId = id ∧
      ∃ o ∈ before.flatMap Prod.snd, isRequest o = true
  silent : ∀ o ∈ (reads.flatMap Prod.snd).dropLast, isTerminal o = false

section Run

variable {c : XdmcpConnection} {localAddress : UInt32} {pending : List QByteArray}

theorem readPending_trace (c : XdmcpConnection) (localAddress : UInt32)
    (pending : List QByteArray) :
    ∃ dgs rest phase, pending = dgs ++ rest ∧
      phase = Mealy.after (step c.remote localAddress) c.phase dgs ∧
      c.readPending localAddress pending = (⟨some ⟨localAddress, rest⟩, c.remote, phase⟩,
        Mealy.trace (step c.remote localAddress) c.phase dgs) := by
  induction pending generalizing c with
  | nil => exact ⟨[], [], c.phase, rfl, rfl, rfl⟩
  | cons dg pending ih =>
    cases hhandle : handle c.remote localAddress c.phase dg with
    | rest phase out =>
      have hstep : step c.remote localAddress c.phase dg = (phase, out) :=
        congrArg Turn.result hhandle
      refine ⟨[dg], pending, phase, rfl, ?_, ?_⟩
      · rw [Mealy.after_cons, hstep]
        rfl
      · simp only [readPending, hhandle, Mealy.trace_cons, hstep]
        rfl
    | go phase out =>
      have hstep : step c.remote localAddress c.phase dg = (phase, out) :=
        congrArg Turn.result hhandle
      obtain ⟨dgs, rest, last, rfl, hlast, hread⟩ := ih { c with phase }
      refine ⟨dg :: dgs, rest, last, rfl, ?_, ?_⟩
      · rw [Mealy.after_cons, hstep]
        exact hlast
      · simp only [readPending, hhandle, hread, Mealy.trace_cons, hstep]

theorem run_closed (h : c.sock = none) (events : List Event) : (c.run events).2 = [] := by
  induction events generalizing c with
  | nil => rfl
  | cons e events ih =>
    have hevent : (c.handleEvent e).2 = [] ∧ (c.handleEvent e).1.sock = none := by
      cases e with
      | arrive dg => simp [handleEvent, arrive, h]
      | readyRead => simp [handleEvent, onReadyRead, h]
      | stop => exact ⟨rfl, rfl⟩
    rw [run, hevent.1, List.nil_append]
    exact ih hevent.2

def arrived (events : List Event) : List QByteArray :=
  events.filterMap fun
    | .arrive dg => some dg
    | _ => none

theorem run_trace (h : c.sock = some ⟨localAddress, pending⟩) (events : List Event) :
    ∃ dgs, dgs <+: pending ++ arrived events ∧
      (c.run events).2 = Mealy.trace (step c.remote localAddress) c.phase dgs := by
  induction events generalizing c pending with
  | nil => exact ⟨[], List.nil_prefix, rfl⟩
  | cons e events ih =>
    rw [run]
    cases e with
    | arrive dg =>
      have hsock : (c.arrive dg).sock = some ⟨localAddress, pending ++ [dg]⟩ := by
        rw [arrive, h]
        rfl
      have hmore := ih hsock
      rwa [List.append_assoc] at hmore
    | readyRead =>
      obtain ⟨dgs, rest, phase, rfl, rfl, hread⟩ := c.readPending_trace localAddress pending
      have hevent : c.handleEvent .readyRead = c.readPending localAddress (dgs ++ rest) := by
        simp only [handleEvent, onReadyRead, h]
      rw [hevent, hread]
      obtain ⟨more, hprefix, hmore⟩ := ih (c := ⟨some ⟨localAddress, rest⟩, c.remote, _⟩) rfl
      refine ⟨dgs ++ more, ?_, ?_⟩
      · rw [List.append_assoc]
        exact (List.prefix_append_right_inj dgs).mpr hprefix
      · rw [Mealy.trace_append]
        exact congrArg _ hmore
    | stop => exact ⟨[], List.nil_prefix, run_closed (c := c.stop) rfl events⟩

end Run

theorem reads_in_order (addresses : List QString) (bound : Option UInt32) (port : UInt16)
    (events : List Event) :
    ((new.start addresses bound port).2.1.run events).2.map Prod.fst <+: arrived events := by
  cases addresses with
  | nil =>
    rw [run_closed rfl]
    exact List.nil_prefix
  | cons peer addresses =>
    cases bound with
    | none =>
      rw [run_closed rfl]
      exact List.nil_prefix
    | some localAddress =>
      have hstart : (new.start (peer :: addresses) (some localAddress) port).2.1 =
        ⟨some ⟨localAddress, []⟩, ⟨peer, port⟩, .query⟩ := rfl
      obtain ⟨dgs, hprefix, hrun⟩ :=
        run_trace (c := ⟨some ⟨localAddress, []⟩, ⟨peer, port⟩, .query⟩) rfl events
      rw [hstart, hrun, Mealy.map_fst_trace]
      exact hprefix

theorem trace_orderly_iff (remote : Remote) (localAddress : UInt32) (dgs : List QByteArray) :
    Orderly (Mealy.trace (step remote localAddress) .query dgs) ↔
      ∀ a d b, dgs = a ++ d :: b → Resolved a → ¬ Rejects d := by
  constructor
  · exact fun h => calm_of_terminal_last h.silent
  · intro h
    have hcalm : Mealy.Along (step remote localAddress) Calm .query dgs := calm_iff_not_late.mpr h
    have hlast := terminal_last hcalm
    refine ⟨requests_once, willing_once, Mealy.countP_le_of_dropLast hlast, ?_, hlast⟩
    · intro before dg out later id hsplit haccepted
      obtain ⟨hgrants, hid, hor⟩ := accepted_after_request hsplit haccepted
      exact ⟨hgrants, hid, hor.resolve_left Phase.noConfusion⟩

theorem handshake_orderly_iff (addresses : List QString) (bound : Option UInt32) (port : UInt16)
    (events : List Event) :
    Orderly ((new.start addresses bound port).2.1.run events).2 ↔
      ∀ a d b, ((new.start addresses bound port).2.1.run events).2.map Prod.fst = a ++ d :: b →
        Resolved a → ¬ Rejects d := by
  cases addresses with
  | nil =>
    rw [run_closed rfl]
    exact trace_orderly_iff new.remote 0 []
  | cons peer addresses =>
    cases bound with
    | none =>
      rw [run_closed rfl]
      exact trace_orderly_iff ⟨peer, port⟩ 0 []
    | some localAddress =>
      have hstart : (new.start (peer :: addresses) (some localAddress) port).2.1 =
        ⟨some ⟨localAddress, []⟩, ⟨peer, port⟩, .query⟩ := rfl
      obtain ⟨dgs, -, hrun⟩ :=
        run_trace (c := ⟨some ⟨localAddress, []⟩, ⟨peer, port⟩, .query⟩) rfl events
      rw [hstart, hrun, Mealy.map_fst_trace]
      exact trace_orderly_iff ⟨peer, port⟩ localAddress dgs

theorem late_refusal_ends_twice :
    ¬ Orderly ((new.start [("192.0.2.1" : String)] (some 0) 177).2.1.run
      [.arrive [0, 1, 0, 5, 0, 3, 0, 0, 0], .arrive [0, 1, 0, 8, 0, 8, 0, 0, 0, 7, 0, 0, 0, 0],
        .readyRead, .arrive [0, 1, 0, 11, 0, 0], .readyRead]).2 := by
  intro h
  have htwice : (((new.start [("192.0.2.1" : String)] (some 0) 177).2.1.run
      [.arrive [0, 1, 0, 5, 0, 3, 0, 0, 0], .arrive [0, 1, 0, 8, 0, 8, 0, 0, 0, 7, 0, 0, 0, 0],
        .readyRead, .arrive [0, 1, 0, 11, 0, 0], .readyRead]).2.flatMap Prod.snd).countP
          isTerminal = 2 := by
    decide
  have hterminal := h.terminal
  rw [htwice] at hterminal
  omega

end XdmcpConnection

end Connect
