import MacXterm.Core.Macro
import MacXterm.Lib.Mealy
import Mathlib.Data.List.Nodup

namespace Core

open Qt

structure Target (α : Type) where
  sink : Option α
  enabled : Bool
deriving DecidableEq

-- The order of the targets is that of the hash, which nothing depends on.
structure InputBroadcaster (α : Type) where
  targets : List (Nat × Target α) := []
  next : Nat := 1

namespace InputBroadcaster

variable {α : Type}

inductive Op (α : Type) where
  | addTarget (sink : Option α)
  | removeTarget (id : Nat)
  | setEnabled (id : Nat) (on : Bool)
  | broadcast (data : QByteArray)

def addTarget (b : InputBroadcaster α) (sink : Option α) : Nat × InputBroadcaster α :=
  (b.next, { targets := b.targets ++ [(b.next, ⟨sink, true⟩)], next := b.next + 1 })

def removeTarget (b : InputBroadcaster α) (id : Nat) : InputBroadcaster α :=
  { b with targets := b.targets.filter fun t => t.1 ≠ id }

def setEnabled (b : InputBroadcaster α) (id : Nat) (on : Bool) : InputBroadcaster α :=
  { b with targets := b.targets.map fun t =>
      if t.1 = id then (t.1, { t.2 with enabled := on }) else t }

def broadcast (b : InputBroadcaster α) (data : QByteArray) : List (α × QByteArray) :=
  b.targets.filterMap fun t => if t.2.enabled then t.2.sink.map (·, data) else none

def step (b : InputBroadcaster α) : Op α → InputBroadcaster α × List (α × QByteArray)
  | .addTarget sink => ((b.addTarget sink).2, [])
  | .removeTarget id => (b.removeTarget id, [])
  | .setEnabled id on => (b.setEnabled id on, [])
  | .broadcast data => (b, b.broadcast data)

end InputBroadcaster

end Core

namespace Ui

open Qt Core

-- The input handler of a pane; the recording one feeds the pane it was set on.
inductive Handler where
  | none | broadcastInput | record
deriving DecidableEq

-- tabbed: in the tabs of the main window, not in a window of its own.
structure Pane where
  id : Nat
  tabbed : Bool := true
  handler : Handler
  multiExec : Bool := true
deriving DecidableEq

structure InputWindow where
  panes : List Pane := []
  next : Nat := 0
  multiExec : Bool := false
  recordingMacro : Bool := false
  recorded : Macro := { name := [] }

inductive InputEvent where
  | makePane
  | closePane (id : Nat)
  | detachPane (id : Nat)
  | toggleMultiExec (on : Bool)
  | setMultiExecEnabled (id : Nat) (on : Bool)
  | toggleMacroRecording (current : Nat)
  | playMacro (current : Nat)
  | sendInput (id : Nat) (bytes : QByteArray)
  | outputReady (id : Nat) (bytes : QByteArray)

namespace InputWindow

variable (w : InputWindow)

def pane (id : Nat) : Option Pane := w.panes.find? fun p => p.id == id

def tabs : List Pane := w.panes.filter Pane.tabbed

-- The pane of the current tab, which is one of the tabs.
def currentPane (id : Nat) : Option Pane := (w.pane id).filter Pane.tabbed

def update (id : Nat) (g : Pane → Pane) : InputWindow :=
  { w with panes := w.panes.map fun p => if p.id = id then g p else p }

def routing : Handler := if w.multiExec then .broadcastInput else .none

def makePane : InputWindow :=
  { w with
    panes := w.panes ++ [{ id := w.next, handler := w.routing }]
    next := w.next + 1 }

def broadcastInput (bytes : QByteArray) : List (Nat × QByteArray) :=
  (w.tabs.filter Pane.multiExec).map fun p => (p.id, bytes)

def toggleMultiExec (on : Bool) : InputWindow :=
  { w with
    multiExec := on
    panes := w.panes.map fun p =>
      if p.tabbed then { p with handler := if on then .broadcastInput else .none } else p }

def toggleMacroRecording (current : Nat) : InputWindow :=
  match w.currentPane current with
  | none => w
  | some _ =>
      if !w.recordingMacro then
        { w with
          recordingMacro := true
          recorded := Macro.beginRecording { name := "recorded".toList } }.update current
            fun p => { p with handler := .record }
      else
        { w with recordingMacro := false, recorded := w.recorded.endRecording }.update current
          fun p => { p with handler := w.routing }

def playMacro (current : Nat) : List (Nat × QByteArray) :=
  match w.currentPane current with
  | none => []
  | some _ => w.recorded.replay.map (current, ·)

def sendInput (id : Nat) (bytes : QByteArray) : InputWindow × List (Nat × QByteArray) :=
  match w.pane id with
  | none => (w, [])
  | some p =>
      match p.handler with
      | .none => (w, [(id, bytes)])
      | .broadcastInput => (w, w.broadcastInput bytes)
      | .record => ({ w with recorded := w.recorded.record (some bytes) }, [(id, bytes)])

def outputReady (id : Nat) (bytes : QByteArray) : List (Nat × QByteArray) :=
  match w.pane id with
  | none => []
  | some _ => [(id, bytes)]

def step : InputEvent → InputWindow × List (Nat × QByteArray)
  | .makePane => (w.makePane, [])
  | .closePane id => ({ w with panes := w.panes.filter fun p => p.id ≠ id }, [])
  | .detachPane id => (w.update id fun p => { p with tabbed := false }, [])
  | .toggleMultiExec on => (w.toggleMultiExec on, [])
  | .setMultiExecEnabled id on => (w.update id fun p => { p with multiExec := on }, [])
  | .toggleMacroRecording current => (w.toggleMacroRecording current, [])
  | .playMacro current => (w, w.playMacro current)
  | .sendInput id bytes => w.sendInput id bytes
  | .outputReady id bytes => (w, w.outputReady id bytes)

def after (events : List InputEvent) : InputWindow := Mealy.after step w events

-- No two panes share an id, and new ones are new.
structure Sane (w : InputWindow) : Prop where
  distinct : (w.panes.map Pane.id).Nodup
  fresh : ∀ p ∈ w.panes, p.id < w.next

variable {w}

theorem map_id_update (id : Nat) (g : Pane → Pane) (hg : ∀ p, (g p).id = p.id) :
    (w.update id g).panes.map Pane.id = w.panes.map Pane.id := by
  rw [update, List.map_map]
  refine List.map_congr_left fun p _ => ?_
  simp only [Function.comp]
  split
  · exact hg p
  · rfl

theorem sane_of_map_id {v : InputWindow} (h : w.Sane)
    (hids : v.panes.map Pane.id = w.panes.map Pane.id) (hnext : v.next = w.next) : v.Sane := by
  refine ⟨hids ▸ h.distinct, fun p hp => ?_⟩
  have hmem : p.id ∈ w.panes.map Pane.id := hids ▸ List.mem_map_of_mem hp
  obtain ⟨q, hq, heq⟩ := List.mem_map.mp hmem
  rw [hnext, ← heq]
  exact h.fresh q hq

theorem sane_step (h : w.Sane) (e : InputEvent) : (w.step e).1.Sane := by
  cases e with
  | makePane =>
    refine ⟨?_, fun p hp => ?_⟩
    · change ((w.panes ++ [_]).map Pane.id).Nodup
      rw [List.map_append, List.nodup_append]
      refine ⟨h.distinct, List.nodup_singleton _, fun a ha b hb => ?_⟩
      obtain ⟨p, hp, rfl⟩ := List.mem_map.mp ha
      have hlt := h.fresh p hp
      rw [List.mem_singleton.mp hb]
      exact Nat.ne_of_lt hlt
    · change p.id < w.next + 1
      rcases List.mem_append.mp hp with hp | hp
      · exact Nat.lt_succ_of_lt (h.fresh p hp)
      · rw [List.mem_singleton.mp hp]
        exact Nat.lt_succ_self w.next
  | closePane id =>
    refine ⟨h.distinct.sublist (List.filter_sublist.map _), fun p hp => ?_⟩
    exact h.fresh p (List.mem_filter.mp hp).1
  | detachPane id => exact sane_of_map_id h (map_id_update id _ fun _ => rfl) rfl
  | toggleMultiExec on =>
    refine sane_of_map_id h ?_ rfl
    change (w.panes.map _).map Pane.id = _
    rw [List.map_map]
    refine List.map_congr_left fun p _ => ?_
    simp only [Function.comp]
    split
    · rfl
    · rfl
  | setMultiExecEnabled id on => exact sane_of_map_id h (map_id_update id _ fun _ => rfl) rfl
  | toggleMacroRecording current =>
    change (w.toggleMacroRecording current).Sane
    rw [toggleMacroRecording]
    split
    · exact h
    · split
      · exact sane_of_map_id h (map_id_update current _ fun _ => rfl) rfl
      · exact sane_of_map_id h (map_id_update current _ fun _ => rfl) rfl
  | playMacro current => exact h
  | sendInput id bytes =>
    change (w.sendInput id bytes).1.Sane
    rw [sendInput]
    split
    · exact h
    · split
      · exact h
      · exact h
      · exact ⟨h.distinct, h.fresh⟩
  | outputReady id bytes => exact h

theorem sane_after (h : w.Sane) (events : List InputEvent) : (w.after events).Sane := by
  induction events generalizing w with
  | nil => exact h
  | cons e events ih => exact ih (sane_step h e)

theorem sane_empty : ({} : InputWindow).Sane :=
  ⟨List.nodup_nil, fun _ hp => absurd hp List.not_mem_nil⟩

theorem pane_of_mem (h : w.Sane) {p : Pane} (hp : p ∈ w.panes) : w.pane p.id = some p := by
  cases hfind : w.pane p.id with
  | none =>
    have hnone := List.find?_eq_none.mp hfind p hp
    simp at hnone
  | some q =>
    have hq := List.mem_of_find?_eq_some hfind
    have hid : q.id = p.id := by simpa using List.find?_some hfind
    exact congrArg some (List.inj_on_of_nodup_map h.distinct hq hp hid)

theorem mem_tabs {p : Pane} : p ∈ w.tabs ↔ p ∈ w.panes ∧ p.tabbed = true := List.mem_filter

theorem mem_update {id : Nat} {g : Pane → Pane} {q : Pane} (hq : q ∈ (w.update id g).panes) :
    ∃ p ∈ w.panes, q = p ∨ p.id = id ∧ q = g p := by
  obtain ⟨p, hp, heq⟩ := List.mem_map.mp hq
  refine ⟨p, hp, ?_⟩
  by_cases hid : p.id = id
  · rw [if_pos hid] at heq
    exact .inr ⟨hid, heq.symm⟩
  · rw [if_neg hid] at heq
    exact .inl heq.symm

end InputWindow

-- Neither MultiExec nor the recording of a macro is switched on or off.
def InputEvent.Quiet : InputEvent → Prop
  | .toggleMultiExec _ | .toggleMacroRecording _ => False
  | _ => True

namespace InputWindow

variable {w : InputWindow} {on : Bool}

structure Routed (w : InputWindow) (on : Bool) : Prop where
  multiExec : w.multiExec = on
  handler : ∀ p ∈ w.tabs, p.handler = if on then .broadcastInput else .none

theorem routed_toggle (w : InputWindow) (on : Bool) : (w.toggleMultiExec on).Routed on := by
  refine ⟨rfl, fun q hq => ?_⟩
  obtain ⟨hmem, htabbed⟩ := mem_tabs.mp hq
  obtain ⟨p, hp, heq⟩ := List.mem_map.mp hmem
  by_cases hpt : p.tabbed = true
  · rw [if_pos hpt] at heq
    exact heq ▸ rfl
  · rw [if_neg hpt] at heq
    exact absurd (heq ▸ htabbed) hpt

theorem routed_update (h : w.Routed on) (id : Nat) {g : Pane → Pane}
    (htabbed : ∀ p, (g p).tabbed = true → p.tabbed = true)
    (hhandler : ∀ p, (g p).handler = p.handler) : (w.update id g).Routed on := by
  refine ⟨h.multiExec, fun q hq => ?_⟩
  obtain ⟨hmem, hqt⟩ := mem_tabs.mp hq
  obtain ⟨p, hp, rfl | ⟨-, rfl⟩⟩ := mem_update hmem
  · exact h.handler q (mem_tabs.mpr ⟨hp, hqt⟩)
  · rw [hhandler]
    exact h.handler p (mem_tabs.mpr ⟨hp, htabbed p hqt⟩)

theorem sendInput_panes (w : InputWindow) (id : Nat) (bytes : QByteArray) :
    (w.sendInput id bytes).1.panes = w.panes ∧
      (w.sendInput id bytes).1.multiExec = w.multiExec := by
  rw [sendInput]
  split
  · exact ⟨rfl, rfl⟩
  · split
    · exact ⟨rfl, rfl⟩
    · exact ⟨rfl, rfl⟩
    · exact ⟨rfl, rfl⟩

theorem routed_step (h : w.Routed on) {e : InputEvent} (he : e.Quiet) :
    (w.step e).1.Routed on := by
  cases e with
  | makePane =>
    refine ⟨h.multiExec, fun q hq => ?_⟩
    obtain ⟨hmem, hqt⟩ := mem_tabs.mp hq
    rcases List.mem_append.mp hmem with hmem | hmem
    · exact h.handler q (mem_tabs.mpr ⟨hmem, hqt⟩)
    · rw [List.mem_singleton.mp hmem, ← h.multiExec]
      rfl
  | closePane id =>
    refine ⟨h.multiExec, fun q hq => ?_⟩
    obtain ⟨hmem, hqt⟩ := mem_tabs.mp hq
    exact h.handler q (mem_tabs.mpr ⟨(List.mem_filter.mp hmem).1, hqt⟩)
  | detachPane id => exact routed_update h id (fun _ hfalse => nomatch hfalse) fun _ => rfl
  | toggleMultiExec on => exact he.elim
  | setMultiExecEnabled id on => exact routed_update h id (fun _ hon => hon) fun _ => rfl
  | toggleMacroRecording current => exact he.elim
  | playMacro current => exact h
  | sendInput id bytes =>
    obtain ⟨hpanes, hmulti⟩ := sendInput_panes w id bytes
    refine ⟨hmulti.trans h.multiExec, fun q hq => h.handler q ?_⟩
    change q ∈ (w.sendInput id bytes).1.tabs at hq
    rwa [tabs, hpanes] at hq
  | outputReady id bytes => exact h

theorem routed_after (h : w.Routed on) {events : List InputEvent}
    (hevents : ∀ e ∈ events, e.Quiet) : (w.after events).Routed on := by
  induction events generalizing w with
  | nil => exact h
  | cons e events ih =>
    obtain ⟨he, hrest⟩ := List.forall_mem_cons.mp hevents
    exact ih (routed_step h he) hrest

theorem nodup_broadcastInput (h : w.Sane) (bytes : QByteArray) :
    (w.broadcastInput bytes).Nodup := by
  refine List.Nodup.of_map Prod.fst ?_
  rw [broadcastInput, List.map_map]
  exact h.distinct.sublist ((List.filter_sublist.trans List.filter_sublist).map _)

theorem mem_broadcastInput {bytes : QByteArray} {d : Nat × QByteArray} :
    d ∈ w.broadcastInput bytes ↔
      ∃ p ∈ w.tabs, p.multiExec = true ∧ d = (p.id, bytes) := by
  rw [broadcastInput, List.mem_map]
  constructor
  · rintro ⟨p, hp, rfl⟩
    obtain ⟨hp, hmulti⟩ := List.mem_filter.mp hp
    exact ⟨p, hp, hmulti, rfl⟩
  · rintro ⟨p, hp, hmulti, rfl⟩
    exact ⟨p, List.mem_filter.mpr ⟨hp, hmulti⟩, rfl⟩

end InputWindow

-- However the panes came to be, after MultiExec was switched on the input of a tab goes once to
-- each tab that takes part and to nothing else, and after it was switched off to that tab alone.
theorem input_routed (before events : List InputEvent) (on : Bool)
    (hevents : ∀ e ∈ events, e.Quiet) :
    let w := ({} : InputWindow).after (before ++ .toggleMultiExec on :: events)
    ∀ p ∈ w.tabs, ∀ bytes,
      (w.sendInput p.id bytes).1 = w ∧ (w.sendInput p.id bytes).2.Nodup ∧
        ∀ d, d ∈ (w.sendInput p.id bytes).2 ↔ d.2 = bytes ∧
          if on then ∃ q ∈ w.tabs, q.multiExec = true ∧ d.1 = q.id else d.1 = p.id := by
  intro w p hp bytes
  have hsane : w.Sane := InputWindow.sane_after InputWindow.sane_empty _
  have hrouted : w.Routed on := by
    have hw : w = ((({} : InputWindow).after before).toggleMultiExec on).after events :=
      Mealy.after_append
    rw [hw]
    exact InputWindow.routed_after (InputWindow.routed_toggle _ on) hevents
  have hpane := InputWindow.pane_of_mem hsane (InputWindow.mem_tabs.mp hp).1
  have hhandler := hrouted.handler p hp
  cases on with
  | true =>
    have hsend : w.sendInput p.id bytes = (w, w.broadcastInput bytes) := by
      rw [InputWindow.sendInput, hpane]
      dsimp only
      rw [hhandler]
      rfl
    rw [hsend]
    refine ⟨rfl, InputWindow.nodup_broadcastInput hsane bytes, fun d => ?_⟩
    rw [InputWindow.mem_broadcastInput, if_pos rfl]
    constructor
    · rintro ⟨q, hq, hmulti, rfl⟩
      exact ⟨rfl, q, hq, hmulti, rfl⟩
    · rintro ⟨hbytes, q, hq, hmulti, hid⟩
      exact ⟨q, hq, hmulti, Prod.ext hid hbytes⟩
  | false =>
    have hsend : w.sendInput p.id bytes = (w, [(p.id, bytes)]) := by
      rw [InputWindow.sendInput, hpane]
      dsimp only
      rw [hhandler]
      rfl
    rw [hsend]
    refine ⟨rfl, List.nodup_singleton _, fun d => ?_⟩
    rw [List.mem_singleton, if_neg Bool.false_ne_true, Prod.ext_iff, and_comm]

theorem input_routed_pair :
    let w := ({} : InputWindow).after
      ([.makePane] ++ .toggleMultiExec true :: [.makePane, .detachPane 0, .makePane])
    ∀ p ∈ w.tabs, ∀ bytes,
      (w.sendInput p.id bytes).1 = w ∧ (w.sendInput p.id bytes).2.Nodup ∧
        ∀ d, d ∈ (w.sendInput p.id bytes).2 ↔ d.2 = bytes ∧
          if true then ∃ q ∈ w.tabs, q.multiExec = true ∧ d.1 = q.id else d.1 = p.id :=
  input_routed [.makePane] [.makePane, .detachPane 0, .makePane] true (by
    intro e he
    simp only [List.mem_cons, List.not_mem_nil, or_false] at he
    rcases he with rfl | rfl | rfl
    · trivial
    · trivial
    · trivial)

namespace InputWindow

variable {w : InputWindow} {id : Nat}

-- No macro is being recorded, and no pane is left behind with the recording handler.
structure Idle (w : InputWindow) : Prop where
  recordingMacro : w.recordingMacro = false
  handler : ∀ p ∈ w.panes, p.handler ≠ .record

-- The macro is recorded in this tab and in no other pane.
structure Records (w : InputWindow) (id : Nat) (chunks : List QByteArray) : Prop where
  recordingMacro : w.recordingMacro = true
  recording : w.recorded.recording = true
  events : w.recorded.events = chunks.map some
  pane : ∃ p ∈ w.tabs, p.id = id ∧ p.handler = .record
  handler : ∀ p ∈ w.panes, p.handler = .record → p.id = id

-- What is typed in the pane.
def typed (id : Nat) (events : List InputEvent) : List QByteArray :=
  events.filterMap fun
    | .sendInput i bytes => if i = id then some bytes else none
    | _ => none

theorem records_update {chunks : List QByteArray} (h : w.Records id chunks) (i : Nat)
    {g : Pane → Pane} (hid : ∀ p, (g p).id = p.id)
    (htabbed : i ≠ id ∨ ∀ p, (g p).tabbed = p.tabbed)
    (hhandler : ∀ p, (g p).handler = p.handler) : (w.update i g).Records id chunks := by
  refine ⟨h.recordingMacro, h.recording, h.events, ?_, fun q hq hrecord => ?_⟩
  · obtain ⟨p, hp, hpid, hrecord⟩ := h.pane
    obtain ⟨hp, hpt⟩ := mem_tabs.mp hp
    by_cases hi : p.id = i
    · refine ⟨g p, mem_tabs.mpr ⟨List.mem_map.mpr ⟨p, hp, if_pos hi⟩, ?_⟩, (hid p).trans hpid,
        (hhandler p).trans hrecord⟩
      rcases htabbed with hne | hkeep
      · exact absurd (hi.symm.trans hpid) hne
      · exact (hkeep p).trans hpt
    · exact ⟨p, mem_tabs.mpr ⟨List.mem_map.mpr ⟨p, hp, if_neg hi⟩, hpt⟩, hpid, hrecord⟩
  · obtain ⟨p, hp, rfl | ⟨-, rfl⟩⟩ := mem_update hq
    · exact h.handler q hp hrecord
    · rw [hhandler] at hrecord
      rw [hid]
      exact h.handler p hp hrecord

theorem pane_records {chunks : List QByteArray} (hsane : w.Sane) (h : w.Records id chunks) :
    ∃ p, w.pane id = some p ∧ p.tabbed = true ∧ p.handler = .record := by
  obtain ⟨p, hp, rfl, hrecord⟩ := h.pane
  obtain ⟨hp, hpt⟩ := mem_tabs.mp hp
  exact ⟨p, pane_of_mem hsane hp, hpt, hrecord⟩

theorem sendInput_records {chunks : List QByteArray} (hsane : w.Sane) (h : w.Records id chunks)
    (bytes : QByteArray) : w.sendInput id bytes =
      ({ w with recorded := w.recorded.record (some bytes) }, [(id, bytes)]) := by
  obtain ⟨p, hp, -, hrecord⟩ := pane_records hsane h
  rw [sendInput, hp]
  dsimp only
  rw [hrecord]

theorem sendInput_other {chunks : List QByteArray} (h : w.Records id chunks) {i : Nat}
    (hi : i ≠ id) (bytes : QByteArray) : (w.sendInput i bytes).1 = w := by
  rw [sendInput]
  split
  · rfl
  · next p hp =>
    split
    · rfl
    · rfl
    · next hrecord =>
      have hpid : p.id = i := by simpa using List.find?_some hp
      exact absurd (hpid.symm.trans (h.handler p (List.mem_of_find?_eq_some hp) hrecord)) hi

-- The pane stays where it is, and nobody starts or stops anything.
def Undisturbed (id : Nat) (e : InputEvent) : Prop :=
  e.Quiet ∧ e ≠ .closePane id ∧ e ≠ .detachPane id

theorem records_step {chunks : List QByteArray} (hsane : w.Sane) (h : w.Records id chunks)
    {e : InputEvent} (he : Undisturbed id e) :
    (w.step e).1.Records id (chunks ++ typed id [e]) := by
  obtain ⟨hquiet, hclose, hdetach⟩ := he
  cases e with
  | makePane =>
    obtain ⟨p, hp, hpid, hrecord⟩ := h.pane
    obtain ⟨hp, hpt⟩ := mem_tabs.mp hp
    rw [show chunks ++ typed id [.makePane] = chunks from List.append_nil chunks]
    refine ⟨h.recordingMacro, h.recording, h.events, ?_, fun q hq hq' => ?_⟩
    · exact ⟨p, mem_tabs.mpr ⟨List.mem_append_left _ hp, hpt⟩, hpid, hrecord⟩
    · rcases List.mem_append.mp hq with hq | hq
      · exact h.handler q hq hq'
      · rw [List.mem_singleton.mp hq] at hq'
        change w.routing = .record at hq'
        rw [routing] at hq'
        split at hq'
        · cases hq'
        · cases hq'
  | closePane i =>
    obtain ⟨p, hp, hpid, hrecord⟩ := h.pane
    obtain ⟨hp, hpt⟩ := mem_tabs.mp hp
    have hne : p.id ≠ i := fun heq => hclose (by rw [← hpid, heq])
    rw [show chunks ++ typed id [.closePane i] = chunks from List.append_nil chunks]
    refine ⟨h.recordingMacro, h.recording, h.events, ?_,
      fun q hq => h.handler q (List.mem_filter.mp hq).1⟩
    exact ⟨p, mem_tabs.mpr ⟨List.mem_filter.mpr ⟨hp, decide_eq_true hne⟩, hpt⟩, hpid, hrecord⟩
  | detachPane i =>
    have hne : i ≠ id := fun heq => hdetach (by rw [heq])
    rw [show chunks ++ typed id [.detachPane i] = chunks from List.append_nil chunks]
    exact records_update h i (g := fun p => { p with tabbed := false }) (fun _ => rfl) (.inl hne)
      fun _ => rfl
  | toggleMultiExec on => exact hquiet.elim
  | setMultiExecEnabled i on =>
    rw [show chunks ++ typed id [.setMultiExecEnabled i on] = chunks from List.append_nil chunks]
    exact records_update h i (g := fun p => { p with multiExec := on }) (fun _ => rfl)
      (.inr fun _ => rfl) fun _ => rfl
  | toggleMacroRecording current => exact hquiet.elim
  | playMacro current =>
    rw [show chunks ++ typed id [.playMacro current] = chunks from List.append_nil chunks]
    exact h
  | sendInput i bytes =>
    change (w.sendInput i bytes).1.Records id _
    by_cases hi : i = id
    · subst hi
      have hevents : (w.recorded.record (some bytes)).events = (chunks ++ [bytes]).map some := by
        rw [Macro.record, if_pos h.recording, List.map_append, ← h.events]
        rfl
      have hrecording : (w.recorded.record (some bytes)).recording = true := by
        rw [Macro.record, if_pos h.recording]
        exact h.recording
      rw [sendInput_records hsane h]
      simpa [typed] using
        (⟨h.recordingMacro, hrecording, hevents, h.pane, h.handler⟩ :
          ({ w with recorded := w.recorded.record (some bytes) } : InputWindow).Records i _)
    · rw [sendInput_other h hi]
      simpa [typed, hi] using h
  | outputReady i bytes =>
    rw [show chunks ++ typed id [.outputReady i bytes] = chunks from List.append_nil chunks]
    exact h

theorem records_after {chunks : List QByteArray} (hsane : w.Sane) (h : w.Records id chunks)
    {events : List InputEvent} (hevents : ∀ e ∈ events, Undisturbed id e) :
    (w.after events).Records id (chunks ++ typed id events) := by
  induction events generalizing w chunks with
  | nil => exact (List.append_nil chunks).symm ▸ h
  | cons e events ih =>
    obtain ⟨he, hrest⟩ := List.forall_mem_cons.mp hevents
    have hnext := ih (sane_step hsane e) (records_step hsane h he) hrest
    rwa [List.append_assoc, typed, typed, ← List.filterMap_append] at hnext

theorem currentPane_eq {p : Pane} (hpane : w.pane id = some p) (htabbed : p.tabbed = true) :
    w.currentPane id = some p := by
  rw [currentPane, hpane, Option.filter_some, if_pos htabbed]

theorem records_begin (hsane : w.Sane) (hidle : w.Idle) {p : Pane} (hp : p ∈ w.tabs) :
    (w.toggleMacroRecording p.id).Records p.id [] := by
  obtain ⟨hmem, htabbed⟩ := mem_tabs.mp hp
  rw [toggleMacroRecording, currentPane_eq (pane_of_mem hsane hmem) htabbed, hidle.recordingMacro]
  refine ⟨rfl, rfl, rfl, ⟨{ p with handler := .record }, ?_, rfl, rfl⟩, fun q hq hrecord => ?_⟩
  · exact mem_tabs.mpr ⟨List.mem_map.mpr ⟨p, hmem, if_pos rfl⟩, htabbed⟩
  · obtain ⟨r, hr, rfl | ⟨hid, rfl⟩⟩ := mem_update hq
    · exact absurd hrecord (hidle.handler q hr)
    · exact hid

theorem idle_end {chunks : List QByteArray} (hsane : w.Sane) (h : w.Records id chunks) :
    (w.toggleMacroRecording id).Idle ∧
      (w.toggleMacroRecording id).recorded.replay = chunks := by
  obtain ⟨p, hp, hpt, hrecord⟩ := pane_records hsane h
  rw [toggleMacroRecording, currentPane_eq hp hpt, h.recordingMacro]
  refine ⟨⟨rfl, fun q hq hrecord => ?_⟩, ?_⟩
  · obtain ⟨r, hr, hq⟩ := List.mem_map.mp hq
    by_cases hid : r.id = id
    · rw [if_pos hid] at hq
      rw [← hq] at hrecord
      change w.routing = .record at hrecord
      rw [routing] at hrecord
      split at hrecord
      · cases hrecord
      · cases hrecord
    · rw [if_neg hid] at hq
      exact hid (h.handler r hr (hq ▸ hrecord))
  · change w.recorded.events.map (fun e => e.getD []) = chunks
    rw [h.events, List.map_map]
    exact List.map_id chunks

theorem playMacro_eq (h : w.Sane) {q : Pane} (hq : q ∈ w.tabs) :
    w.playMacro q.id = w.recorded.replay.map (q.id, ·) := by
  obtain ⟨hmem, htabbed⟩ := mem_tabs.mp hq
  rw [playMacro, currentPane_eq (pane_of_mem h hmem) htabbed]

end InputWindow

def twoPanes : InputWindow := ({} : InputWindow).after [.makePane, .makePane]

namespace InputWindow

open InputBroadcaster

-- A target for each tab, with the pane as its sink.
structure Mirrors (w : InputWindow) (b : InputBroadcaster Nat) (target : Nat → Nat) : Prop where
  targets : b.targets = w.tabs.map fun p => (target p.id, ⟨some p.id, p.multiExec⟩)
  distinct : (b.targets.map Prod.fst).Nodup
  fresh : ∀ t ∈ b.targets, t.1 < b.next

-- What the input of this event is broadcast to, if it is.
def broadcasts (w : InputWindow) : InputEvent → List (Nat × QByteArray)
  | .sendInput id bytes =>
      if (w.pane id).map Pane.handler = some .broadcastInput then (w.sendInput id bytes).2 else []
  | _ => []

def broadcastsAlong (w : InputWindow) : List InputEvent → List (Nat × QByteArray)
  | [] => []
  | e :: events => w.broadcasts e ++ broadcastsAlong (w.step e).1 events

variable {w : InputWindow} {b : InputBroadcaster Nat} {target : Nat → Nat}

theorem Mirrors.inj (h : w.Mirrors b target) {p q : Pane} (hp : p ∈ w.tabs) (hq : q ∈ w.tabs)
    (heq : target p.id = target q.id) : p.id = q.id := by
  have hmap : b.targets.map Prod.fst = w.tabs.map fun p => target p.id := by
    rw [h.targets, List.map_map]
    rfl
  exact congrArg Pane.id (List.inj_on_of_nodup_map (hmap ▸ h.distinct) hp hq heq)

theorem Mirrors.broadcast (h : w.Mirrors b target) (bytes : QByteArray) :
    b.broadcast bytes = w.broadcastInput bytes := by
  rw [InputBroadcaster.broadcast, h.targets, InputWindow.broadcastInput, List.filterMap_map]
  induction w.tabs with
  | nil => rfl
  | cons p tabs ih =>
    rw [List.filterMap_cons, ih, List.filter_cons]
    cases hmulti : p.multiExec with
    | true => simp [hmulti]
    | false => simp [hmulti]

theorem Mirrors.of_tabs {v : InputWindow} (h : w.Mirrors b target) (htabs : v.tabs = w.tabs) :
    v.Mirrors b target := ⟨htabs ▸ h.targets, h.distinct, h.fresh⟩

theorem tabs_update {id : Nat} {g : Pane → Pane} (htabbed : ∀ p, (g p).tabbed = p.tabbed) :
    (w.update id g).tabs = w.tabs.map fun p => if p.id = id then g p else p := by
  rw [tabs, update, List.filter_map, tabs]
  congr 1
  refine List.filter_congr fun p _ => ?_
  rw [Function.comp]
  split
  · exact htabbed p
  · rfl

theorem Mirrors.of_map {v : InputWindow} (h : w.Mirrors b target) {g : Pane → Pane}
    (htabs : v.tabs = w.tabs.map g)
    (hsame : ∀ p, (g p).id = p.id ∧ (g p).multiExec = p.multiExec) : v.Mirrors b target := by
  refine ⟨?_, h.distinct, h.fresh⟩
  rw [h.targets, htabs, List.map_map]
  refine List.map_congr_left fun p _ => ?_
  simp only [Function.comp, (hsame p).1, (hsame p).2]

theorem mirrors_add (hsane : w.Sane) (h : w.Mirrors b target) :
    w.makePane.Mirrors (b.addTarget (some w.next)).2 (Function.update target w.next b.next) := by
  have htabs : w.makePane.tabs =
      w.tabs ++ [{ id := w.next, handler := w.routing }] := List.filter_append ..
  refine ⟨?_, ?_, fun t ht => ?_⟩
  · rw [htabs, List.map_append, List.map_singleton, Function.update_self]
    change b.targets ++ _ = _
    rw [h.targets]
    congr 1
    refine List.map_congr_left fun p hp => ?_
    rw [Function.update_of_ne (Nat.ne_of_lt (hsane.fresh p (mem_tabs.mp hp).1))]
  · change ((b.targets ++ [_]).map Prod.fst).Nodup
    rw [List.map_append, List.nodup_append]
    refine ⟨h.distinct, List.nodup_singleton _, fun i hi j hj => ?_⟩
    obtain ⟨t, ht, rfl⟩ := List.mem_map.mp hi
    have hlt := h.fresh t ht
    rw [List.mem_singleton.mp hj]
    exact Nat.ne_of_lt hlt
  · change t.1 < b.next + 1
    rcases List.mem_append.mp ht with ht | ht
    · exact Nat.lt_succ_of_lt (h.fresh t ht)
    · rw [List.mem_singleton.mp ht]
      exact Nat.lt_succ_self b.next

theorem mirrors_remove (h : w.Mirrors b target) {v : InputWindow} {q : Pane} (hq : q ∈ w.tabs)
    (htabs : v.tabs = w.tabs.filter fun p => p.id ≠ q.id) :
    v.Mirrors (b.removeTarget (target q.id)) target := by
  refine ⟨?_, h.distinct.sublist (List.filter_sublist.map _),
    fun t ht => h.fresh t (List.mem_filter.mp ht).1⟩
  rw [InputBroadcaster.removeTarget, h.targets, List.filter_map, htabs]
  refine congrArg (List.map _) (List.filter_congr fun p hp => ?_)
  have hiff : target p.id = target q.id ↔ p.id = q.id :=
    ⟨fun heq => h.inj hp hq heq, fun heq => congrArg target heq⟩
  simp only [Function.comp, ne_eq, hiff]

theorem mirrors_setEnabled (h : w.Mirrors b target) {q : Pane} (hq : q ∈ w.tabs) (on : Bool) :
    (w.update q.id fun p => { p with multiExec := on }).Mirrors
      (b.setEnabled (target q.id) on) target := by
  have hkeys : (b.setEnabled (target q.id) on).targets.map Prod.fst = b.targets.map Prod.fst := by
    rw [InputBroadcaster.setEnabled, List.map_map]
    refine List.map_congr_left fun t _ => ?_
    simp only [Function.comp]
    split
    · rfl
    · rfl
  refine ⟨?_, hkeys ▸ h.distinct, fun t ht => ?_⟩
  · rw [InputBroadcaster.setEnabled, h.targets,
      tabs_update (g := fun p => { p with multiExec := on }) fun _ => rfl, List.map_map]
    dsimp only
    rw [List.map_map]
    refine List.map_congr_left fun p hp => ?_
    have hiff : target p.id = target q.id ↔ p.id = q.id :=
      ⟨fun heq => h.inj hp hq heq, fun heq => congrArg target heq⟩
    simp only [Function.comp, hiff]
    split
    · rfl
    · rfl
  · have hmem : t.1 ∈ b.targets.map Prod.fst := hkeys ▸ List.mem_map_of_mem ht
    obtain ⟨s, hs, heq⟩ := List.mem_map.mp hmem
    exact heq ▸ h.fresh s hs

theorem tabs_absent {id : Nat} (h : ∀ p ∈ w.tabs, p.id ≠ id) :
    (w.tabs.filter fun p => p.id ≠ id) = w.tabs :=
  List.filter_eq_self.mpr fun p hp => decide_eq_true (h p hp)

theorem tabs_close (w : InputWindow) (id : Nat) :
    (w.step (.closePane id)).1.tabs = w.tabs.filter fun p => p.id ≠ id := by
  change (w.panes.filter _).filter Pane.tabbed = _
  rw [tabs, List.filter_filter, List.filter_filter]
  exact List.filter_congr fun p _ => Bool.and_comm ..

theorem tabs_detach (w : InputWindow) (id : Nat) :
    (w.step (.detachPane id)).1.tabs = w.tabs.filter fun p => p.id ≠ id := by
  change (w.panes.map _).filter Pane.tabbed = _
  rw [tabs]
  induction w.panes with
  | nil => rfl
  | cons p panes ih =>
    rw [List.map_cons, List.filter_cons, List.filter_cons, ih]
    by_cases hid : p.id = id
    · cases ht : p.tabbed with
      | true => simp [hid]
      | false => simp [hid]
    · cases ht : p.tabbed with
      | true => simp [hid, ht]
      | false => simp [hid, ht]

-- Each event is a few calls of the broadcaster, which delivers what the window broadcasts.
theorem mirrors_step (hsane : w.Sane) (h : w.Mirrors b target) (e : InputEvent) :
    ∃ ops target', (w.step e).1.Mirrors (Mealy.after InputBroadcaster.step b ops) target' ∧
      Mealy.outputs InputBroadcaster.step b ops = w.broadcasts e := by
  have hremove (id : Nat) (v : InputWindow) (htabs : v.tabs = w.tabs.filter fun p => p.id ≠ id) :
      ∃ ops target', v.Mirrors (Mealy.after InputBroadcaster.step b ops) target' ∧
        Mealy.outputs InputBroadcaster.step b ops = [] := by
    by_cases hid : ∃ q ∈ w.tabs, q.id = id
    · obtain ⟨q, hq, rfl⟩ := hid
      exact ⟨[.removeTarget (target q.id)], target, mirrors_remove h hq htabs, rfl⟩
    · have hsame := tabs_absent fun p hp heq => hid ⟨p, hp, heq⟩
      exact ⟨[], target, h.of_tabs (htabs.trans hsame), rfl⟩
  have hkeep (v : InputWindow) (g : Pane → Pane) (htabs : v.tabs = w.tabs.map g)
      (hsame : ∀ p, (g p).id = p.id ∧ (g p).multiExec = p.multiExec) :
      ∃ ops target', v.Mirrors (Mealy.after InputBroadcaster.step b ops) target' ∧
        Mealy.outputs InputBroadcaster.step b ops = [] :=
    ⟨[], target, h.of_map htabs hsame, rfl⟩
  cases e with
  | makePane => exact ⟨[.addTarget (some w.next)], _, mirrors_add hsane h, rfl⟩
  | closePane id => exact hremove id _ (tabs_close w id)
  | detachPane id => exact hremove id _ (tabs_detach w id)
  | toggleMultiExec on =>
    refine hkeep _ (fun p => if p.tabbed then
      { p with handler := if on then .broadcastInput else .none } else p) ?_ fun p => ?_
    · change (w.panes.map _).filter Pane.tabbed = _
      rw [List.filter_map, tabs]
      congr 1
      refine List.filter_congr fun p _ => ?_
      rw [Function.comp]
      split
      · rfl
      · rfl
    · split
      · exact ⟨rfl, rfl⟩
      · exact ⟨rfl, rfl⟩
  | setMultiExecEnabled id on =>
    by_cases hid : ∃ q ∈ w.tabs, q.id = id
    · obtain ⟨q, hq, rfl⟩ := hid
      exact ⟨[.setEnabled (target q.id) on], target, mirrors_setEnabled h hq on, rfl⟩
    · refine ⟨[], target, h.of_tabs ?_, rfl⟩
      change (w.update id _).tabs = w.tabs
      rw [tabs_update (g := fun p => { p with multiExec := on }) fun _ => rfl]
      refine (List.map_congr_left fun p hp => ?_).trans (List.map_id _)
      exact if_neg fun heq => hid ⟨p, hp, heq⟩
  | toggleMacroRecording current =>
    have hhandler (v : InputWindow) (handler : Handler) (hpanes : v.panes = w.panes) :
        ∃ ops target', (v.update current fun p => { p with handler }).Mirrors
            (Mealy.after InputBroadcaster.step b ops) target' ∧
          Mealy.outputs InputBroadcaster.step b ops = [] := by
      refine hkeep _ (fun p => if p.id = current then { p with handler } else p) ?_ fun p => ?_
      · rw [tabs_update (g := fun p => { p with handler }) fun _ => rfl, tabs, hpanes]
        rfl
      · split
        · exact ⟨rfl, rfl⟩
        · exact ⟨rfl, rfl⟩
    change ∃ ops target', (w.toggleMacroRecording current).Mirrors _ target' ∧ _ = []
    rw [toggleMacroRecording]
    split
    · exact ⟨[], target, h, rfl⟩
    · split
      · exact hhandler _ _ rfl
      · exact hhandler _ _ rfl
  | playMacro current => exact ⟨[], target, h, rfl⟩
  | sendInput id bytes =>
    have hpanes := (sendInput_panes w id bytes).1
    have htabs : (w.sendInput id bytes).1.tabs = w.tabs := by rw [tabs, hpanes, tabs]
    rw [broadcasts]
    split
    · next hbroadcast =>
      refine ⟨[.broadcast bytes], target, h.of_tabs htabs, ?_⟩
      obtain ⟨p, hp, hhandler⟩ := Option.map_eq_some_iff.mp hbroadcast
      have hsend : (w.sendInput id bytes).2 = w.broadcastInput bytes := by
        rw [sendInput, hp]
        dsimp only
        rw [hhandler]
      rw [hsend, ← h.broadcast]
      exact List.append_nil _
    · exact ⟨[], target, h.of_tabs htabs, rfl⟩
  | outputReady id bytes => exact ⟨[], target, h, rfl⟩

theorem mirrors_empty : ({} : InputWindow).Mirrors {} fun i => i :=
  ⟨rfl, List.nodup_nil, fun _ ht => absurd ht List.not_mem_nil⟩

theorem mirrors_after (hsane : w.Sane) (h : w.Mirrors b target) (events : List InputEvent) :
    ∃ ops target', (w.after events).Mirrors (Mealy.after InputBroadcaster.step b ops) target' ∧
      Mealy.outputs InputBroadcaster.step b ops = broadcastsAlong w events := by
  induction events generalizing w b target with
  | nil => exact ⟨[], target, h, rfl⟩
  | cons e events ih =>
    obtain ⟨ops, target₁, hstep, hout⟩ := mirrors_step hsane h e
    obtain ⟨more, target₂, hrest, hmore⟩ := ih (sane_step hsane e) hstep
    refine ⟨ops ++ more, target₂, ?_, ?_⟩
    · rw [Mealy.after_append]
      exact hrest
    · rw [Mealy.outputs_append, hout, hmore]
      rfl

end InputWindow

end Ui
