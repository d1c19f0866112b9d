import MacXterm.Lib.Stretches
import MacXterm.Ui.TerminalWidget

namespace Ui

open Qt

theorem toUtf8_joined_cons (part next : QString) (parts : List QString) :
    toUtf8 (['\n'].intercalate (part :: next :: parts)) =
      toUtf8 part ++ [0x0A] ++ toUtf8 (['\n'].intercalate (next :: parts)) := by
  rw [List.intercalate_cons_cons, toUtf8_append, toUtf8_append]
  rfl

theorem delayedChunks_spec (ms delay : Int) (parts : List QString) (hparts : parts ≠ [])
    (hms : 0 < ms) (hdelay : 0 ≤ delay) (hfits : delay + parts.length * ms < 2 ^ 31) :
    (delayedChunks ms delay parts).2 = delay + parts.length * ms ∧
      (∀ t ∈ (delayedChunks ms delay parts).1,
        delay ≤ t.1 ∧ t.1 ≤ (delayedChunks ms delay parts).2) ∧
      (delayedChunks ms delay parts).1.Pairwise (fun t u => t.1 ≤ u.1) ∧
      ((delayedChunks ms delay parts).1.map (·.2)).flatten =
        toUtf8 (['\n'].intercalate parts) := by
  induction parts generalizing delay with
  | nil => exact absurd rfl hparts
  | cons part parts ih =>
    have hlength : ((part :: parts).length : Int) * ms = parts.length * ms + ms := by
      rw [List.length_cons, Int.natCast_add, Int.add_mul, Int.natCast_one, Int.one_mul]
    have hrest : 0 ≤ (parts.length : Int) * ms := Int.mul_nonneg (by omega) (by omega)
    rw [hlength] at hfits
    have hnext : int32 (delay + ms) = delay + ms := int32_eq (by omega) (by omega)
    cases parts with
    | nil =>
      refine ⟨?_, ?_, ?_, ?_⟩
      · simp [delayedChunks, hnext]
      · intro t ht
        obtain rfl := List.mem_singleton.mp ht
        simp only [delayedChunks, hnext]
        omega
      · simp [delayedChunks]
      · simp [delayedChunks]
    | cons next parts =>
      obtain ⟨hend, hall, hsorted, hflat⟩ :=
        ih (delay + ms) (by simp) (by omega) (by omega)
      have hstep : delayedChunks ms delay (part :: next :: parts) =
          ((delay, toUtf8 part ++ [0x0A]) :: (delayedChunks ms (delay + ms) (next :: parts)).1,
            (delayedChunks ms (delay + ms) (next :: parts)).2) := by
        rw [delayedChunks, hnext]
        exact List.cons_ne_nil _ _
      rw [hstep]
      refine ⟨?_, ?_, ?_, ?_⟩
      · rw [hend, hlength]
        omega
      · intro t ht
        rcases List.mem_cons.mp ht with rfl | ht
        · simp only [hend]
          omega
        · obtain ⟨hlow, hhigh⟩ := hall t ht
          exact ⟨by omega, hhigh⟩
      · refine List.pairwise_cons.mpr ⟨fun t ht => ?_, hsorted⟩
        have hlow := (hall t ht).1
        omega
      · rw [List.map_cons, List.flatten_cons, hflat, toUtf8_joined_cons]

theorem startTimers_of_sorted {timers : List (Int × QByteArray)}
    (hpos : ∀ t ∈ timers, 0 ≤ t.1) (hsorted : timers.Pairwise (fun t u => t.1 ≤ u.1)) :
    startTimers timers = timers.map (·.2) := by
  have hfilter : timers.filter (0 ≤ ·.1) = timers :=
    List.filter_eq_self.mpr fun t ht => by simpa using hpos t ht
  rw [startTimers, hfilter, hsorted.insertionSort_eq]

namespace TerminalWidget

def delaysFit (s : TerminalWidget) (text : QString) : Prop :=
  s.isDelayed text = true → ((text.splitOn '\n').length : Int) * s.pasteDelayMs < 2 ^ 31

theorem startTimers_pasteTimers (s : TerminalWidget) (text : QString)
    (hdelayed : s.isDelayed text = true) (hbracket : s.bracketedPaste = true)
    (hfits : s.delaysFit text) :
    ∃ chunks, startTimers (s.pasteTimers text) = chunks ++ [endMarker] ∧
      chunks.flatten = toUtf8 text := by
  have hms : 0 < s.pasteDelayMs := by
    rw [isDelayed, Bool.and_eq_true, decide_eq_true_eq] at hdelayed
    exact hdelayed.1
  obtain ⟨hend, hall, hsorted, hflat⟩ := delayedChunks_spec s.pasteDelayMs 0 (text.splitOn '\n')
    (List.splitOn_ne_nil '\n' text) hms (by omega) (by simpa using hfits hdelayed)
  have hlast : 0 ≤ (delayedChunks s.pasteDelayMs 0 (text.splitOn '\n')).2 := by
    rw [hend, Int.zero_add]
    exact Int.mul_nonneg (by omega) (by omega)
  refine ⟨(delayedChunks s.pasteDelayMs 0 (text.splitOn '\n')).1.map (·.2), ?_, ?_⟩
  · rw [pasteTimers, hbracket, if_pos rfl, startTimers_of_sorted]
    · simp
    · intro t ht
      rcases List.mem_append.mp ht with ht | ht
      · exact (hall t ht).1
      · obtain rfl := List.mem_singleton.mp ht
        exact hlast
    · refine List.pairwise_append.mpr ⟨hsorted, List.pairwise_singleton _ _, ?_⟩
      intro t ht u hu
      obtain rfl := List.mem_singleton.mp hu
      exact (hall t ht).2
  · rw [hflat, List.intercalate_splitOn]

theorem stream_sendTo (s : TerminalWidget) (k k' : Sink) (bytes : QByteArray) :
    (s.sendTo k bytes).stream k' = s.stream k' ++ if k = k' then bytes else [] := by
  rw [sendTo, stream, List.flatMap_append, List.flatMap_singleton]
  rfl

theorem stream_prefix_sendTo (s : TerminalWidget) (k k' : Sink) (bytes : QByteArray) :
    s.stream k' <+: (s.sendTo k bytes).stream k' := by
  rw [stream_sendTo]
  exact List.prefix_append _ _

theorem stream_prefix_sendInput (s : TerminalWidget) (k : Sink) (bytes : QByteArray) :
    s.stream k <+: (s.sendInput bytes).stream k := by
  rw [sendInput]
  split
  · exact stream_prefix_sendTo s _ k bytes
  · split
    · exact stream_prefix_sendTo s _ k bytes
    · exact List.prefix_rfl

theorem stream_prefix_feedInput (s : TerminalWidget) (k : Sink) (bytes : QByteArray) :
    s.stream k <+: (s.feedInput bytes).stream k := by
  rw [feedInput]
  split
  · exact stream_prefix_sendTo s _ k bytes
  · exact List.prefix_rfl

theorem stream_prefix_paste (s : TerminalWidget) (k : Sink) (text : QString) (yes : Bool) :
    s.stream k <+: (s.paste text yes).stream k := by
  rw [paste]
  split
  · cases hbracket : s.bracketedPaste with
    | true =>
      have hstart := stream_prefix_sendInput s k startMarker
      split
      · exact hstart
      · exact (hstart.trans (stream_prefix_sendInput _ k _)).trans
          (stream_prefix_sendInput _ k endMarker)
    | false =>
      split
      · exact List.prefix_rfl
      · exact stream_prefix_sendInput s k (toUtf8 text)
  · exact List.prefix_rfl

theorem stream_prefix_timeout (s : TerminalWidget) (k : Sink) (i : Nat) :
    s.stream k <+: (s.timeout i).stream k := by
  rw [timeout]
  split
  · rename_i chunk rest _
    exact stream_prefix_sendInput s k chunk
  · exact List.prefix_rfl

theorem stream_prefix_keyPress (mac : Bool) (s : TerminalWidget) (k : Sink) (e : KeyEvent)
    (clipboard : QString) (yes : Bool) :
    s.stream k <+: (s.keyPressEvent mac e clipboard yes).stream k := by
  rw [keyPressEvent]
  generalize s.keyAction mac e = action
  cases action with
  | copySelection => exact List.prefix_rfl
  | showFindBar => exact List.prefix_rfl
  | scroll => exact List.prefix_rfl
  | paste => exact stream_prefix_paste s k clipboard yes
  | send out =>
    dsimp only
    split
    · exact stream_prefix_sendInput s k out
    · exact List.prefix_rfl

theorem stream_prefix_step (mac : Bool) (s : TerminalWidget) (k : Sink) (e : Event) :
    s.stream k <+: (s.step mac e).stream k := by
  cases e with
  | keyPress e clipboard yes => exact stream_prefix_keyPress mac s k e clipboard yes
  | inputMethod commitString =>
    simp only [step, inputMethodEvent]
    split
    · exact List.prefix_rfl
    · exact stream_prefix_sendInput s k _
  | mouseReport cb col1 row1 release => exact stream_prefix_sendInput s k _
  | paste clipboard yes => exact stream_prefix_paste s k clipboard yes
  | timeout i => exact stream_prefix_timeout s k i
  | feedInput bytes => exact stream_prefix_feedInput s k bytes
  | outputReady bytes => exact stream_prefix_feedInput s k bytes
  | modes bracketedPaste mouseEncoding => exact List.prefix_rfl
  | select hasSelection => exact List.prefix_rfl
  | setPasteDelay ms => exact List.prefix_rfl
  | setBackspaceCode code =>
    simp only [step]
    split
    · exact List.prefix_rfl
    · exact List.prefix_rfl
  | setInputHandler on => exact List.prefix_rfl
  | attach => exact List.prefix_rfl

theorem stream_sendInput_sink (s : TerminalWidget) (bytes : QByteArray) (h : s.conn = true) :
    (s.sendInput bytes).stream s.sink = s.stream s.sink ++ bytes := by
  rw [sendInput, sink]
  cases s.inputHandler with
  | true => simp [stream_sendTo]
  | false => simp [h, stream_sendTo]

theorem stream_sendInput_nil (s : TerminalWidget) (k : Sink) :
    (s.sendInput []).stream k = s.stream k := by
  rw [sendInput]
  split
  · simp [stream_sendTo]
  · split
    · simp [stream_sendTo]
    · rfl

theorem stream_feedInput_of_sink (s : TerminalWidget) {bytes : QByteArray}
    (h : bytes = [] ∨ s.inputHandler = true) :
    (s.feedInput bytes).stream s.sink = s.stream s.sink := by
  rw [feedInput]
  split
  · rw [stream_sendTo]
    rcases h with rfl | h
    · simp
    · simp [sink, h]
  · rfl

@[simp] theorem sendInput_conn (s : TerminalWidget) (bytes : QByteArray) :
    (s.sendInput bytes).conn = s.conn := by
  unfold sendInput sendTo
  split
  · rfl
  · split <;> rfl

@[simp] theorem sendInput_sink (s : TerminalWidget) (bytes : QByteArray) :
    (s.sendInput bytes).sink = s.sink := by
  unfold sendInput sendTo
  split
  · rfl
  · split <;> rfl

@[simp] theorem sendInput_timers (s : TerminalWidget) (bytes : QByteArray) :
    (s.sendInput bytes).timers = s.timers := by
  unfold sendInput sendTo
  split
  · rfl
  · split <;> rfl

def nextChunk (s : TerminalWidget) (i : Nat) : QByteArray :=
  (s.timers[i]?.bind List.head?).getD []

-- Nothing but the chunks of the i-th delayed paste goes to the sink in this step.
def Calm (mac : Bool) (s : TerminalWidget) (i : Nat) : Event → Prop
  | .keyPress e clipboard yes =>
      match s.keyAction mac e with
      | .copySelection | .showFindBar | .scroll => True
      | .paste => s.pastes clipboard yes = false
      | .send out => out = []
  | .inputMethod commitString => commitString = []
  | .mouseReport _ _ _ _ => False
  | .paste clipboard yes => s.pastes clipboard yes = false
  | .timeout j => j = i ∨ s.nextChunk j = []
  | .feedInput bytes | .outputReady bytes => bytes = [] ∨ s.inputHandler = true
  | .modes _ _ | .select _ | .setPasteDelay _ | .setBackspaceCode _ => True
  | .setInputHandler _ | .attach => False

def Undisturbed (mac : Bool) (i : Nat) (s : TerminalWidget) : List Event → Prop
  | [] => True
  | e :: events =>
      (s.timers.getD i [] ≠ [] → Calm mac s i e) ∧ Undisturbed mac i (s.step mac e) events

structure Keeps (i : Nat) (s t : TerminalWidget) : Prop where
  conn : t.conn = s.conn
  sink : t.sink = s.sink
  timers : t.timers[i]? = s.timers[i]?
  stream : t.stream s.sink = s.stream s.sink

theorem Keeps.refl (i : Nat) (s : TerminalWidget) : Keeps i s s := ⟨rfl, rfl, rfl, rfl⟩

theorem keeps_feedInput (i : Nat) (s : TerminalWidget) {bytes : QByteArray}
    (h : bytes = [] ∨ s.inputHandler = true) : Keeps i s (s.feedInput bytes) := by
  have hstream := stream_feedInput_of_sink s h
  rw [feedInput] at hstream ⊢
  cases hconn : s.conn with
  | true =>
    rw [hconn, if_pos rfl] at hstream
    exact ⟨rfl, rfl, rfl, hstream⟩
  | false => exact Keeps.refl i s

theorem keeps_paste {i : Nat} {s : TerminalWidget} {clipboard : QString} {yes : Bool}
    (h : s.pastes clipboard yes = false) : Keeps i s (s.paste clipboard yes) := by
  have hsame : s.paste clipboard yes = s := by
    rw [paste, h]
    rfl
  rw [hsame]
  exact Keeps.refl i s

theorem keeps_timeout {i j : Nat} {s : TerminalWidget} (hne : j ≠ i) (h : s.nextChunk j = []) :
    Keeps i s (s.timeout j) := by
  rw [timeout]
  split
  · rename_i chunk rest hj
    have hchunk : chunk = [] := by simpa [nextChunk, hj] using h
    subst hchunk
    refine ⟨sendInput_conn s [], sendInput_sink s [], ?_, stream_sendInput_nil s s.sink⟩
    exact List.getElem?_set_ne hne
  · exact Keeps.refl i s

theorem keeps_of_calm {mac : Bool} {i : Nat} {s : TerminalWidget} {e : Event}
    (hcalm : Calm mac s i e) (hother : e ≠ .timeout i) : Keeps i s (s.step mac e) := by
  cases e with
  | keyPress e clipboard yes =>
    simp only [step, keyPressEvent, Calm] at hcalm ⊢
    generalize s.keyAction mac e = action at hcalm ⊢
    cases action with
    | copySelection => exact Keeps.refl i s
    | showFindBar => exact Keeps.refl i s
    | scroll => exact Keeps.refl i s
    | paste => exact keeps_paste hcalm
    | send out =>
      subst hcalm
      simpa using Keeps.refl i s
  | inputMethod commitString =>
    subst hcalm
    exact Keeps.refl i s
  | mouseReport cb col1 row1 release => exact absurd hcalm id
  | paste clipboard yes => exact keeps_paste hcalm
  | timeout j =>
    rcases hcalm with rfl | h
    · exact absurd rfl hother
    · exact keeps_timeout (fun hj => hother (by rw [hj])) h
  | feedInput bytes => exact keeps_feedInput i s hcalm
  | outputReady bytes => exact keeps_feedInput i s hcalm
  | modes bracketedPaste mouseEncoding => exact ⟨rfl, rfl, rfl, rfl⟩
  | select hasSelection => exact ⟨rfl, rfl, rfl, rfl⟩
  | setPasteDelay ms => exact ⟨rfl, rfl, rfl, rfl⟩
  | setBackspaceCode code =>
    simp only [step]
    split
    · exact Keeps.refl i s
    · exact ⟨rfl, rfl, rfl, rfl⟩
  | setInputHandler on => exact absurd hcalm id
  | attach => exact absurd hcalm id

structure Dribbling (i : Nat) (k : Sink) (base text : QByteArray) (s : TerminalWidget) : Prop where
  conn : s.conn = true
  sink : s.sink = k
  sent : ∃ rest chunks, s.stream k = base ++ rest ∧
    s.timers[i]? = some (chunks ++ [endMarker]) ∧ rest ++ chunks.flatten = text

def Delivered (k : Sink) (base text : QByteArray) (s : TerminalWidget) : Prop :=
  base ++ (text ++ endMarker) <+: s.stream k

theorem Dribbling.keep {i : Nat} {k : Sink} {base text : QByteArray} {s t : TerminalWidget}
    (h : Dribbling i k base text s) (hkeep : Keeps i s t) : Dribbling i k base text t := by
  obtain ⟨rest, chunks, hstream, htimers, htext⟩ := h.sent
  refine ⟨hkeep.conn.trans h.conn, hkeep.sink.trans h.sink, rest, chunks, ?_, ?_, htext⟩
  · rw [← h.sink, hkeep.stream, h.sink, hstream]
  · rw [hkeep.timers, htimers]

theorem Dribbling.timeout {i : Nat} {k : Sink} {base text : QByteArray} {s : TerminalWidget}
    (h : Dribbling i k base text s) :
    Dribbling i k base text (s.timeout i) ∨ Delivered k base text (s.timeout i) := by
  obtain ⟨rest, chunks, hstream, htimers, htext⟩ := h.sent
  have hi : i < s.timers.length := (List.getElem?_eq_some_iff.mp htimers).1
  cases chunks with
  | nil =>
    right
    have htimeout : s.timeout i = { s.sendInput endMarker with timers := s.timers.set i [] } := by
      rw [TerminalWidget.timeout, htimers]
      rfl
    have hsend := stream_sendInput_sink s endMarker h.conn
    rw [h.sink, hstream] at hsend
    rw [List.flatten_nil, List.append_nil] at htext
    rw [htimeout, Delivered, ← htext]
    change base ++ (rest ++ endMarker) <+: (s.sendInput endMarker).stream k
    exact ⟨[], by rw [hsend, List.append_nil, List.append_assoc]⟩
  | cons chunk chunks =>
    left
    have htimeout : s.timeout i =
        { s.sendInput chunk with timers := s.timers.set i (chunks ++ [endMarker]) } := by
      rw [TerminalWidget.timeout, htimers]
      rfl
    have hsend := stream_sendInput_sink s chunk h.conn
    rw [h.sink, hstream] at hsend
    rw [htimeout]
    refine ⟨(sendInput_conn s chunk).trans h.conn, (sendInput_sink s chunk).trans h.sink,
      rest ++ chunk, chunks, ?_, ?_, ?_⟩
    · rw [← List.append_assoc, ← hsend]
      rfl
    · exact List.getElem?_set_self hi
    · rw [List.append_assoc, ← List.flatten_cons, htext]

theorem Dribbling.step {mac : Bool} {i : Nat} {k : Sink} {base text : QByteArray}
    {s : TerminalWidget} (h : Dribbling i k base text s) {e : Event}
    (hcalm : s.timers.getD i [] ≠ [] → Calm mac s i e) :
    Dribbling i k base text (s.step mac e) ∨ Delivered k base text (s.step mac e) := by
  obtain ⟨rest, chunks, hstream, htimers, htext⟩ := h.sent
  have hpending : s.timers.getD i [] ≠ [] := by
    rw [List.getD_eq_getElem?_getD, htimers]
    simp
  by_cases he : e = .timeout i
  · subst he
    exact h.timeout
  · exact Or.inl (h.keep (keeps_of_calm (hcalm hpending) he))

theorem delivered_run {k : Sink} {base text : QByteArray} {s : TerminalWidget} (mac : Bool)
    (h : Delivered k base text s) (events : List Event) :
    Delivered k base text (s.run mac events) := by
  induction events generalizing s with
  | nil => exact h
  | cons e events ih => exact ih (h.trans (stream_prefix_step mac s k e))

theorem dribbling_run {mac : Bool} {i : Nat} {k : Sink} {base text : QByteArray}
    {s : TerminalWidget} (h : Dribbling i k base text s) (events : List Event)
    (hquiet : Undisturbed mac i s events) :
    Dribbling i k base text (s.run mac events) ∨ Delivered k base text (s.run mac events) := by
  induction events generalizing s with
  | nil => exact Or.inl h
  | cons e events ih =>
    rcases h.step hquiet.1 with h | h
    · exact ih h hquiet.2
    · exact Or.inr (delivered_run mac h events)

theorem paste_starts {s : TerminalWidget} {text : QString} {yes : Bool}
    (hpastes : s.pastes text yes = true) (hbracket : s.bracketedPaste = true)
    (hfits : s.delaysFit text) :
    Dribbling s.timers.length s.sink (s.stream s.sink ++ startMarker) (toUtf8 text)
        (s.paste text yes) ∨
      Delivered s.sink (s.stream s.sink ++ startMarker) (toUtf8 text) (s.paste text yes) := by
  have hconn : s.conn = true := by
    simp only [pastes, Bool.and_eq_true] at hpastes
    exact hpastes.1.1
  have hstart := stream_sendInput_sink s startMarker hconn
  cases hdelayed : s.isDelayed text with
  | true =>
    left
    obtain ⟨chunks, htimers, hflat⟩ := startTimers_pasteTimers s text hdelayed hbracket hfits
    have hpaste : s.paste text yes =
        { s.sendInput startMarker with timers := s.timers ++ [chunks ++ [endMarker]] } := by
      rw [paste, hpastes, hbracket, hdelayed, htimers]
      simp
    rw [hpaste]
    refine ⟨(sendInput_conn s _).trans hconn, sendInput_sink s _, [], chunks, ?_, ?_, hflat⟩
    · rw [List.append_nil, ← hstart]
      rfl
    · simp
  | false =>
    right
    have hpaste : s.paste text yes =
        ((s.sendInput startMarker).sendInput (toUtf8 text)).sendInput endMarker := by
      rw [paste, hpastes, hbracket, hdelayed]
      simp
    have htext := stream_sendInput_sink (s.sendInput startMarker) (toUtf8 text) (by simp [hconn])
    have hend := stream_sendInput_sink ((s.sendInput startMarker).sendInput (toUtf8 text))
      endMarker (by simp [hconn])
    simp only [sendInput_sink] at htext hend
    rw [hpaste, Delivered, hend, htext, hstart]
    simp

theorem paste_run {mac : Bool} {s : TerminalWidget} {text : QString} {yes : Bool}
    {events : List Event} (hpastes : s.pastes text yes = true)
    (hbracket : s.bracketedPaste = true) (hfits : s.delaysFit text)
    (hquiet : Undisturbed mac s.timers.length (s.paste text yes) events) :
    Dribbling s.timers.length s.sink (s.stream s.sink ++ startMarker) (toUtf8 text)
        ((s.paste text yes).run mac events) ∨
      Delivered s.sink (s.stream s.sink ++ startMarker) (toUtf8 text)
        ((s.paste text yes).run mac events) := by
  rcases paste_starts hpastes hbracket hfits with h | h
  · exact dribbling_run h events hquiet
  · exact Or.inr (delivered_run mac h events)

theorem marker_in_text_ends_paste (mac : Bool) (s : TerminalWidget) (text : QString) (yes : Bool)
    (events : List Event) (hpastes : s.pastes text yes = true)
    (hbracket : s.bracketedPaste = true) (hmarker : endMarker <:+: toUtf8 text)
    (hfits : s.delaysFit text)
    (hquiet : Undisturbed mac s.timers.length (s.paste text yes) events)
    (hdone : ((s.paste text yes).run mac events).timers.getD s.timers.length [] = []) :
    ∃ rest, ((s.paste text yes).run mac events).stream s.sink =
        s.stream s.sink ++ startMarker ++ rest ∧
      Marker.upTo endMarker rest ≠ some (toUtf8 text) := by
  rcases paste_run hpastes hbracket hfits hquiet with h | ⟨more, h⟩
  · obtain ⟨rest, chunks, -, htimers, -⟩ := h.sent
    rw [List.getD_eq_getElem?_getD, htimers] at hdone
    simp at hdone
  · refine ⟨toUtf8 text ++ (endMarker ++ more), ?_, fun hseen => ?_⟩
    · rw [← h]
      simp
    · exact (Marker.upTo_marker_iff (by decide) (toUtf8 text) more).mp hseen hmarker

end TerminalWidget

end Ui
