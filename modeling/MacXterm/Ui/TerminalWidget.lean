import MacXterm.Lib.MachineInt
import MacXterm.Qt.Text
import Mathlib.Data.List.Sort

namespace Ui

open Qt

inductive Key where
  | return | enter | backspace | tab | escape | up | down | right | left
  | c | v | f | insert | pageUp | pageDown | other
deriving DecidableEq

structure KeyEvent where
  key : Key
  ctrl : Bool := false
  shift : Bool := false
  text : QString := []
deriving DecidableEq

inductive MouseEncoding where
  | default | utf8 | sgr | urxvt
deriving DecidableEq

inductive Sink where
  | inputHandler | connection
deriving DecidableEq

structure TerminalWidget where
  conn : Bool := false
  inputHandler : Bool := false
  pasteDelayMs : Int := 0
  backspaceCode : QByteArray := [0x7F]
  hasSelection : Bool := false
  bracketedPaste : Bool := false
  mouseEncoding : MouseEncoding := .default
  -- The pending single-shot timers, one list for each delayed paste, next to fire first.
  timers : List (List QByteArray) := []
  sent : List (Sink × QByteArray) := []
deriving DecidableEq

def startMarker : QByteArray := [0x1B, 0x5B, 0x32, 0x30, 0x30, 0x7E]

def endMarker : QByteArray := [0x1B, 0x5B, 0x32, 0x30, 0x31, 0x7E]

def mouseByte (v : Nat) : UInt8 := UInt8.ofNat (min v 223 + 32)

def encodeMouseReport (enc : MouseEncoding) (cb col1 row1 : Nat) (release : Bool) : QByteArray :=
  match enc with
  | .sgr =>
      [0x1B, 0x5B, 0x3C] ++ toUtf8 (number cb) ++ [0x3B] ++ toUtf8 (number col1) ++ [0x3B] ++
        toUtf8 (number row1) ++ [if release then 0x6D else 0x4D]
  | _ =>
      [0x1B, 0x5B, 0x4D, mouseByte (if release then cb ||| 3 else cb), mouseByte col1,
        mouseByte row1]

-- The delays are C ints; a timer with a negative interval is never started.
def delayedChunks (delayMs : Int) : Int → List QString → List (Int × QByteArray) × Int
  | delay, [] => ([], delay)
  | delay, [part] => ([(delay, toUtf8 part)], int32 (delay + delayMs))
  | delay, part :: parts =>
      let rest := delayedChunks delayMs (int32 (delay + delayMs)) parts
      ((delay, toUtf8 part ++ [0x0A]) :: rest.1, rest.2)

def startTimers (timers : List (Int × QByteArray)) : List QByteArray :=
  ((timers.filter (0 ≤ ·.1)).insertionSort fun t u => t.1 ≤ u.1).map (·.2)

namespace TerminalWidget

def sendTo (s : TerminalWidget) (sink : Sink) (bytes : QByteArray) : TerminalWidget :=
  { s with sent := s.sent ++ [(sink, bytes)] }

def feedInput (s : TerminalWidget) (bytes : QByteArray) : TerminalWidget :=
  if s.conn then s.sendTo .connection bytes else s

def sendInput (s : TerminalWidget) (bytes : QByteArray) : TerminalWidget :=
  if s.inputHandler then s.sendTo .inputHandler bytes
  else if s.conn then s.sendTo .connection bytes
  else s

def confirmsPaste (s : TerminalWidget) (text : QString) : Bool :=
  let lines := text.count '\n' + if text.getLast? = some '\n' then 0 else 1
  !s.bracketedPaste && text.contains '\n' && 1 < lines

-- yes: the answer to the question before a multi-line paste
def pastes (s : TerminalWidget) (text : QString) (yes : Bool) : Bool :=
  s.conn && !text.isEmpty && (!s.confirmsPaste text || yes)

def isDelayed (s : TerminalWidget) (text : QString) : Bool :=
  0 < s.pasteDelayMs && text.contains '\n'

def pasteTimers (s : TerminalWidget) (text : QString) : List (Int × QByteArray) :=
  let chunks := delayedChunks s.pasteDelayMs 0 (text.splitOn '\n')
  chunks.1 ++ if s.bracketedPaste then [(chunks.2, endMarker)] else []

def paste (s : TerminalWidget) (text : QString) (yes : Bool) : TerminalWidget :=
  if s.pastes text yes then
    let bracket := s.bracketedPaste
    let started := if bracket then s.sendInput startMarker else s
    if s.isDelayed text then
      { started with timers := started.timers ++ [startTimers (s.pasteTimers text)] }
    else
      let pasted := started.sendInput (toUtf8 text)
      if bracket then pasted.sendInput endMarker else pasted
  else s

inductive KeyAction where
  | copySelection | paste | showFindBar | scroll
  | send (out : QByteArray)
deriving DecidableEq

def keyBytes (s : TerminalWidget) (e : KeyEvent) : QByteArray :=
  match e.key with
  | .return | .enter => [0x0D]
  | .backspace => s.backspaceCode
  | .tab => [0x09]
  | .escape => [0x1B]
  | .up => [0x1B, 0x5B, 0x41]
  | .down => [0x1B, 0x5B, 0x42]
  | .right => [0x1B, 0x5B, 0x43]
  | .left => [0x1B, 0x5B, 0x44]
  | _ => toUtf8 e.text

def keyAction (mac : Bool) (s : TerminalWidget) (e : KeyEvent) : KeyAction :=
  let cmd := e.ctrl && (mac || e.shift)
  if cmd && e.key == .c && s.hasSelection then .copySelection
  else if cmd && e.key == .v || e.key == .insert && e.shift then .paste
  else if cmd && e.key == .f then .showFindBar
  else if e.shift && (e.key == .pageUp || e.key == .pageDown) then .scroll
  else .send (s.keyBytes e)

def keyPressEvent (mac : Bool) (s : TerminalWidget) (e : KeyEvent) (clipboard : QString)
    (yes : Bool) : TerminalWidget :=
  match s.keyAction mac e with
  | .copySelection | .showFindBar | .scroll => s
  | .paste => s.paste clipboard yes
  | .send out => if s.conn && !out.isEmpty then s.sendInput out else s

def inputMethodEvent (s : TerminalWidget) (commitString : QString) : TerminalWidget :=
  let commit := toUtf8 commitString
  if commit.isEmpty then s else s.sendInput commit

def sendMouseReport (s : TerminalWidget) (cb col1 row1 : Nat) (release : Bool) : TerminalWidget :=
  s.sendInput (encodeMouseReport s.mouseEncoding cb col1 row1 release)

def timeout (s : TerminalWidget) (i : Nat) : TerminalWidget :=
  match s.timers[i]? with
  | some (chunk :: rest) => { s.sendInput chunk with timers := s.timers.set i rest }
  | _ => s

inductive Event where
  | keyPress (e : KeyEvent) (clipboard : QString) (yes : Bool)
  | inputMethod (commitString : QString)
  | mouseReport (cb col1 row1 : Nat) (release : Bool)
  | paste (clipboard : QString) (yes : Bool)
  | timeout (i : Nat)
  | feedInput (bytes : QByteArray)
  | outputReady (bytes : QByteArray)
  | modes (bracketedPaste : Bool) (mouseEncoding : MouseEncoding)
  | select (hasSelection : Bool)
  | setPasteDelay (ms : Int)
  | setBackspaceCode (code : QByteArray)
  | setInputHandler (on : Bool)
  | attach

def step (mac : Bool) (s : TerminalWidget) : Event → TerminalWidget
  | .keyPress e clipboard yes => s.keyPressEvent mac e clipboard yes
  | .inputMethod commitString => s.inputMethodEvent commitString
  | .mouseReport cb col1 row1 release => s.sendMouseReport cb col1 row1 release
  | .paste clipboard yes => s.paste clipboard yes
  | .timeout i => s.timeout i
  | .feedInput bytes => s.feedInput bytes
  | .outputReady bytes => s.feedInput bytes
  | .modes bracketedPaste mouseEncoding => { s with bracketedPaste, mouseEncoding }
  | .select hasSelection => { s with hasSelection }
  | .setPasteDelay ms => { s with pasteDelayMs := ms }
  | .setBackspaceCode code => if code.isEmpty then s else { s with backspaceCode := code }
  | .setInputHandler on => { s with inputHandler := on }
  | .attach => { s with conn := true }

def run (mac : Bool) (s : TerminalWidget) (events : List Event) : TerminalWidget :=
  events.foldl (step mac) s

def stream (s : TerminalWidget) (sink : Sink) : QByteArray :=
  s.sent.flatMap fun out => if out.1 = sink then out.2 else []

def sink (s : TerminalWidget) : Sink := if s.inputHandler then .inputHandler else .connection

end TerminalWidget

end Ui
