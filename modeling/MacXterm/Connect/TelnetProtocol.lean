import MacXterm.Qt.Text

namespace Connect

open Qt

namespace Telnet

def SE : UInt8 := 240
def SB : UInt8 := 250
def WILL : UInt8 := 251
def WONT : UInt8 := 252
def DO : UInt8 := 253
def DONT : UInt8 := 254
def IAC : UInt8 := 255
def OPT_ECHO : UInt8 := 1
def OPT_SGA : UInt8 := 3

inductive St where
  | data | iac | will | wont | do_ | dont | sb | sbIac
deriving DecidableEq

structure Result where
  appData : QByteArray := []
  response : QByteArray := []
deriving DecidableEq

def reply (verb opt : UInt8) : QByteArray := [IAC, verb, opt]

def negotiate (verb opt : UInt8) : QByteArray :=
  if verb = DO then reply (if opt = OPT_SGA then WILL else WONT) opt
  else if verb = DONT then reply WONT opt
  else if verb = WILL then reply (if opt = OPT_ECHO ∨ opt = OPT_SGA then DO else DONT) opt
  else if verb = WONT then reply DONT opt
  else []

def processByte (st : St) (r : Result) (b : UInt8) : St × Result :=
  let respond (verb : UInt8) := { r with response := r.response ++ negotiate verb b }
  match st with
  | .data => if b = IAC then (.iac, r) else (.data, { r with appData := r.appData ++ [b] })
  | .iac =>
      if b = IAC then (.data, { r with appData := r.appData ++ [IAC] })
      else if b = WILL then (.will, r)
      else if b = WONT then (.wont, r)
      else if b = DO then (.do_, r)
      else if b = DONT then (.dont, r)
      else if b = SB then (.sb, r)
      else (.data, r)
  | .will => (.data, respond WILL)
  | .wont => (.data, respond WONT)
  | .do_ => (.data, respond DO)
  | .dont => (.data, respond DONT)
  | .sb => (if b = IAC then .sbIac else .sb, r)
  | .sbIac => (if b = SE then .data else .sb, r)

def process (st : St) (input : QByteArray) : St × Result :=
  input.foldl (fun s b => processByte s.1 s.2 b) (st, {})

inductive Verb where
  | will | wont | do_ | dont
deriving DecidableEq

namespace Verb

def byte : Verb → UInt8
  | will => WILL
  | wont => WONT
  | do_ => DO
  | dont => DONT

def ofByte (b : UInt8) : Option Verb :=
  if b = WILL then some will
  else if b = WONT then some wont
  else if b = DO then some do_
  else if b = DONT then some dont
  else none

theorem ofByte_byte (v : Verb) : ofByte v.byte = some v := by cases v <;> rfl

end Verb

structure Command where
  verb : Verb
  opt : UInt8
deriving DecidableEq

namespace Command

def encode (c : Command) : QByteArray := reply c.verb.byte c.opt

def answer (c : Command) : Command :=
  match c.verb with
  | .do_ => ⟨if c.opt = OPT_SGA then .will else .wont, c.opt⟩
  | .dont => ⟨.wont, c.opt⟩
  | .will => ⟨if c.opt = OPT_ECHO ∨ c.opt = OPT_SGA then .do_ else .dont, c.opt⟩
  | .wont => ⟨.dont, c.opt⟩

end Command

def commands : QByteArray → List Command
  | b :: v :: opt :: rest =>
      match Verb.ofByte v with
      | some verb => if b = IAC then ⟨verb, opt⟩ :: commands rest else []
      | none => []
  | _ => []

theorem negotiate_eq_answer (c : Command) : negotiate c.verb.byte c.opt = c.answer.encode := by
  obtain ⟨verb, opt⟩ := c
  cases verb with
  | do_ =>
    by_cases hopt : opt = OPT_SGA
    · subst hopt
      rfl
    · simp [negotiate, Verb.byte, Command.answer, Command.encode, hopt]
  | dont => rfl
  | will =>
    by_cases hopt : opt = OPT_ECHO ∨ opt = OPT_SGA
    · simp only [negotiate, Verb.byte, Command.answer, Command.encode, hopt, if_true]
      rfl
    · simp only [negotiate, Verb.byte, Command.answer, Command.encode, hopt, if_false]
      rfl
  | wont => rfl

theorem process_encode (c : Command) :
    process .data c.encode = (.data, { response := c.answer.encode }) := by
  rw [← negotiate_eq_answer]
  obtain ⟨verb, opt⟩ := c
  cases verb <;> rfl

theorem commands_encode (c : Command) : commands c.encode = [c] := by
  simp [Command.encode, reply, commands, Verb.ofByte_byte]

end Telnet

structure TelnetConnection where
  proto : Telnet.St := .data
deriving DecidableEq

-- What onReadyRead writes back to the socket, and what it hands to the terminal.
def TelnetConnection.onReadyRead (c : TelnetConnection) (input : QByteArray) :
    TelnetConnection × Telnet.Result :=
  let r := Telnet.process c.proto input
  (⟨r.1⟩, r.2)

end Connect
