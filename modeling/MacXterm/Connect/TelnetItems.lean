import MacXterm.Connect.TelnetProtocol
import MacXterm.Lib.Escapes

namespace Connect

open Qt Stuffing

namespace Telnet

structure PlainCommand (b : UInt8) : Prop where
  notEscape : b ≠ IAC
  notVerb : b ≠ WILL ∧ b ≠ WONT ∧ b ≠ DO ∧ b ≠ DONT
  notSubnegotiation : b ≠ SB

inductive Item where
  | data (bytes : QByteArray)
  | command (byte : {b : UInt8 // PlainCommand b})
  | negotiation (c : Command)
  | subnegotiation (content : QByteArray)

namespace Item

def encode : Item → QByteArray
  | data bytes => stuff IAC bytes
  | command byte => [IAC, byte.val]
  | negotiation c => c.encode
  | subnegotiation content => [IAC, SB] ++ stuff IAC content ++ [IAC, SE]

def bytes : Item → QByteArray
  | data bytes => bytes
  | _ => []

def negotiated : Item → List Command
  | negotiation c => [c]
  | _ => []

end Item

def stream (items : List Item) : QByteArray := items.flatMap Item.encode

def dataBytes (items : List Item) : QByteArray := items.flatMap Item.bytes

def negotiations (items : List Item) : List Command := items.flatMap Item.negotiated

def replies (items : List Item) : List QByteArray :=
  (negotiations items).map fun c => c.answer.encode

def Result.append (r s : Result) : Result := ⟨r.appData ++ s.appData, r.response ++ s.response⟩

def processAll (st : St) : List QByteArray → St × Result
  | [] => (st, {})
  | chunk :: chunks =>
      let r := process st chunk
      let rest := processAll r.1 chunks
      (rest.1, r.2.append rest.2)

@[simp] theorem Result.append_empty (r : Result) : r.append {} = r := by simp [Result.append]

theorem Result.append_assoc (r s t : Result) :
    (r.append s).append t = r.append (s.append t) := by
  simp only [Result.append, List.append_assoc]

theorem processByte_append (st : St) (r : Result) (b : UInt8) :
    processByte st r b = ((processByte st {} b).1, r.append (processByte st {} b).2) := by
  cases st with
  | data =>
    by_cases hb : b = IAC
    · simp [processByte, hb]
    · simp [processByte, hb, Result.append]
  | iac =>
    simp only [processByte]
    split_ifs <;> simp [Result.append]
  | will => simp [processByte, Result.append]
  | wont => simp [processByte, Result.append]
  | do_ => simp [processByte, Result.append]
  | dont => simp [processByte, Result.append]
  | sb => simp [processByte]
  | sbIac => simp [processByte]

def run (s : St × Result) (input : QByteArray) : St × Result :=
  input.foldl (fun s b => processByte s.1 s.2 b) s

theorem process_eq_run (st : St) (input : QByteArray) : process st input = run (st, {}) input := rfl

@[simp] theorem run_nil (s : St × Result) : run s [] = s := rfl

@[simp] theorem run_cons (s : St × Result) (b : UInt8) (input : QByteArray) :
    run s (b :: input) = run (processByte s.1 s.2 b) input := rfl

theorem run_append (s : St × Result) (a b : QByteArray) : run s (a ++ b) = run (run s a) b :=
  List.foldl_append

theorem run_eq (st : St) (r : Result) (input : QByteArray) :
    run (st, r) input = ((process st input).1, r.append (process st input).2) := by
  induction input generalizing st r with
  | nil => rw [process_eq_run, run_nil, run_nil, Result.append_empty]
  | cons b input ih =>
    obtain ⟨st', r', hstep⟩ : ∃ st' r', processByte st {} b = (st', r') := ⟨_, _, rfl⟩
    rw [process_eq_run, run_cons, run_cons, processByte_append, hstep, ih, ih, Result.append_assoc]

theorem process_append (st : St) (a b : QByteArray) :
    process st (a ++ b) =
      ((process (process st a).1 b).1, (process st a).2.append (process (process st a).1 b).2) := by
  rw [process_eq_run, run_append, ← process_eq_run, ← run_eq]

theorem processAll_eq (st : St) (chunks : List QByteArray) :
    processAll st chunks = process st chunks.flatten := by
  induction chunks generalizing st with
  | nil => rfl
  | cons chunk chunks ih => rw [List.flatten_cons, process_append, processAll, ih]

theorem foldl_appData (r : Result) (bytes : QByteArray) :
    bytes.foldl (fun r b => { r with appData := r.appData ++ [b] }) r =
      { r with appData := r.appData ++ bytes } := by
  induction bytes generalizing r with
  | nil => rw [List.foldl_nil, List.append_nil]
  | cons b bytes ih => rw [List.foldl_cons, ih, List.append_assoc, List.singleton_append]

theorem process_data (bytes : QByteArray) :
    process .data (stuff IAC bytes) = (.data, { appData := bytes }) := by
  have hplain (r : Result) (b : UInt8) (hb : b ≠ IAC) :
      processByte .data r b = (.data, { r with appData := r.appData ++ [b] }) := by
    rw [processByte, if_neg hb]
  have hescape (r : Result) :
      processByte .iac r IAC = (.data, { r with appData := r.appData ++ [IAC] }) := by
    rw [processByte, if_pos rfl]
  exact (foldl_stuff (fun s b => processByte s.1 s.2 b) (fun r => (St.data, r)) _ hplain hescape
    {} bytes).trans (congrArg _ (foldl_appData {} bytes))

theorem run_subnegotiation (r : Result) (content : QByteArray) :
    run (.sb, r) (stuff IAC content) = (.sb, r) := by
  have hplain (r : Result) (b : UInt8) (hb : b ≠ IAC) : processByte .sb r b = (.sb, r) := by
    rw [processByte, if_neg hb]
  have hescape (r : Result) : processByte .sbIac r IAC = (.sb, r) := by
    rw [processByte, if_neg (by decide)]
  have hkeep (r : Result) : content.foldl (fun r _ => r) r = r := by
    induction content with
    | nil => rfl
    | cons b content ih => rw [List.foldl_cons, ih]
  exact (foldl_stuff (fun s b => processByte s.1 s.2 b) (fun r => (St.sb, r)) (fun r _ => r)
    hplain hescape r content).trans (congrArg _ (hkeep r))

theorem process_command {b : UInt8} (hb : PlainCommand b) :
    process .data [IAC, b] = (.data, {}) := by
  obtain ⟨hwill, hwont, hdo, hdont⟩ := hb.notVerb
  rw [process_eq_run, run_cons, run_cons, run_nil]
  simp only [processByte, if_true, hb.notEscape, hwill, hwont, hdo, hdont, hb.notSubnegotiation,
    if_false]

theorem process_subnegotiation (content : QByteArray) :
    process .data ([IAC, SB] ++ stuff IAC content ++ [IAC, SE]) = (.data, {}) := by
  have hopen : run (.data, {}) [IAC, SB] = (.sb, {}) := rfl
  have hclose : run (.sb, {}) [IAC, SE] = (.data, {}) := rfl
  rw [process_eq_run, run_append, run_append, hopen, run_subnegotiation, hclose]

def result (items : List Item) : Result := ⟨dataBytes items, (replies items).flatten⟩

theorem result_cons (item : Item) (items : List Item) :
    result (item :: items) = (result [item]).append (result items) := by
  simp [result, Result.append, dataBytes, replies, negotiations]

theorem process_item (item : Item) : process .data item.encode = (.data, result [item]) := by
  cases item with
  | data bytes =>
    rw [Item.encode, process_data]
    simp [result, dataBytes, Item.bytes, replies, negotiations, Item.negotiated]
  | command byte => exact process_command byte.property
  | negotiation c =>
    rw [Item.encode, process_encode]
    simp [result, dataBytes, Item.bytes, replies, negotiations, Item.negotiated]
  | subnegotiation content => exact process_subnegotiation content

theorem process_stream (items : List Item) :
    process .data (stream items) = (.data, result items) := by
  induction items with
  | nil => rfl
  | cons item items ih =>
    rw [stream, List.flatMap_cons, process_append, process_item, ← stream, ih, ← result_cons]

theorem length_reply (c : Command) : c.encode.length = 3 := rfl

structure Decodes (items : List Item) (chunks : List QByteArray) : Prop where
  state : (processAll .data chunks).1 = .data
  data : (processAll .data chunks).2.appData = dataBytes items
  response : (processAll .data chunks).2.response = (replies items).flatten
  each : ∀ r ∈ replies items, r.length = 3
  count : (replies items).length = (negotiations items).length

theorem chunks_decode (items : List Item) (chunks : List QByteArray)
    (hcut : chunks.flatten = stream items) : Decodes items chunks := by
  have hall : processAll .data chunks = (.data, result items) := by
    rw [processAll_eq, hcut, process_stream]
  exact {
    state := by rw [hall]
    data := by rw [hall]; rfl
    response := by rw [hall]; rfl
    each := by
      intro r hr
      obtain ⟨c, -, rfl⟩ := List.mem_map.mp hr
      exact length_reply c.answer
    count := List.length_map _ }

theorem split_negotiation_decodes :
    Decodes [.data [104, IAC], .negotiation ⟨.do_, OPT_SGA⟩, .subnegotiation [24, IAC]]
      [[104, IAC], [IAC, IAC, DO], [OPT_SGA, IAC, SB, 24, IAC], [IAC, IAC, SE]] :=
  chunks_decode _ _ rfl

end Telnet

-- The bytes written to the socket so far, when there is a socket.
def TelnetConnection.send (sock : Option QByteArray) (data : QByteArray) :
    Option QByteArray × Int :=
  match sock with
  | none => (none, -1)
  | some written => (some (written ++ data), data.length)

namespace Telnet

def sent (data : QByteArray) : QByteArray := ((TelnetConnection.send (some []) data).1).getD []

def Transparent (data : QByteArray) : Prop :=
  (process .data (sent data)).2 = { appData := data }

theorem sent_eq (data : QByteArray) : sent data = data := rfl

theorem processByte_length (st : St) (b : UInt8) :
    (processByte st {} b).2.appData.length ≤ 1 := by
  cases st <;> simp only [processByte] <;> (try split_ifs) <;> simp

theorem length_appData_le (st : St) (input : QByteArray) :
    (process st input).2.appData.length ≤ input.length := by
  induction input generalizing st with
  | nil => exact Nat.zero_le _
  | cons b input ih =>
    obtain ⟨st', r', hstep⟩ : ∃ st' r', processByte st {} b = (st', r') := ⟨_, _, rfl⟩
    have hone := processByte_length st b
    have hrest := ih st'
    rw [process_eq_run, run_cons, hstep, run_eq]
    rw [hstep] at hone
    simp only [Result.append, List.length_append, List.length_cons] at hone ⊢
    omega

theorem process_plain {data : QByteArray} (h : IAC ∉ data) :
    process .data data = (.data, { appData := data }) := by
  have hstuff : Stuffing.stuff IAC data = data := Stuffing.stuff_of_not_mem h
  rw [← hstuff, process_data, hstuff]

theorem length_lt_of_escape {data : QByteArray} (h : IAC ∈ data) :
    (process .data data).2.appData.length < data.length := by
  obtain ⟨pre, post, rfl, hpre⟩ := List.eq_append_cons_of_mem h
  have hrest := length_appData_le .iac post
  have hescape : process .data (IAC :: post) = process .iac post := rfl
  rw [process_append, process_plain hpre, hescape]
  simp only [Result.append, List.length_append, List.length_cons]
  omega

theorem transparent_iff (data : QByteArray) : Transparent data ↔ IAC ∉ data := by
  constructor
  · intro h hmem
    have hlt := length_lt_of_escape hmem
    rw [Transparent, sent_eq] at h
    rw [h] at hlt
    exact Nat.lt_irrefl _ hlt
  · intro h
    rw [Transparent, sent_eq, process_plain h]

theorem paste_negotiates :
    ¬Transparent [104, IAC, DO, OPT_SGA, 105] ∧
      process .data (sent [104, IAC, DO, OPT_SGA, 105]) =
        (.data, ⟨[104, 105], [IAC, WILL, OPT_SGA]⟩) := by
  refine ⟨?_, rfl⟩
  rw [Transparent]
  decide

end Telnet

end Connect
