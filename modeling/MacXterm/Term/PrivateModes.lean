import MacXterm.Lib.Escapes
import MacXterm.Qt.Number
import MacXterm.Ui.TerminalWidget

namespace Term

open Qt Escapes
open Ui (MouseEncoding)

inductive MouseTracking where
  | none | x10 | normal | buttonEvent | anyMotion
deriving DecidableEq

@[ext] structure Modes where
  bracketedPaste : Bool := false
  mouseTracking : MouseTracking := .none
  mouseEncoding : MouseEncoding := .default
deriving DecidableEq

-- m_csiState
inductive CsiState where
  | normal | sawEsc | sawBracket | body
deriving DecidableEq

structure ModeScanner where
  csiState : CsiState := .normal
  csiParams : QByteArray := []
  modes : Modes := {}
deriving DecidableEq

namespace Modes

def setMode (m : Modes) (set : Bool) (mode : Int) : Modes :=
  let tracking (t : MouseTracking) := if set then t else .none
  let encoding (e : MouseEncoding) := if set then e else .default
  if mode = 2004 then { m with bracketedPaste := set }
  else if mode = 9 then { m with mouseTracking := tracking .x10 }
  else if mode = 1000 then { m with mouseTracking := tracking .normal }
  else if mode = 1002 then { m with mouseTracking := tracking .buttonEvent }
  else if mode = 1003 then { m with mouseTracking := tracking .anyMotion }
  else if mode = 1005 then { m with mouseEncoding := encoding .utf8 }
  else if mode = 1006 then { m with mouseEncoding := encoding .sgr }
  else if mode = 1015 then { m with mouseEncoding := encoding .urxvt }
  else m

def latin1 (bytes : QByteArray) : QString := bytes.map fun b => Char.ofNat b.toNat

-- params.split(';'), and toInt() on each
def setParams (m : Modes) (set : Bool) (params : QByteArray) : Modes :=
  (params.splitOn 0x3B).foldl (fun m p => m.setMode set ((toInt (latin1 p)).getD 0)) m

end Modes

def isParam (b : UInt8) : Bool := 0x30 ≤ b && b ≤ 0x39 || b == 0x3B

namespace ModeScanner

def scanByte (s : ModeScanner) (b : UInt8) : ModeScanner :=
  match s.csiState with
  | .normal => if b = 0x1B then { s with csiState := .sawEsc } else s
  | .sawEsc => { s with csiState := if b = 0x5B then .sawBracket else .normal }
  | .sawBracket =>
      if b = 0x3F then { s with csiState := .body, csiParams := [] }
      else { s with csiState := .normal }
  | .body =>
      if b = 0x68 ∨ b = 0x6C then
        { s with csiState := .normal, modes := s.modes.setParams (b == 0x68) s.csiParams }
      else if isParam b then
        { s with csiParams := if s.csiParams.length < 64 then s.csiParams ++ [b] else s.csiParams }
      else if b = 0x1B then { s with csiState := .sawEsc }
      else { s with csiState := .normal }

def scanPrivateModes (s : ModeScanner) (bytes : QByteArray) : ModeScanner := bytes.foldl scanByte s

def inputs (s : ModeScanner) (chunks : List QByteArray) : ModeScanner :=
  chunks.foldl scanPrivateModes s

end ModeScanner

-- What a parser obeys of one sequence, the bytes after an escape.
inductive Command where
  | privateModes (set : Bool) (params : QByteArray)
  | fullReset
deriving DecidableEq

-- The parameters up to the final h or l.
def paramsThen : QByteArray → Option (Bool × QByteArray)
  | [] => none
  | b :: bs =>
      if b = 0x68 then some (true, [])
      else if b = 0x6C then some (false, [])
      else if isParam b then (paramsThen bs).map fun r => (r.1, b :: r.2)
      else none

def verbatim : QByteArray → Option (Bool × QByteArray)
  | 0x5B :: 0x3F :: rest => paramsThen rest
  | _ => none

-- The controls that a parser carries out, or leaves out, amid a sequence; CAN and SUB abort it.
def isInert (b : UInt8) : Bool := b < 0x20 && b != 0x18 && b != 0x1A && b != 0x1B || b == 0x7F

def recognise (seq : QByteArray) : Option Command :=
  match seq.filter fun b => !isInert b with
  | 0x63 :: _ => some .fullReset
  | body => (verbatim body).map fun r => .privateModes r.1 r.2

def paramValue (p : QByteArray) : Nat := Nat.ofDigitChars 10 (Modes.latin1 p) 0

namespace Modes

def apply (m : Modes) : Command → Modes
  | .privateModes set params =>
      (params.splitOn 0x3B).foldl (fun m p => m.setMode set (paramValue p)) m
  | .fullReset => {}

end Modes

-- The modes that the sequences of a stream leave.
def specModes (stream : QByteArray) : Modes :=
  (sequences 0x1B stream).foldl (fun m seq => (recognise seq).elim m m.apply) {}

-- Whether the scanner takes up the sequence after `before`: it is deaf to the one after ESC ESC or
-- ESC [ ESC.
def listening (before : QByteArray) : Bool :=
  (sequences 0x1B before).foldl (fun heard seq => !(heard && (seq == [] || seq == [0x5B]))) true

-- The sequence is seen whole, or it asks for what is so already.
def Heeded (heard : Bool) (m : Modes) (seq : QByteArray) : Prop :=
  match recognise seq with
  | none => True
  | some command =>
      match heard, verbatim seq with
      | true, some (set, params) =>
          m.apply (.privateModes set (params.take 64)) = m.apply (.privateModes set params)
      | _, _ => m.apply command = m

section Numbers

variable {m : Modes} {set : Bool} {p : QByteArray}

theorem setMode_large {mode : Int} (h : 2 ^ 31 ≤ mode) : m.setMode set mode = m := by
  rw [Modes.setMode]
  dsimp only
  rw [if_neg (by omega), if_neg (by omega), if_neg (by omega), if_neg (by omega),
    if_neg (by omega), if_neg (by omega), if_neg (by omega), if_neg (by omega)]

theorem isDigit_latin1 {b : UInt8} (hb : isParam b = true) (hsep : b ≠ 0x3B) :
    (Char.ofNat b.toNat).isDigit = true := by
  have hrange : 0x30 ≤ b.toNat ∧ b.toNat ≤ 0x39 := by
    simpa [isParam, hsep, UInt8.le_iff_toNat_le] using hb
  have hvalid : b.toNat.isValidChar := .inl (by omega)
  rw [isDigit_iff, Char.ofNat, dif_pos hvalid]
  exact hrange

theorem setMode_toInt (h : ∀ c ∈ Modes.latin1 p, c.isDigit = true) :
    m.setMode set ((toInt (Modes.latin1 p)).getD 0) = m.setMode set (paramValue p) := by
  by_cases hnil : Modes.latin1 p = []
  · rw [paramValue, hnil, toInt_nil]
    rfl
  · rw [toInt_eq, decimal_eq h hnil, paramValue, Option.filter_some]
    split
    · rfl
    · next hlarge =>
      have hbound : 2 ^ 31 ≤ (Nat.ofDigitChars 10 (Modes.latin1 p) 0 : Int) := by
        simp only [Bool.and_eq_true, decide_eq_true_eq, not_and] at hlarge
        have hnot := hlarge (by omega)
        omega
      exact (setMode_large hbound).symm

theorem setParams_eq {params : QByteArray} (h : ∀ b ∈ params, isParam b = true) :
    m.setParams set params = m.apply (.privateModes set params) := by
  refine List.foldl_ext _ _ _ fun m p hp => setMode_toInt fun c hc => ?_
  obtain ⟨hsep, hsub⟩ := mem_splitOn hp
  obtain ⟨b, hb, rfl⟩ := List.mem_map.mp hc
  exact isDigit_latin1 (h b (hsub hb)) fun heq => hsep (heq ▸ hb)

end Numbers

section Sequences

theorem isParam_of_paramsThen {bs : QByteArray} {r : Bool × QByteArray}
    (h : paramsThen bs = some r) : ∀ b ∈ r.2, isParam b = true := by
  induction bs generalizing r with
  | nil => cases h
  | cons b bs ih =>
    rw [paramsThen] at h
    split at h
    · cases h
      exact nofun
    · split at h
      · cases h
        exact nofun
      · split at h
        · next hparam =>
          obtain ⟨r', hr', rfl⟩ := Option.map_eq_some_iff.mp h
          exact List.forall_mem_cons.mpr ⟨hparam, ih hr'⟩
        · cases h

theorem not_inert {b : UInt8} (hlow : 0x20 ≤ b) (hdel : b ≠ 0x7F) : (!isInert b) = true := by
  have hnot : ¬b < 0x20 := UInt8.not_lt.mpr hlow
  simp [isInert, hnot, hdel]

theorem not_inert_of_isParam {b : UInt8} (h : isParam b = true) : (!isInert b) = true := by
  simp only [isParam, Bool.or_eq_true, Bool.and_eq_true, decide_eq_true_eq, beq_iff_eq,
    UInt8.le_iff_toNat_le] at h
  refine not_inert ?_ ?_
  · rw [UInt8.le_iff_toNat_le]
    rcases h with ⟨h, -⟩ | rfl
    · exact Nat.le_trans (by decide) h
    · decide
  · rintro rfl
    revert h
    decide

theorem paramsThen_filter {bs : QByteArray} {r : Bool × QByteArray} (h : paramsThen bs = some r) :
    paramsThen (bs.filter fun b => !isInert b) = some r := by
  induction bs generalizing r with
  | nil => cases h
  | cons b bs ih =>
    rw [paramsThen] at h
    split at h
    · next hset =>
      subst hset
      exact h
    · next hset =>
      split at h
      · next hreset =>
        subst hreset
        exact h
      · next hreset =>
        split at h
        · next hparam =>
          obtain ⟨r', hr', rfl⟩ := Option.map_eq_some_iff.mp h
          have hkeep := not_inert_of_isParam hparam
          rw [List.filter_cons, if_pos hkeep, paramsThen, if_neg hset, if_neg hreset,
            if_pos hparam, ih hr', Option.map_some]
        · cases h

theorem verbatim_cons (b c : UInt8) (rest : QByteArray) :
    verbatim (b :: c :: rest) = if b = 0x5B ∧ c = 0x3F then paramsThen rest else none := by
  rw [verbatim.eq_def]
  split
  · next heq =>
    cases heq
    rfl
  · next hne => rw [if_neg fun h => hne rest (by rw [h.1, h.2])]

theorem verbatim_some {seq : QByteArray} {r : Bool × QByteArray} (h : verbatim seq = some r) :
    ∃ rest, seq = 0x5B :: 0x3F :: rest ∧ paramsThen rest = some r := by
  rw [verbatim.eq_def] at h
  split at h
  · exact ⟨_, rfl, h⟩
  · cases h

theorem recognise_verbatim {seq : QByteArray} {r : Bool × QByteArray}
    (h : verbatim seq = some r) : recognise seq = some (.privateModes r.1 r.2) := by
  obtain ⟨rest, rfl, hrest⟩ := verbatim_some h
  rw [recognise, List.filter_cons_of_pos rfl, List.filter_cons_of_pos rfl]
  change (paramsThen _).map _ = _
  rw [paramsThen_filter hrest, Option.map_some]

end Sequences

section Scanning

namespace ModeScanner

def hears (s : ModeScanner) : Bool := s.csiState == .normal || s.csiState == .body

variable {s : ModeScanner} {seq : QByteArray}

theorem scan_cons (s : ModeScanner) (b : UInt8) (bs : QByteArray) :
    s.scanPrivateModes (b :: bs) = (s.scanByte b).scanPrivateModes bs := rfl

theorem scan_normal (hs : s.csiState = .normal) (hseq : 0x1B ∉ seq) :
    s.scanPrivateModes seq = s := by
  induction seq with
  | nil => rfl
  | cons b bs ih =>
    rw [List.mem_cons, not_or] at hseq
    have hstep : s.scanByte b = s := by
      rw [scanByte, hs]
      exact if_neg (Ne.symm hseq.1)
    rw [scan_cons, hstep, ih hseq.2]

-- After the question mark: `params` are those seen so far, of which the first 64 are kept.
theorem scan_body (params : QByteArray) (hs : s.csiState = .body)
    (hparams : s.csiParams = params.take 64) (hseq : 0x1B ∉ seq) :
    (s.scanPrivateModes seq).hears = true ∧
      (s.scanPrivateModes seq).modes = (paramsThen seq).elim s.modes fun r =>
        s.modes.setParams r.1 ((params ++ r.2).take 64) := by
  induction seq generalizing s params with
  | nil => exact ⟨by rw [hears, show (s.scanPrivateModes []).csiState = .body from hs]; rfl, rfl⟩
  | cons b bs ih =>
    rw [List.mem_cons, not_or] at hseq
    rw [scan_cons, scanByte, hs, paramsThen]
    dsimp only
    by_cases hset : b = 0x68
    · rw [if_pos (.inl hset), if_pos hset, scan_normal rfl hseq.2, hparams, hset]
      exact ⟨rfl, by rw [Option.elim_some, List.append_nil]; rfl⟩
    · by_cases hreset : b = 0x6C
      · rw [if_pos (.inr hreset), if_neg hset, if_pos hreset, scan_normal rfl hseq.2, hparams,
          hreset]
        exact ⟨rfl, by rw [Option.elim_some, List.append_nil]; rfl⟩
      · rw [if_neg (not_or.mpr ⟨hset, hreset⟩), if_neg hset, if_neg hreset]
        split
        · have hnext : (if s.csiParams.length < 64 then s.csiParams ++ [b] else s.csiParams) =
              (params ++ [b]).take 64 := by rw [hparams, take_concat]
          obtain ⟨hhears, hmodes⟩ := ih (s := { s with
            csiState := .body
            csiParams := if s.csiParams.length < 64 then s.csiParams ++ [b] else s.csiParams })
            (params ++ [b]) rfl hnext hseq.2
          refine ⟨hhears, hmodes.trans ?_⟩
          cases paramsThen bs with
          | none => rfl
          | some r => rw [Option.map_some, Option.elim_some, Option.elim_some, List.append_assoc]; rfl
        · rw [if_neg (Ne.symm hseq.1), scan_normal rfl hseq.2]
          exact ⟨rfl, rfl⟩

-- One whole sequence, for a scanner that has taken up its escape.
theorem scan_sequence (hs : s.csiState = .sawEsc) (hseq : 0x1B ∉ seq) :
    (s.scanPrivateModes seq).hears = !(seq == [] || seq == [0x5B]) ∧
      (s.scanPrivateModes seq).modes = (verbatim seq).elim s.modes fun r =>
        s.modes.setParams r.1 (r.2.take 64) := by
  cases seq with
  | nil => exact ⟨by rw [hears, show (s.scanPrivateModes []).csiState = .sawEsc from hs]; rfl, rfl⟩
  | cons b bs =>
    rw [List.mem_cons, not_or] at hseq
    rw [scan_cons, scanByte, hs]
    dsimp only
    by_cases hb : b = 0x5B
    · cases bs with
      | nil =>
        rw [if_pos hb, hb]
        exact ⟨rfl, rfl⟩
      | cons c rest =>
        rw [List.mem_cons, not_or] at hseq
        rw [if_pos hb, scan_cons, scanByte, verbatim_cons]
        dsimp only
        by_cases hc : c = 0x3F
        · rw [if_pos hc, if_pos ⟨hb, hc⟩]
          obtain ⟨hhears, hmodes⟩ := scan_body (s := { s with csiState := .body, csiParams := [] })
            [] rfl rfl hseq.2.2
          exact ⟨hhears.trans (by simp), hmodes⟩
        · rw [if_neg hc, if_neg fun h => hc h.2, scan_normal rfl hseq.2.2]
          exact ⟨by simp [hears], rfl⟩
    · rw [if_neg hb, scan_normal rfl hseq.2]
      refine ⟨by simp [hears, hb], ?_⟩
      have hnone : verbatim (b :: bs) = none := by
        cases hv : verbatim (b :: bs) with
        | none => rfl
        | some r =>
          obtain ⟨rest, heq, -⟩ := verbatim_some hv
          exact absurd (List.cons.inj heq).1 hb
      rw [hnone]
      rfl

theorem scan_append (s : ModeScanner) (bs cs : QByteArray) :
    s.scanPrivateModes (bs ++ cs) = (s.scanPrivateModes bs).scanPrivateModes cs :=
  List.foldl_append

theorem inputs_eq (s : ModeScanner) (chunks : List QByteArray) :
    s.inputs chunks = s.scanPrivateModes chunks.flatten := List.foldl_flatten.symm

theorem scanByte_esc (s : ModeScanner) :
    s.scanByte 0x1B = { s with csiState := if s.hears then .sawEsc else .normal } := by
  obtain ⟨state, params, modes⟩ := s
  cases state <;> rfl

-- The sequence after `s`, heard or not.
theorem scan_escape (s : ModeScanner) (hseq : 0x1B ∉ seq) :
    (s.scanPrivateModes (0x1B :: seq)).hears = !(s.hears && (seq == [] || seq == [0x5B])) ∧
      (s.scanPrivateModes (0x1B :: seq)).modes =
        if s.hears then
          (verbatim seq).elim s.modes fun r => s.modes.setParams r.1 (r.2.take 64)
        else s.modes := by
  rw [scan_cons, scanByte_esc]
  cases s.hears with
  | true => exact scan_sequence (s := { s with csiState := .sawEsc }) rfl hseq
  | false =>
    have hstay := scan_normal (s := { s with csiState := .normal }) rfl hseq
    rw [if_neg Bool.false_ne_true, if_neg Bool.false_ne_true, hstay]
    exact ⟨rfl, rfl⟩

end ModeScanner

end Scanning

section Stream

variable {before seq : QByteArray}

theorem listening_concat (before : QByteArray) (hseq : 0x1B ∉ seq) :
    listening (before ++ 0x1B :: seq) =
      !(listening before && (seq == [] || seq == [0x5B])) := by
  rw [listening, sequences_concat before hseq, List.foldl_append]
  rfl

theorem specModes_concat (before : QByteArray) (hseq : 0x1B ∉ seq) :
    specModes (before ++ 0x1B :: seq) =
      (recognise seq).elim (specModes before) (specModes before).apply := by
  rw [specModes, sequences_concat before hseq, List.foldl_append]
  rfl

theorem hears_eq (before : QByteArray) :
    (ModeScanner.scanPrivateModes {} before).hears = listening before := by
  induction before using sequence_induction (0x1B : UInt8) with
  | text bs hbs =>
    rw [ModeScanner.scan_normal rfl hbs, listening, sequences_of_not_mem hbs]
    rfl
  | sequence before seq hseq ih =>
    rw [ModeScanner.scan_append, (ModeScanner.scan_escape _ hseq).1, ih, listening_concat _ hseq]

def Tracked (stream : QByteArray) : Prop :=
  (ModeScanner.scanPrivateModes {} stream).modes = specModes stream

theorem tracked_text {bs : QByteArray} (h : 0x1B ∉ bs) : Tracked bs := by
  rw [Tracked, ModeScanner.scan_normal rfl h, specModes, sequences_of_not_mem h]
  rfl

-- One more sequence after a stream that was followed.
theorem tracked_concat (h : Tracked before) (hseq : 0x1B ∉ seq) :
    Tracked (before ++ 0x1B :: seq) ↔ Heeded (listening before) (specModes before) seq := by
  rw [Tracked] at h
  rw [Tracked, specModes_concat before hseq, ModeScanner.scan_append,
    (ModeScanner.scan_escape _ hseq).2, hears_eq, h, Heeded]
  generalize specModes before = m
  cases hverbatim : verbatim seq with
  | none =>
    cases recognise seq with
    | none => simp
    | some command =>
      cases listening before with
      | true => exact eq_comm
      | false => exact eq_comm
  | some r =>
    obtain ⟨rest, -, hrest⟩ := verbatim_some hverbatim
    have hparams : ∀ b ∈ r.2.take 64, isParam b = true :=
      fun b hb => isParam_of_paramsThen hrest b (List.mem_of_mem_take hb)
    rw [recognise_verbatim hverbatim]
    cases listening before with
    | true =>
      rw [if_pos rfl, Option.elim_some, Option.elim_some, setParams_eq hparams]
    | false => exact eq_comm

end Stream

-- ESC ESC [ ? 2 0 0 4 h
def twoEscapes : QByteArray := [0x1B, 0x1B, 0x5B, 0x3F, 0x32, 0x30, 0x30, 0x34, 0x68]

end Term
