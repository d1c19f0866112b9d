import MacXterm.Lib.Escapes
import MacXterm.Lib.Mealy
import MacXterm.Qt.Text

namespace Term

open Qt Escapes

-- m_oscState
inductive OscState where
  | normal | sawEsc | body
deriving DecidableEq

structure OscScanner where
  oscState : OscState := .normal
  oscBuf : QByteArray := []
deriving DecidableEq

section Osc

-- QUrl(text).path()
variable (path : QString → QString)

-- The signal cwdChanged for what an OSC has buffered.
def cwdChanged (oscBuf : QByteArray) : List QString :=
  match oscBuf.findIdx? (· == 0x3B) with
  | none => []
  | some semi =>
      if 0 < semi ∧ oscBuf.take semi = [0x37] then
        let dir := path (fromUtf8 (oscBuf.drop (semi + 1)))
        if dir ≠ [] then [dir] else []
      else []

def oscByte (s : OscScanner) (b : UInt8) : OscScanner × List QString :=
  match s.oscState with
  | .normal => (if b = 0x1B then { s with oscState := .sawEsc } else s, [])
  | .sawEsc => (if b = 0x5D then ⟨.body, []⟩ else { s with oscState := .normal }, [])
  | .body =>
      if b = 0x07 ∨ b = 0x1B then
        (⟨if b = 0x1B then .sawEsc else .normal, []⟩, cwdChanged path s.oscBuf)
      else
        ({ s with oscBuf := if s.oscBuf.length < 4096 then s.oscBuf ++ [b] else s.oscBuf }, [])

-- The signals of one call after another.
def scanOsc (s : OscScanner) : List QByteArray → List QString
  | [] => []
  | bytes :: chunks =>
      Mealy.outputs (oscByte path) s bytes ++ scanOsc (Mealy.after (oscByte path) s bytes) chunks

-- What an OSC of the command 7 reports: the path of its url, where there is one.
def cwdOf : QByteArray → List QString
  | 0x37 :: 0x3B :: url =>
      let dir := path (fromUtf8 url)
      if dir ≠ [] then [dir] else []
  | _ => []

-- The text of an OSC; it ends at the BEL, if there is one, or with the sequence.
def oscText (body : QByteArray) : QByteArray := body.takeWhile (· ≠ 0x07)

-- Terminated by BEL or ESC \, neither aborted by CAN or SUB nor longer than an OSC may be.
def complete (body rest : QByteArray) : Bool :=
  (body.contains 0x07 || rest.take 2 == [0x1B, 0x5C]) &&
    (oscText body).all (fun b => b != 0x18 && b != 0x1A) && (oscText body).length ≤ 4096

-- What the sequence reports before the rest of the stream, which begins with the next escape.
def reported (rest : QByteArray) : QByteArray → List QString
  | 0x5D :: body => if complete body rest then cwdOf path (oscText body) else []
  | _ => []

def reports : QByteArray → List QString
  | [] => []
  | b :: bs =>
      if b = 0x1B then
        reported path (bs.dropWhile (· ≠ 0x1B)) (bs.takeWhile (· ≠ 0x1B)) ++ reports bs
      else reports bs

end Osc

-- Whether the scanner takes up the sequence after `before`: it is deaf to the one after ESC ESC.
def oscListening (before : QByteArray) : Bool :=
  (sequences 0x1B before).foldl (fun heard seq => !(heard && seq == [])) true

structure IsSequence (stream before seq rest : QByteArray) : Prop where
  split : stream = before ++ 0x1B :: (seq ++ rest)
  seq_plain : 0x1B ∉ seq
  rest_next : rest = [] ∨ ∃ more, rest = 0x1B :: more

section Exact

variable (path : QString → QString)

-- The signals sent while the scanner reads the sequence and the escape that ends it.
def emittedFor (before seq rest : QByteArray) : List QString :=
  Mealy.outputs (oscByte path) (Mealy.after (oscByte path) {} (before ++ [0x1B]))
    (seq ++ rest.take 1)

-- Each sequence gives its own report and no other, and so does the stream in every chunking.
structure ReportsExact (stream : QByteArray) : Prop where
  each : ∀ before seq rest, IsSequence stream before seq rest →
    emittedFor path before seq rest = reported path rest seq
  all : ∀ chunks : List QByteArray, chunks.flatten = stream →
    scanOsc path {} chunks = reports path stream

-- A complete report is listened to, and what is listened to as a report is complete.
def Scannable (heard : Bool) (rest : QByteArray) : QByteArray → Prop
  | 0x5D :: body =>
      (complete body rest = true → cwdOf path (oscText body) ≠ [] → heard = true) ∧
        (heard = true → 0x07 ∈ body ∨ rest ≠ [] →
          cwdOf path ((oscText body).take 4096) ≠ [] → complete body rest = true)
  | _ => True

end Exact

-- What the scanner sends for a sequence it has taken up, and for the escape that may end it.
def signalled (path : QString → QString) (ending : QByteArray) : QByteArray → List QString
  | 0x5D :: body =>
      if 0x07 ∈ body ∨ ending ≠ [] then cwdOf path ((oscText body).take 4096) else []
  | _ => []

section Scanning

variable {path : QString → QString} {s : OscScanner} {seq : QByteArray}

theorem cwdOf_ne {b c : UInt8} (bs : QByteArray) (h : b ≠ 0x37 ∨ c ≠ 0x3B) :
    cwdOf path (b :: c :: bs) = [] := by
  rw [cwdOf.eq_def]
  split
  · next heq =>
    cases heq
    simp at h
  · rfl

theorem cwdOf_singleton (b : UInt8) : cwdOf path [b] = [] := by
  rw [cwdOf.eq_def]
  split
  · next heq => cases heq
  · rfl

theorem cwdChanged_eq (path : QString → QString) (oscBuf : QByteArray) :
    cwdChanged path oscBuf = cwdOf path oscBuf := by
  cases oscBuf with
  | nil => rfl
  | cons b bs =>
    rw [cwdChanged, List.findIdx?_cons]
    by_cases hb : b = 0x3B
    · subst hb
      cases bs with
      | nil => rfl
      | cons c cs =>
        rw [cwdOf_ne cs (.inl (by decide))]
        rfl
    · rw [if_neg (by simpa using hb)]
      cases bs with
      | nil =>
        rw [cwdOf_singleton]
        rfl
      | cons c cs =>
        rw [List.findIdx?_cons]
        by_cases hc : c = 0x3B
        · rw [if_pos (by simpa using hc)]
          by_cases hseven : b = 0x37
          · subst hc hseven
            rfl
          · rw [cwdOf_ne cs (.inl hseven)]
            simp [hseven]
        · rw [if_neg (by simpa using hc), cwdOf_ne cs (.inr hc)]
          cases cs.findIdx? (· == 0x3B) with
          | none => rfl
          | some i => simp

theorem scan_plain (path : QString → QString) (hs : s.oscState = .normal) (hseq : 0x1B ∉ seq) :
    Mealy.after (oscByte path) s seq = s ∧ Mealy.outputs (oscByte path) s seq = [] := by
  induction seq with
  | nil => exact ⟨rfl, rfl⟩
  | cons b bs ih =>
    rw [List.mem_cons, not_or] at hseq
    have hstep : oscByte path s b = (s, []) := by
      rw [oscByte, hs]
      exact congrArg (·, []) (if_neg (Ne.symm hseq.1))
    rw [Mealy.after_cons, Mealy.outputs_cons, hstep]
    exact ih hseq.2

theorem ending_plain {ending : QByteArray} (hs : s.oscState ≠ .body)
    (hending : ending = [] ∨ ending = [0x1B]) : Mealy.outputs (oscByte path) s ending = [] := by
  rcases hending with rfl | rfl
  · rfl
  · rw [Mealy.outputs_cons, oscByte]
    cases hstate : s.oscState with
    | normal => rfl
    | sawEsc => rfl
    | body => exact absurd hstate hs

-- After the bracket: `text` is what was read so far, of which the first 4096 bytes are kept.
theorem scan_text (path : QString → QString) (text : QByteArray) (hs : s.oscState = .body)
    (hbuf : s.oscBuf = text.take 4096)
    (hseq : 0x1B ∉ seq) (ending : QByteArray) (hending : ending = [] ∨ ending = [0x1B]) :
    (Mealy.after (oscByte path) s seq).oscState ≠ .sawEsc ∧
      Mealy.outputs (oscByte path) s (seq ++ ending) =
        if 0x07 ∈ seq ∨ ending ≠ [] then cwdOf path ((text ++ oscText seq).take 4096) else [] := by
  induction seq generalizing s text with
  | nil =>
    refine ⟨by rw [Mealy.after, List.foldl_nil, hs]; decide, ?_⟩
    rcases hending with rfl | rfl
    · rw [if_neg (by simp)]
      rfl
    · have hstep : oscByte path s 0x1B = (⟨.sawEsc, []⟩, cwdOf path (text.take 4096)) := by
        rw [oscByte, hs, ← hbuf, ← cwdChanged_eq]
        rfl
      rw [if_pos (.inr (List.cons_ne_nil _ _)), List.nil_append, Mealy.outputs_cons, hstep, oscText,
        List.takeWhile_nil, List.append_nil]
      exact List.append_nil _
  | cons b bs ih =>
    rw [List.mem_cons, not_or] at hseq
    rw [List.cons_append, Mealy.after_cons, Mealy.outputs_cons]
    by_cases hbel : b = 0x07
    · have hstep : oscByte path s b = (⟨.normal, []⟩, cwdOf path (text.take 4096)) := by
        rw [oscByte, hs, ← hbuf, ← cwdChanged_eq, hbel]
        rfl
      obtain ⟨hafter, houtputs⟩ := scan_plain path (s := ⟨.normal, []⟩) rfl hseq.2
      rw [hstep, hafter, Mealy.outputs_append, houtputs, hafter,
        ending_plain (by decide) hending, if_pos (.inl (hbel ▸ List.mem_cons_self)), oscText,
        List.takeWhile_cons, if_neg (by simp [hbel])]
      exact ⟨by decide, by simp⟩
    · have hstep : oscByte path s b = (⟨.body, (text ++ [b]).take 4096⟩, []) := by
        rw [oscByte, hs]
        dsimp only
        rw [if_neg (not_or.mpr ⟨hbel, Ne.symm hseq.1⟩), hbuf, take_concat]
      have hmem : 0x07 ∈ b :: bs ↔ 0x07 ∈ bs := by
        rw [List.mem_cons]
        exact or_iff_right (Ne.symm hbel)
      have htext : oscText (b :: bs) = b :: oscText bs := by
        rw [oscText, List.takeWhile_cons, if_pos (by simpa using hbel), oscText]
      obtain ⟨hafter, houtputs⟩ :=
        ih (s := ⟨.body, (text ++ [b]).take 4096⟩) (text ++ [b]) rfl rfl hseq.2
      rw [hstep, houtputs, htext, List.append_assoc, List.singleton_append]
      refine ⟨hafter, ?_⟩
      simp only [hmem]
      rfl

-- One whole sequence, for a scanner that has taken up its escape.
theorem scan_osc (hs : s.oscState = .sawEsc) (hseq : 0x1B ∉ seq) (ending : QByteArray)
    (hending : ending = [] ∨ ending = [0x1B]) :
    ((Mealy.after (oscByte path) s seq).oscState = .sawEsc ↔ seq = []) ∧
      Mealy.outputs (oscByte path) s (seq ++ ending) = signalled path ending seq := by
  cases seq with
  | nil =>
    refine ⟨iff_of_true hs rfl, ?_⟩
    exact ending_plain (by rw [hs]; decide) hending
  | cons b bs =>
    rw [List.mem_cons, not_or] at hseq
    rw [List.cons_append, Mealy.after_cons, Mealy.outputs_cons]
    by_cases hb : b = 0x5D
    · subst hb
      have hstep : oscByte path s 0x5D = (⟨.body, []⟩, []) := by
        rw [oscByte, hs]
        rfl
      obtain ⟨hafter, houtputs⟩ :=
        scan_text path (s := ⟨.body, []⟩) [] rfl rfl hseq.2 ending hending
      rw [hstep]
      exact ⟨iff_of_false hafter nofun, houtputs⟩
    · have hstep : oscByte path s b = ({ s with oscState := .normal }, []) := by
        rw [oscByte, hs]
        dsimp only
        rw [if_neg hb]
      obtain ⟨hafter, houtputs⟩ :=
        scan_plain path (s := { s with oscState := .normal }) rfl hseq.2
      rw [hstep, hafter, Mealy.outputs_append, houtputs, hafter,
        ending_plain (by dsimp only; decide) hending]
      refine ⟨iff_of_false (by dsimp only; decide) nofun, ?_⟩
      rw [signalled.eq_def]
      split
      · next heq => exact absurd (List.cons.inj heq).1 hb
      · rfl

end Scanning

section Stream

variable (path : QString → QString)

theorem oscState_escape (s : OscScanner) :
    (Mealy.after (oscByte path) s [0x1B]).oscState =
      if s.oscState = .sawEsc then .normal else .sawEsc := by
  obtain ⟨state, buf⟩ := s
  cases state <;> rfl

theorem heard_iff (before : QByteArray) :
    (Mealy.after (oscByte path) {} before).oscState ≠ .sawEsc ↔ oscListening before = true := by
  induction before using sequence_induction (0x1B : UInt8) with
  | text bs hbs =>
    rw [(scan_plain _ rfl hbs).1, oscListening, sequences_of_not_mem hbs]
    exact iff_of_true (by decide) rfl
  | sequence before seq hseq ih =>
    have hlisten : oscListening (before ++ 0x1B :: seq) =
        !(oscListening before && seq == []) := by
      rw [oscListening, sequences_concat before hseq, List.foldl_append]
      rfl
    have hescape := oscState_escape path (Mealy.after (oscByte path) {} before)
    have hafter : Mealy.after (oscByte path) {} (before ++ 0x1B :: seq) =
        Mealy.after (oscByte path) (Mealy.after (oscByte path)
          (Mealy.after (oscByte path) {} before) [0x1B]) seq := by
      rw [Mealy.after_append, ← List.singleton_append, Mealy.after_append]
    rw [hlisten, hafter]
    cases hheard : oscListening before with
    | true =>
      rw [if_neg (ih.mpr hheard)] at hescape
      rw [ne_eq, (scan_osc hescape hseq [] (.inl rfl)).1]
      simp
    | false =>
      rw [if_pos (not_not.mp fun hne => Bool.false_ne_true (hheard ▸ ih.mp hne))] at hescape
      rw [(scan_plain _ hescape hseq).1, hescape]
      simp

theorem emittedFor_eq {stream before seq rest : QByteArray} (h : IsSequence stream before seq rest) :
    emittedFor path before seq rest =
      if oscListening before then signalled path (rest.take 1) seq else [] := by
  have hending : rest.take 1 = [] ∨ rest.take 1 = [0x1B] := by
    rcases h.rest_next with rfl | ⟨more, rfl⟩
    · exact .inl rfl
    · exact .inr rfl
  have hescape := oscState_escape path (Mealy.after (oscByte path) {} before)
  rw [emittedFor, Mealy.after_append]
  split
  · next hheard =>
    rw [if_neg ((heard_iff path before).mpr hheard)] at hescape
    exact (scan_osc hescape h.seq_plain _ hending).2
  · next hheard =>
    rw [if_pos (not_not.mp fun hne => hheard ((heard_iff path before).mp hne))] at hescape
    obtain ⟨hafter, houtputs⟩ := scan_plain path hescape h.seq_plain
    rw [Mealy.outputs_append, houtputs, hafter, ending_plain (by rw [hescape]; decide) hending]
    rfl

theorem complete_ended {body rest : QByteArray} (h : complete body rest = true) :
    (0x07 ∈ body ∨ rest ≠ []) ∧ (oscText body).length ≤ 4096 := by
  simp only [complete, Bool.and_eq_true, Bool.or_eq_true, List.contains_eq_mem,
    decide_eq_true_eq, beq_iff_eq] at h
  refine ⟨h.1.1.imp id ?_, h.2⟩
  rintro htake rfl
  cases htake

theorem scannable_iff (heard : Bool) (rest seq : QByteArray) :
    (if heard then signalled path (rest.take 1) seq else []) = reported path rest seq ↔
      Scannable path heard rest seq := by
  have hrest : rest.take 1 ≠ [] ↔ rest ≠ [] := by
    cases rest with
    | nil => exact Iff.rfl
    | cons b bs => exact iff_of_true nofun nofun
  by_cases hosc : ∃ body, seq = 0x5D :: body
  · obtain ⟨body, rfl⟩ := hosc
    rw [signalled, reported, Scannable]
    simp only [hrest]
    cases hcomplete : complete body rest with
    | true =>
      obtain ⟨hended, hlength⟩ := complete_ended hcomplete
      rw [if_pos hended, List.take_of_length_le hlength]
      cases heard with
      | true => simp
      | false => cases cwdOf path (oscText body) <;> simp
    | false =>
      cases heard with
      | true => simp
      | false => simp
  · have hsignalled : signalled path (rest.take 1) seq = [] := by
      rw [signalled.eq_def]
      split
      · exact absurd ⟨_, rfl⟩ hosc
      · rfl
    have hreported : reported path rest seq = [] := by
      rw [reported.eq_def]
      split
      · exact absurd ⟨_, rfl⟩ hosc
      · rfl
    have hscannable : Scannable path heard rest seq := by
      rw [Scannable.eq_def]
      split
      · exact absurd ⟨_, rfl⟩ hosc
      · trivial
    rw [hsignalled, hreported, ite_self]
    exact iff_of_true rfl hscannable

theorem scanOsc_eq (s : OscScanner) (chunks : List QByteArray) :
    scanOsc path s chunks = Mealy.outputs (oscByte path) s chunks.flatten := by
  induction chunks generalizing s with
  | nil => rfl
  | cons bytes chunks ih => rw [scanOsc, ih, List.flatten_cons, Mealy.outputs_append]

theorem reports_escape (r : QByteArray) :
    reports path (0x1B :: r) =
      reported path (r.dropWhile (· ≠ 0x1B)) (r.takeWhile (· ≠ 0x1B)) ++ reports path r := by
  rw [reports, if_pos rfl]

theorem reports_skip {text : QByteArray} (h : 0x1B ∉ text) (r : QByteArray) :
    reports path (text ++ r) = reports path r := by
  induction text with
  | nil => rfl
  | cons b bs ih =>
    rw [List.mem_cons, not_or] at h
    rw [List.cons_append, reports, if_neg (Ne.symm h.1), ih h.2]

-- From the escape on that ends `before`, if each sequence gives its own report.
theorem outputs_from {stream : QByteArray}
    (heach : ∀ before seq rest, IsSequence stream before seq rest →
      emittedFor path before seq rest = reported path rest seq)
    (before r : QByteArray) (hstream : stream = before ++ 0x1B :: r) :
    Mealy.outputs (oscByte path) (Mealy.after (oscByte path) {} (before ++ [0x1B])) r =
      reports path (0x1B :: r) := by
  induction hn : r.length using Nat.strong_induction_on generalizing before r with
  | _ n ih =>
    rw [reports_escape]
    have hsplit := List.takeWhile_append_dropWhile (p := (· ≠ 0x1B)) (l := r)
    have hseq : 0x1B ∉ r.takeWhile (· ≠ 0x1B) := not_mem_takeWhile r
    have hrest : r.dropWhile (· ≠ 0x1B) = [] ∨ ∃ more, r.dropWhile (· ≠ 0x1B) = 0x1B :: more :=
      dropWhile_cases r
    generalize r.takeWhile (· ≠ 0x1B) = seq at hsplit hseq
    generalize r.dropWhile (· ≠ 0x1B) = rest at hsplit hrest
    subst hsplit
    rw [← heach before seq rest ⟨hstream, hseq, hrest⟩, emittedFor, reports_skip path hseq]
    rcases hrest with rfl | ⟨more, rfl⟩
    · exact (List.append_nil _).symm
    · have hnext := ih more.length (by rw [← hn, List.length_append, List.length_cons]; omega)
        (before ++ 0x1B :: seq) more (by rw [hstream, List.append_assoc, List.cons_append]) rfl
      have happ : seq ++ 0x1B :: more = (seq ++ [0x1B]) ++ more := by
        rw [List.append_assoc, List.singleton_append]
      rw [← hnext, happ, Mealy.outputs_append, ← Mealy.after_append]
      congr 2
      simp

theorem outputs_eq_reports {stream : QByteArray}
    (heach : ∀ before seq rest, IsSequence stream before seq rest →
      emittedFor path before seq rest = reported path rest seq) :
    Mealy.outputs (oscByte path) {} stream = reports path stream := by
  by_cases h : 0x1B ∈ stream
  · obtain ⟨text, r, hstream, htext⟩ := List.eq_append_cons_of_mem h
    obtain ⟨hafter, houtputs⟩ := scan_plain path (s := {}) rfl htext
    have hfrom := outputs_from path heach text r hstream
    rw [Mealy.after_append, hafter] at hfrom
    rw [hstream, reports_skip path htext, Mealy.outputs_append, houtputs, hafter, ← hfrom]
    rfl
  · have hskip := reports_skip path h []
    rw [List.append_nil] at hskip
    rw [hskip, (scan_plain path rfl h).2]
    rfl

end Stream

theorem cwd_reports_iff (path : QString → QString) (stream : QByteArray) :
    ReportsExact path stream ↔
      ∀ before seq rest, IsSequence stream before seq rest →
        Scannable path (oscListening before) rest seq := by
  constructor
  · intro h before seq rest hsequence
    have heach := h.each before seq rest hsequence
    rw [emittedFor_eq path hsequence] at heach
    exact (scannable_iff path _ rest seq).mp heach
  · intro h
    have heach : ∀ before seq rest, IsSequence stream before seq rest →
        emittedFor path before seq rest = reported path rest seq := by
      intro before seq rest hsequence
      rw [emittedFor_eq path hsequence]
      exact (scannable_iff path _ rest seq).mpr (h before seq rest hsequence)
    refine ⟨heach, fun chunks hchunks => ?_⟩
    rw [scanOsc_eq, hchunks, outputs_eq_reports path heach]

-- ESC ] 7 ; / t ESC [ m
def abortedReport : QByteArray := [0x1B, 0x5D, 0x37, 0x3B, 0x2F, 0x74, 0x1B, 0x5B, 0x6D]

theorem aborted_report_sent :
    scanOsc id {} [abortedReport] = ["/t".toList] ∧ reports id abortedReport = [] ∧
      ¬ ∀ (path : QString → QString) (stream : QByteArray), ReportsExact path stream := by
  have hcode : scanOsc id {} [abortedReport] = ["/t".toList] := by decide
  have hspec : reports id abortedReport = [] := by decide
  refine ⟨hcode, hspec, fun h => ?_⟩
  have hall := (h id abortedReport).all [abortedReport] (List.flatten_singleton ..)
  rw [hcode, hspec] at hall
  cases hall

end Term
