import MacXterm.Sftp.FtpClient
import MacXterm.Qt.Trim
import MacXterm.Tools.Ftp.Server

namespace Sftp

open Qt

abbrev Verb := { v : QString // v ≠ [] ∧ ∀ c ∈ v, 'A' ≤ c ∧ c ≤ 'Z' }

-- One line at the server, cut into chunks in any way, which parses to what was sent.
def RoundTrip (toUpper : QString → QString) (verb : Verb) (arg : QString) : Prop :=
  ∀ chunks : List QByteArray, chunks.flatten = FtpClient.command verb.val arg →
    ∃ line, Lines.drain FtpClient.lineFeed chunks = [line] ∧
      Ftp.parse toUpper line = ⟨verb.val, arg, true⟩

namespace Verb

variable (verb : Verb)

theorem bounds {c : Char} (h : c ∈ verb.val) : 65 ≤ c.toNat ∧ c.toNat ≤ 90 := by
  simpa [Char.le_def, UInt32.le_iff_toNat_le] using verb.property.2 c h

theorem not_mem {c : Char} (h : c.toNat < 65 ∨ 90 < c.toNat) : c ∉ verb.val := by
  intro hc
  have hbounds := verb.bounds hc
  omega

theorem not_space {c : Char} (h : c ∈ verb.val) : isSpace c = false := by
  have hbounds := verb.bounds h
  simp only [isSpace, Bool.or_eq_false_iff, Bool.and_eq_false_iff, beq_eq_false_iff_ne,
    decide_eq_false_iff_not]
  omega

theorem flush : Flush verb.val :=
  ⟨fun _ h => verb.not_space (List.mem_of_head? h),
    fun _ h => verb.not_space (List.mem_of_getLast? h)⟩

theorem dropBom_append (t : QString) : dropBom (verb.val ++ t) = verb.val ++ t := by
  obtain ⟨c, v, hv⟩ := List.exists_cons_of_ne_nil verb.property.1
  have hc : c ≠ '\uFEFF' := by
    rintro rfl
    exact @not_mem verb '\uFEFF' (by decide) (hv ▸ List.mem_cons_self)
  rw [hv, List.cons_append]
  exact dropBom_cons hc

end Verb

def commandText (verb arg : QString) : QString :=
  verb ++ if arg = [] then [] else ' ' :: arg

theorem command_eq (verb arg : QString) :
    FtpClient.command verb arg = toUtf8 (commandText verb arg ++ ['\r', '\n']) := by
  rw [FtpClient.command, commandText, toUtf8_append, toUtf8_append]
  split
  · rfl
  · rfl

section Line

variable {toUpper : QString → QString} (verb : Verb)

theorem trimmed_command (arg : QString) :
    trimmed (dropBom (commandText verb.val arg ++ ['\r', '\n'])) =
      trimmed (commandText verb.val arg) := by
  rw [commandText, List.append_assoc, verb.dropBom_append, ← List.append_assoc,
    trimmed_back (List.all_eq_true.mp rfl)]

theorem commandText_nil (v : QString) : commandText v [] = v := List.append_nil v

theorem commandText_of_ne {arg : QString} (h : arg ≠ []) (v : QString) :
    commandText v arg = v ++ ' ' :: arg := by
  rw [commandText, if_neg h]

theorem blank_not_mem : ' ' ∉ verb.val := verb.not_mem (by decide)

theorem parse_command (hupper : toUpper verb.val = verb.val) {arg : QString}
    (h : ∀ c, arg.getLast? = some c → isSpace c = false) :
    Ftp.parse toUpper (FtpClient.command verb.val arg) = ⟨verb.val, arg, true⟩ := by
  have hne : verb.val ≠ [] := verb.property.1
  rw [Ftp.parse, command_eq, fromUtf8_toUtf8, trimmed_command]
  by_cases harg : arg = []
  · rw [harg, commandText_nil, trimmed_flush verb.flush, if_neg hne,
      findIdx?_of_not_mem (blank_not_mem verb)]
    simp [hupper, hne]
  · have hflush : Flush (verb.val ++ ' ' :: arg) := by
      constructor
      · intro c hc
        rw [List.head?_append_of_ne_nil _ hne] at hc
        exact verb.flush.1 c hc
      · intro c hc
        rw [List.getLast?_append_of_ne_nil _ (List.cons_ne_nil _ _),
          List.getLast?_cons_of_ne_nil harg] at hc
        exact h c hc
    rw [commandText_of_ne harg, trimmed_flush hflush, if_neg (by simp),
      findIdx?_append_cons (blank_not_mem verb)]
    simp [hupper, hne]

-- Blanks at the end are all that the server drops from an argument.
theorem parse_sent (hupper : toUpper verb.val = verb.val) (arg : QString) :
    ∃ kept, Ftp.parse toUpper (FtpClient.command verb.val arg) = ⟨verb.val, kept, true⟩ := by
  obtain ⟨front, back, hfront, hback, harg⟩ := exists_trimmed arg
  let kept := if trimmed arg = [] then [] else front ++ trimmed arg
  have hlast : ∀ d, kept.getLast? = some d → isSpace d = false := by
    intro d hd
    by_cases hnil : trimmed arg = []
    · rw [show kept = [] from if_pos hnil] at hd
      cases hd
    · rw [show kept = front ++ trimmed arg from if_neg hnil,
        List.getLast?_append_of_ne_nil _ hnil] at hd
      exact getLast?_trimmed hd
  have hsame : trimmed (commandText verb.val arg) = trimmed (commandText verb.val kept) := by
    by_cases hnil : trimmed arg = []
    · rw [show kept = [] from if_pos hnil, commandText_nil, commandText]
      rw [hnil, List.append_nil] at harg
      refine trimmed_back fun d hd => ?_
      split at hd
      · cases hd
      · rcases List.mem_cons.mp hd with rfl | hd
        · rfl
        · rcases List.mem_append.mp (harg ▸ hd) with hd | hd
          · exact hfront d hd
          · exact hback d hd
    · have hkept : arg = (front ++ trimmed arg) ++ back := harg
      rw [show kept = front ++ trimmed arg from if_neg hnil,
        commandText_of_ne fun h => hnil (by rw [h]; rfl), commandText_of_ne (by simp [hnil]),
        ← trimmed_back (s := verb.val ++ ' ' :: (front ++ trimmed arg)) hback, List.append_assoc,
        List.cons_append, ← hkept]
  have hparse := parse_command verb hupper hlast
  refine ⟨kept, ?_⟩
  rw [← hparse, Ftp.parse, Ftp.parse, command_eq, command_eq, fromUtf8_toUtf8, fromUtf8_toUtf8,
    trimmed_command, trimmed_command, hsame]

-- What the server takes for the argument ends where the trimmed line ends.
theorem getLast?_of_parse {line : QByteArray} {v arg : QString} {b : Bool}
    (h : Ftp.parse toUpper line = ⟨v, arg, b⟩) {c : Char} (hc : arg.getLast? = some c) :
    isSpace c = false := by
  have harg : (Ftp.parse toUpper line).arg = arg := by rw [h]
  rw [Ftp.parse] at harg
  split at harg
  · rw [← harg] at hc
    cases hc
  · split at harg
    · rw [← harg] at hc
      cases hc
    · rename_i sp hsp
      rw [← harg, List.getLast?_drop] at hc
      split at hc
      · cases hc
      · exact getLast?_trimmed hc

theorem command_line (verb arg : QString) :
    FtpClient.command verb arg =
      toUtf8 (commandText verb arg ++ ['\r']) ++ [FtpClient.lineFeed] := by
  have hbreak : (['\r', '\n'] : QString) = ['\r'] ++ ['\n'] := rfl
  rw [command_eq, hbreak, ← List.append_assoc, toUtf8_append _ ['\n']]
  rfl

theorem lineFeed_mem (arg : QString) :
    FtpClient.lineFeed ∈ toUtf8 (commandText verb.val arg ++ ['\r']) ↔ '\n' ∈ arg := by
  have hverb : '\n' ∉ verb.val := verb.not_mem (by decide)
  have hmem := @mem_toUtf8_ascii '\n' (by decide) (commandText verb.val arg ++ ['\r'])
  refine hmem.trans ?_
  cases arg with
  | nil => simp [commandText, hverb]
  | cons c cs => simp [commandText, hverb]

end Line

theorem command_round_trip_iff (toUpper : QString → QString) (verb : Verb) (arg : QString)
    (hupper : toUpper verb.val = verb.val) :
    RoundTrip toUpper verb arg ↔
      '\n' ∉ arg ∧ ∀ c, arg.getLast? = some c → isSpace c = false := by
  have hmem := lineFeed_mem verb arg
  constructor
  · intro h
    obtain ⟨line, hline, hparse⟩ := h [FtpClient.command verb.val arg] List.flatten_singleton
    have hlength := @Lines.length_drain _ _ FtpClient.lineFeed
      [FtpClient.command verb.val arg]
    rw [hline, List.flatten_singleton, command_line, List.count_append,
      List.count_singleton_self, List.length_singleton] at hlength
    refine ⟨?_, fun c hc => getLast?_of_parse hparse hc⟩
    rw [← hmem, ← List.count_eq_zero]
    omega
  · rintro ⟨hbreak, hlast⟩ chunks hchunks
    rw [command_line] at hchunks
    refine ⟨_, Lines.drain_line (fun h => hbreak (hmem.mp h)) hchunks, ?_⟩
    rw [← command_line]
    exact parse_command verb hupper hlast

def dele : Verb := ⟨"DELE", by simp⟩

theorem dele_round_trip : RoundTrip toUpper dele "/ two words" :=
  (command_round_trip_iff toUpper dele "/ two words" (by decide)).mpr
    ⟨by decide, by rintro c ⟨⟩; rfl⟩

def twoLines : QString := "/old\nDELE /new".toList

theorem line_break_sends_second_command :
    ¬ ∀ (toUpper : QString → QString) (verb : Verb) (arg : QString),
      toUpper verb.val = verb.val → RoundTrip toUpper verb arg := by
  intro h
  obtain ⟨line, hline, -⟩ :=
    h toUpper dele twoLines (by decide) [FtpClient.command dele.val twoLines] List.flatten_singleton
  have hlength := @Lines.length_drain _ _ FtpClient.lineFeed [FtpClient.command dele.val twoLines]
  have htwo : (FtpClient.command dele.val twoLines).count FtpClient.lineFeed = 2 := by decide
  rw [hline, List.flatten_singleton, htwo] at hlength
  cases hlength

end Sftp
