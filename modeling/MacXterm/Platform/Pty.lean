import MacXterm.Lib.CommandLine
import MacXterm.Qt.Text

namespace Platform.Pty

open Qt CommandLine

-- What is written so far, and the run of backslashes that still waits to be written.
def quoteStep (s : QString × Nat) (c : Char) : QString × Nat :=
  if c = '\\' then (s.1, s.2 + 1)
  else if c = '"' then (s.1 ++ List.replicate (s.2 * 2 + 1) '\\' ++ [c], 0)
  else (s.1 ++ List.replicate s.2 '\\' ++ [c], 0)

def winQuoteArg (arg : QString) : QString :=
  if arg ≠ [] ∧ ' ' ∉ arg ∧ '\t' ∉ arg ∧ '"' ∉ arg then arg
  else
    let (out, backslashes) := arg.foldl quoteStep (['"'], 0)
    out ++ List.replicate (backslashes * 2) '\\' ++ ['"']

def commandLine (program : QString) (args : List QString) : QString :=
  args.foldl (fun line a => line ++ ' ' :: winQuoteArg a) (winQuoteArg program)

def msvcrt : Alphabet Char where
  slash := '\\'
  quote := '"'
  blank c := c = ' ' || c = '\t'
  slash_ne_quote := by decide
  blank_slash := by decide
  blank_quote := by decide

-- The lexer is inside the quotes; it has read all but the run that waits.
structure Written (args : List QString) (arg : QString) (s : QString × Nat) : Prop where
  text : ∃ front, run msvcrt (.between args) s.1 = .inside args front true 0 ∧
    front ++ List.replicate s.2 '\\' = arg

variable {args : List QString}

theorem written_start : Written args [] (['"'], 0) := ⟨[], rfl, rfl⟩

theorem written_step {arg : QString} {s : QString × Nat} (h : Written args arg s) (c : Char) :
    Written args (arg ++ [c]) (quoteStep s c) := by
  obtain ⟨front, hrun, hfront⟩ := h.text
  have hslashes (n : Nat) : run msvcrt (.between args) (s.1 ++ List.replicate n '\\') =
      .inside args front true n := by
    have hmore : run msvcrt (.inside args front true 0) (List.replicate n '\\') =
        .inside args front true (0 + n) := run_slashes n
    rw [run_append, hrun, hmore, Nat.zero_add]
  rw [quoteStep]
  split_ifs with hslash hquote
  · refine ⟨front, hrun, ?_⟩
    rw [List.replicate_succ', ← List.append_assoc, hfront, hslash]
  · have hliteral : step msvcrt (.inside args front true (2 * s.2 + 1)) '"' =
        .inside args (front ++ List.replicate s.2 '\\' ++ ['"']) true 0 := step_literal_quote s.2
    refine ⟨arg ++ [c], ?_, List.append_nil _⟩
    rw [run_append, hslashes, run_singleton, hquote, Nat.mul_comm s.2, hliteral, hfront]
  · have htext : step msvcrt (.inside args front true s.2) c =
        .inside args (front ++ List.replicate s.2 '\\' ++ [c]) true 0 :=
      step_text hslash hquote (Bool.and_false _)
    refine ⟨arg ++ [c], ?_, List.append_nil _⟩
    rw [run_append, hslashes, run_singleton, htext, hfront]

theorem written_foldl {arg more : QString} {s : QString × Nat} (h : Written args arg s) :
    Written args (arg ++ more) (more.foldl quoteStep s) := by
  induction more generalizing arg s with
  | nil => rwa [List.append_nil]
  | cons c more ih =>
    have hnext := ih (written_step h c)
    rwa [List.append_assoc, List.singleton_append] at hnext

theorem reads_winQuoteArg (args : List QString) (arg : QString) :
    Reads msvcrt args arg (run msvcrt (.between args) (winQuoteArg arg)) := by
  rw [winQuoteArg]
  split_ifs with hplain
  · obtain ⟨hne, hspace, htab, hquote⟩ := hplain
    refine reads_plain hne hquote fun c hc => ?_
    have hsep : c ≠ ' ' ∧ c ≠ '\t' :=
      ⟨fun h => hspace (h ▸ hc), fun h => htab (h ▸ hc)⟩
    simp [msvcrt, hsep]
  · obtain ⟨out, backslashes, hout⟩ : ∃ out n, arg.foldl quoteStep (['"'], 0) = (out, n) :=
      ⟨_, _, rfl⟩
    have hwritten : Written args ([] ++ arg) (arg.foldl quoteStep (['"'], 0)) :=
      written_foldl written_start
    rw [List.nil_append, hout] at hwritten
    obtain ⟨front, hrun, hfront⟩ := hwritten.text
    have hslashes : run msvcrt (.inside args front true 0) (List.replicate (backslashes * 2) '\\') =
        .inside args front true (0 + backslashes * 2) := run_slashes _
    have hclose : step msvcrt (.inside args front true (2 * backslashes)) '"' =
        .inside args (front ++ List.replicate backslashes '\\') false 0 :=
      step_delimiter backslashes
    rw [hout]
    dsimp only at hrun hfront ⊢
    rw [run_append, run_append, hrun, hslashes, Nat.zero_add, Nat.mul_comm, run_singleton, hclose,
      hfront]
    exact .inside arg 0 (List.append_nil _)

theorem commandLine_recovered (program : QString) (args : List QString) :
    arguments msvcrt (commandLine program args) = program :: args :=
  run_line (A := msvcrt) rfl reads_winQuoteArg args (reads_winQuoteArg [] program)

end Platform.Pty
