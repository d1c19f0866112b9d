import Mathlib.Data.List.Basic

namespace CommandLine

structure Alphabet (α : Type) where
  slash : α
  quote : α
  blank : α → Bool
  slash_ne_quote : slash ≠ quote
  blank_slash : blank slash = false
  blank_quote : blank quote = false

-- slashes: how many of them were read last and still wait for what follows.
inductive Lexer (α : Type) where
  | between (args : List (List α))
  | inside (args : List (List α)) (arg : List α) (quoted : Bool) (slashes : Nat)

variable {α : Type} [DecidableEq α] (A : Alphabet α)

def read (args : List (List α)) (arg : List α) (quoted : Bool) (slashes : Nat) (c : α) : Lexer α :=
  if c = A.slash then .inside args arg quoted (slashes + 1)
  else if c = A.quote then
    if slashes % 2 = 0 then
      .inside args (arg ++ List.replicate (slashes / 2) A.slash) (!quoted) 0
    else .inside args (arg ++ List.replicate (slashes / 2) A.slash ++ [c]) quoted 0
  else if A.blank c && !quoted then .between (args ++ [arg ++ List.replicate slashes A.slash])
  else .inside args (arg ++ List.replicate slashes A.slash ++ [c]) quoted 0

def step : Lexer α → α → Lexer α
  | .between args, c => if A.blank c then .between args else read A args [] false 0 c
  | .inside args arg quoted slashes, c => read A args arg quoted slashes c

def run (s : Lexer α) (line : List α) : Lexer α := line.foldl (step A) s

def finish : Lexer α → List (List α)
  | .between args => args
  | .inside args arg _ slashes => args ++ [arg ++ List.replicate slashes A.slash]

def arguments (line : List α) : List (List α) := finish A (run A (.between []) line)

section Run

variable {A} {args : List (List α)} {arg : List α} {quoted : Bool} {slashes n : Nat} {c : α}

theorem run_append (s : Lexer α) (a b : List α) : run A s (a ++ b) = run A (run A s a) b :=
  List.foldl_append

theorem run_singleton (s : Lexer α) (c : α) : run A s [c] = step A s c := rfl

theorem run_slashes (n : Nat) :
    run A (.inside args arg quoted slashes) (List.replicate n A.slash) =
      .inside args arg quoted (slashes + n) := by
  induction n generalizing slashes with
  | zero => rfl
  | succ n ih =>
    have hstep : step A (.inside args arg quoted slashes) A.slash =
        .inside args arg quoted (slashes + 1) := if_pos rfl
    rw [List.replicate_succ, run, List.foldl_cons, hstep, ← run, ih, Nat.add_assoc, Nat.add_comm 1]

theorem step_delimiter (n : Nat) :
    step A (.inside args arg quoted (2 * n)) A.quote =
      .inside args (arg ++ List.replicate n A.slash) (!quoted) 0 := by
  rw [step, read, if_neg (Ne.symm A.slash_ne_quote), if_pos rfl, if_pos (by omega),
    Nat.mul_div_cancel_left n (by decide)]

theorem step_literal_quote (n : Nat) :
    step A (.inside args arg quoted (2 * n + 1)) A.quote =
      .inside args (arg ++ List.replicate n A.slash ++ [A.quote]) quoted 0 := by
  rw [step, read, if_neg (Ne.symm A.slash_ne_quote), if_pos rfl, if_neg (by omega),
    show (2 * n + 1) / 2 = n by omega]

theorem step_text (hslash : c ≠ A.slash) (hquote : c ≠ A.quote)
    (hblank : (A.blank c && !quoted) = false) :
    step A (.inside args arg quoted slashes) c =
      .inside args (arg ++ List.replicate slashes A.slash ++ [c]) quoted 0 := by
  rw [step, read, if_neg hslash, if_neg hquote, hblank]
  rfl

theorem step_blank (hblank : A.blank c = true) :
    step A (.inside args arg false slashes) c =
      .between (args ++ [arg ++ List.replicate slashes A.slash]) := by
  have hslash : c ≠ A.slash := by
    rintro rfl
    exact Bool.false_ne_true (A.blank_slash.symm.trans hblank)
  have hquote : c ≠ A.quote := by
    rintro rfl
    exact Bool.false_ne_true (A.blank_quote.symm.trans hblank)
  rw [step, read, if_neg hslash, if_neg hquote, hblank]
  rfl

theorem step_between (hblank : A.blank c = false) :
    step A (.between args) c = step A (.inside args [] false 0) c := by
  rw [step, hblank]
  rfl

end Run

-- The argument read so far, where its last slashes may still be waiting.
inductive Reads (args : List (List α)) (arg : List α) : Lexer α → Prop where
  | inside (front : List α) (n : Nat) (h : front ++ List.replicate n A.slash = arg) :
      Reads args arg (.inside args front false n)

namespace Reads

variable {A} {args : List (List α)} {arg : List α} {s : Lexer α} {c : α}

omit [DecidableEq α] in
theorem finish (h : Reads A args arg s) : finish A s = args ++ [arg] := by
  cases h with
  | inside front n h => rw [CommandLine.finish, h]

theorem blank (h : Reads A args arg s) (hc : A.blank c = true) :
    step A s c = .between (args ++ [arg]) := by
  cases h with
  | inside front n h => rw [step_blank hc, h]

theorem text (h : Reads A args arg s) (hquote : c ≠ A.quote) (hblank : A.blank c = false) :
    Reads A args (arg ++ [c]) (step A s c) := by
  cases h with
  | inside front n h =>
    by_cases hslash : c = A.slash
    · have hstep : step A (.inside args front false n) c = .inside args front false (n + 1) :=
        if_pos hslash
      rw [hstep]
      refine .inside front (n + 1) ?_
      rw [List.replicate_succ', ← List.append_assoc, h, hslash]
    · rw [step_text hslash hquote (by rw [hblank]; rfl), h]
      exact .inside (arg ++ [c]) 0 (List.append_nil _)

theorem plain {text : List α} (h : Reads A args arg s) (hquote : A.quote ∉ text)
    (hblank : ∀ c ∈ text, A.blank c = false) : Reads A args (arg ++ text) (run A s text) := by
  induction text generalizing arg s with
  | nil => rwa [List.append_nil]
  | cons c text ih =>
    rw [List.mem_cons, not_or] at hquote
    obtain ⟨hc, htext⟩ := List.forall_mem_cons.mp hblank
    have hnext := ih (h.text (Ne.symm hquote.1) hc) hquote.2 htext
    rwa [List.append_assoc, List.singleton_append] at hnext

end Reads

variable {A}

theorem reads_plain {args : List (List α)} {text : List α} (hne : text ≠ [])
    (hquote : A.quote ∉ text) (hblank : ∀ c ∈ text, A.blank c = false) :
    Reads A args text (run A (.between args) text) := by
  obtain ⟨c, cs, rfl⟩ := List.exists_cons_of_ne_nil hne
  have hstart : Reads A args [] (.inside args [] false 0) := .inside [] 0 rfl
  have hrun : run A (.between args) (c :: cs) = run A (.inside args [] false 0) (c :: cs) :=
    congrArg (run A · cs) (step_between (hblank c List.mem_cons_self))
  rw [hrun]
  exact hstart.plain hquote hblank

-- Arguments written one after another behind a blank each, in a form that the lexer reads back.
theorem run_line {write : List α → List α} {sep : α} (hsep : A.blank sep = true)
    (hwrite : ∀ args arg, Reads A args arg (run A (.between args) (write arg)))
    {before : List (List α)} {first line : List α} (args : List (List α))
    (hline : Reads A before first (run A (.between []) line)) :
    finish A (run A (.between []) (args.foldl (fun line a => line ++ sep :: write a) line)) =
      before ++ first :: args := by
  induction args generalizing before first line with
  | nil => exact hline.finish
  | cons a args ih =>
    have hnext : Reads A (before ++ [first]) a (run A (.between []) (line ++ sep :: write a)) := by
      have hrun : run A (.between []) (line ++ sep :: write a) =
          run A (.between (before ++ [first])) (write a) := by
        rw [run_append, ← hline.blank hsep]
        rfl
      rw [hrun]
      exact hwrite _ a
    rw [List.foldl_cons, ih hnext, List.append_assoc, List.singleton_append]

end CommandLine
