import MacXterm.Qt.Text

namespace Core

open Qt

structure CliOptions where
  exec : QString := []
  bookmark : QString := []
  runMacro : QString := []
  configPath : QString := []
  openFolder : QString := []
  logPath : QString := []
  shortcutsPath : QString := []
  dpi : Int := 0
  newTab : Bool := false
  noX : Bool := false
  hideTerm : Bool := false
  exitWhenDone : Bool := false
deriving DecidableEq

namespace CliOptions

inductive Destination where
  | exec | bookmark | runMacro | configPath | openFolder | logPath | shortcutsPath
deriving DecidableEq

def assign (o : CliOptions) (v : QString) : Destination → CliOptions
  | .exec => { o with exec := v }
  | .bookmark => { o with bookmark := v }
  | .runMacro => { o with runMacro := v }
  | .configPath => { o with configPath := v }
  | .openFolder => { o with openFolder := v }
  | .logPath => { o with logPath := v }
  | .shortcutsPath => { o with shortcutsPath := v }

def valueFlags : List (QString × Destination) :=
  [("-exec", .exec), ("-bookmark", .bookmark), ("-runmacro", .runMacro), ("-i", .configPath),
    ("-config", .configPath), ("-openfolder", .openFolder), ("-log", .logPath),
    ("-shortcuts", .shortcutsPath)]

-- The flag and the value behind its '=', empty without one.
def inlineValue (arg : QString) : QString × QString :=
  match arg.findIdx? (· == '=') with
  | some eq => if arg.head? = some '-' ∧ 0 < eq then (arg.take eq, arg.drop (eq + 1)) else (arg, [])
  | none => (arg, [])

-- The second component: whether the argument behind was taken as the value.
def handle (o : CliOptions) (arg : QString) (next : Option QString) : CliOptions × Bool :=
  let (a, inlineVal) := inlineValue arg
  if a = ("-newtab" : String) then ({ o with newTab := true }, false)
  else if a = ("-noX" : String) then ({ o with noX := true }, false)
  else if a = ("-hideterm" : String) then ({ o with hideTerm := true }, false)
  else if a = ("-exitwhendone" : String) then ({ o with exitWhenDone := true }, false)
  else if a = ("-dpi" : String) then
    if inlineVal ≠ [] then ({ o with dpi := (toInt inlineVal).getD 0 }, false)
    else
      match next with
      | some v => ({ o with dpi := (toInt v).getD 0 }, true)
      | none => ({ o with dpi := (toInt []).getD 0 }, false)
  else
    match valueFlags.lookup a with
    | none => (o, false)
    | some dst =>
        if inlineVal ≠ [] then (o.assign inlineVal dst, false)
        else
          match next with
          | some v => (o.assign v dst, true)
          | none => (o, false)

def loop (o : CliOptions) : List QString → CliOptions
  | [] => o
  | [arg] => (handle o arg none).1
  | arg :: next :: rest =>
      let r := handle o arg (some next)
      if r.2 then loop r.1 rest else loop r.1 (next :: rest)

def parse (args : List QString) : CliOptions := loop {} args

def takesNext (arg : QString) : Bool := (handle {} arg (some [])).2

-- Whether the loop reads what comes behind these arguments as an argument of its own.
def settled : List QString → Bool
  | [] => true
  | [arg] => !takesNext arg
  | arg :: next :: rest => if takesNext arg then settled rest else settled (next :: rest)

inductive ValueFlag where
  | exec | bookmark | runMacro | i | config | openFolder | log | shortcuts | dpi
deriving DecidableEq

namespace ValueFlag

def text : ValueFlag → QString
  | exec => ("-exec" : String)
  | bookmark => ("-bookmark" : String)
  | runMacro => ("-runmacro" : String)
  | i => ("-i" : String)
  | config => ("-config" : String)
  | openFolder => ("-openfolder" : String)
  | log => ("-log" : String)
  | shortcuts => ("-shortcuts" : String)
  | dpi => ("-dpi" : String)

def inline (f : ValueFlag) (v : QString) : QString := f.text ++ '=' :: v

def set (f : ValueFlag) (o : CliOptions) (v : QString) : CliOptions :=
  match f with
  | exec => { o with exec := v }
  | bookmark => { o with bookmark := v }
  | runMacro => { o with runMacro := v }
  | i | config => { o with configPath := v }
  | openFolder => { o with openFolder := v }
  | log => { o with logPath := v }
  | shortcuts => { o with shortcutsPath := v }
  | dpi => { o with dpi := (toInt v).getD 0 }

end ValueFlag

-- An argument acts by itself, or takes the one behind it where there is one.
def ActsOrTakes (step : CliOptions → Option QString → CliOptions × Bool) : Prop :=
  (∃ act : CliOptions → CliOptions, ∀ o next, step o next = (act o, false)) ∨
    ∃ take : CliOptions → Option QString → CliOptions,
      ∀ o next, step o next = (take o next, next.isSome)

namespace ActsOrTakes

variable {s t : CliOptions → Option QString → CliOptions × Bool}

theorem acts (act : CliOptions → CliOptions) : ActsOrTakes fun o _ => (act o, false) :=
  .inl ⟨act, fun _ _ => rfl⟩

theorem ite {c : Prop} [Decidable c] (hs : ActsOrTakes s) (ht : ActsOrTakes t) :
    ActsOrTakes fun o next => if c then s o next else t o next := by
  by_cases hc : c
  · simpa only [if_pos hc] using hs
  · simpa only [if_neg hc] using ht

theorem takes {given : CliOptions → QString → CliOptions} {missing : CliOptions → CliOptions}
    (hs : ∀ o v, s o (some v) = (given o v, true)) (hnone : ∀ o, s o none = (missing o, false)) :
    ActsOrTakes s := by
  refine .inr ⟨fun o next => next.elim (missing o) (given o), fun o next => ?_⟩
  cases next with
  | none => exact hnone o
  | some v => exact hs o v

end ActsOrTakes

theorem handle_cases (arg : QString) :
    (∃ act : CliOptions → CliOptions, ∀ o next, handle o arg next = (act o, false)) ∨
      ∃ take : CliOptions → Option QString → CliOptions,
        ∀ o next, handle o arg next = (take o next, next.isSome) := by
  change ActsOrTakes fun o next => handle o arg next
  unfold handle
  generalize inlineValue arg = parts
  obtain ⟨a, inlineVal⟩ := parts
  refine .ite (.acts _) (.ite (.acts _) (.ite (.acts _) (.ite (.acts _) (.ite ?_ ?_))))
  · exact .ite (.acts _) (.takes (fun _ _ => rfl) fun _ => rfl)
  · cases valueFlags.lookup a with
    | none => exact .acts _
    | some dst => exact .ite (.acts _) (.takes (fun _ _ => rfl) fun _ => rfl)

theorem takes_handle (o : CliOptions) (arg v : QString) :
    (handle o arg (some v)).2 = takesNext arg := by
  rw [takesNext]
  rcases handle_cases arg with ⟨act, hact⟩ | ⟨take, htake⟩
  · rw [hact, hact]
  · rw [htake, htake]
    rfl

theorem handle_none {arg : QString} (h : takesNext arg = false) (o : CliOptions) (v : QString) :
    handle o arg (some v) = handle o arg none := by
  rw [takesNext] at h
  rcases handle_cases arg with ⟨act, hact⟩ | ⟨take, htake⟩
  · rw [hact, hact]
  · rw [htake] at h
    exact absurd h (by simp)

theorem loop_append (pre post : List QString) (o : CliOptions) (h : settled pre = true) :
    loop o (pre ++ post) = loop (loop o pre) post := by
  induction pre using settled.induct generalizing o with
  | case1 => rfl
  | case2 arg =>
    rw [settled, Bool.not_eq_true'] at h
    cases post with
    | nil => rfl
    | cons next rest =>
      have htakes := takes_handle o arg next
      rw [h, handle_none h] at htakes
      rw [List.singleton_append]
      simp only [loop, handle_none h, htakes, Bool.false_eq_true, if_false]
  | case3 arg next rest htakes ih =>
    rw [settled, if_pos htakes] at h
    have hhandle := takes_handle o arg next
    rw [htakes] at hhandle
    rw [List.cons_append, List.cons_append, loop, loop, hhandle]
    exact ih _ h
  | case4 arg next rest htakes ih =>
    rw [settled, if_neg htakes] at h
    have hhandle := takes_handle o arg next
    rw [Bool.not_eq_true] at htakes
    rw [htakes] at hhandle
    rw [List.cons_append, List.cons_append, loop, loop, hhandle]
    exact ih _ h

theorem settled_append (pre post : List QString) (h : settled pre = true) :
    settled (pre ++ post) = settled post := by
  induction pre using settled.induct with
  | case1 => rfl
  | case2 arg =>
    rw [settled, Bool.not_eq_true'] at h
    cases post with
    | nil => simp [settled, h]
    | cons next rest => simp [settled, h]
  | case3 arg next rest htakes ih =>
    rw [settled, if_pos htakes] at h
    rw [List.cons_append, List.cons_append, settled, if_pos htakes]
    exact ih h
  | case4 arg next rest htakes ih =>
    rw [settled, if_neg htakes] at h
    rw [List.cons_append, List.cons_append, settled, if_neg htakes]
    exact ih h

theorem inlineValue_inline (f : ValueFlag) (v : QString) :
    inlineValue (f.inline v) = (f.text, v) := by
  have hnone : '=' ∉ f.text := by cases f <;> decide
  have hhead : (f.inline v).head? = some '-' ∧ 0 < f.text.length := by
    cases f <;> exact ⟨rfl, by decide⟩
  have hdrop : (f.inline v).drop (f.text.length + 1) = v := by
    rw [ValueFlag.inline, ← List.drop_drop, List.drop_left]
    rfl
  rw [inlineValue, ValueFlag.inline, findIdx?_append_cons hnone, ← ValueFlag.inline]
  dsimp only
  rw [if_pos hhead, hdrop, ValueFlag.inline, List.take_left]

theorem handle_text (f : ValueFlag) (o : CliOptions) (v : QString) :
    handle o f.text (some v) = (f.set o v, true) := by
  cases f <;> rfl

theorem handle_inline (f : ValueFlag) {v : QString} (hv : v ≠ []) (o : CliOptions)
    (next : Option QString) : handle o (f.inline v) next = (f.set o v, false) := by
  obtain ⟨c, cs, rfl⟩ := List.exists_cons_of_ne_nil hv
  unfold handle
  rw [inlineValue_inline]
  cases f <;> rfl

theorem takes_text (f : ValueFlag) : takesNext f.text = true := by
  rw [takesNext, handle_text]

theorem takes_inline (f : ValueFlag) {v : QString} (hv : v ≠ []) :
    takesNext (f.inline v) = false := by
  rw [takesNext, handle_inline f hv]

-- Where the loop reads f as a flag; elsewhere f is the value of the flag before it.
structure FormsAgree (f : ValueFlag) (v : QString) : Prop where
  same : ∀ pre post, settled pre = true →
    parse (pre ++ f.text :: v :: post) = parse (pre ++ f.inline v :: post)
  own : ∀ pre, settled pre = true →
    settled (pre ++ [f.text, v]) = true ∧ settled (pre ++ [f.inline v]) = true

theorem loop_text (f : ValueFlag) (o : CliOptions) (v : QString) (post : List QString) :
    loop o (f.text :: v :: post) = loop (f.set o v) post := by
  rw [loop, handle_text]
  rfl

theorem loop_inline (f : ValueFlag) {v : QString} (hv : v ≠ []) (o : CliOptions)
    (post : List QString) : loop o (f.inline v :: post) = loop (f.set o v) post := by
  cases post with
  | nil => rw [loop, loop, handle_inline f hv]
  | cons next rest =>
    rw [loop, handle_inline f hv]
    rfl

theorem forms_agree_iff (f : ValueFlag) (v : QString) : FormsAgree f v ↔ v ≠ [] := by
  constructor
  · rintro h rfl
    have hinline := (h.own [] rfl).2
    have htakes : takesNext (f.inline []) = true := by cases f <;> rfl
    rw [List.nil_append, settled, htakes] at hinline
    exact absurd hinline (by decide)
  · intro hv
    refine ⟨fun pre post hpre => ?_, fun pre hpre => ?_⟩
    · rw [parse, parse, loop_append pre _ _ hpre, loop_append pre _ _ hpre, loop_text,
        loop_inline f hv]
    · rw [settled_append pre _ hpre, settled_append pre _ hpre, settled, settled,
        if_pos (takes_text f), takes_inline f hv]
      exact ⟨rfl, rfl⟩

theorem empty_value_swallows :
    ¬FormsAgree .exec [] ∧
      (parse [ValueFlag.exec.inline [], "-newtab".toList]).newTab = false ∧
      (parse [ValueFlag.exec.text, [], "-newtab".toList]).newTab = true := by
  have hswallowed : (parse [ValueFlag.exec.inline [], "-newtab".toList]).newTab = false := by decide
  have hkept : (parse [ValueFlag.exec.text, [], "-newtab".toList]).newTab = true := by decide
  refine ⟨fun h => ?_, hswallowed, hkept⟩
  have hsame := h.same [] ["-newtab".toList] rfl
  rw [List.nil_append, List.nil_append] at hsame
  rw [hsame, hswallowed] at hkept
  exact absurd hkept (by decide)

end CliOptions

end Core
