import Mathlib.Data.List.Basic
import Mathlib.Data.List.Infix

namespace Core

namespace CygPath

abbrev QChar := UInt16

abbrev Units := List QChar

-- What QChar knows of letters and case; only its ASCII part is used as such.
structure CaseTable where
  isLetter : QChar → Bool
  toLower : QChar → QChar
  toUpper : QChar → QChar
  letter_ascii : ∀ c, 0x41 ≤ c → c ≤ 0x5A → isLetter c = true
  lower_ascii : ∀ c, 0x41 ≤ c → c ≤ 0x5A → toLower c = c + 0x20
  upper_ascii : ∀ c, 0x61 ≤ c → c ≤ 0x7A → toUpper c = c - 0x20

def slash : QChar := 0x2F

def backslash : QChar := 0x5C

def colon : QChar := 0x3A

def latin1 (s : String) : Units := s.toList.map fun c => UInt16.ofNat c.toNat

def drives : Units := latin1 "/drives/"

def cygdrive : Units := latin1 "/cygdrive/"

def replace (p : Units) (before after : QChar) : Units :=
  p.map fun c => if c = before then after else c

def stripSlashes (p : Units) : Units := p.dropWhile (· == slash)

def windowsToPosix (t : CaseTable) (winPath : Units) : Units :=
  if winPath = [] then winPath
  else
    let p := replace winPath backslash slash
    if (latin1 "//").isPrefixOf p then p
    else
      match p with
      | c :: d :: rest =>
          if d = colon ∧ t.isLetter c = true then
            let rest := stripSlashes rest
            drives ++ [t.toLower c] ++ if rest = [] then [] else slash :: rest
          else p
      | _ => p

def underRoot (p : Units) : Option Units :=
  if drives.isPrefixOf p then some (p.drop drives.length)
  else if cygdrive.isPrefixOf p then some (p.drop cygdrive.length)
  else none

def posixToWindows (t : CaseTable) (posixPath : Units) : Units :=
  if posixPath = [] then posixPath
  else
    let p := replace posixPath backslash slash
    match underRoot p with
    | none => p
    | some [] => p
    | some (c :: tail) =>
        [t.toUpper c, colon, backslash] ++ replace (stripSlashes tail) slash backslash

structure DrivePath where
  drive : QChar
  upper : 0x41 ≤ drive ∧ drive ≤ 0x5A
  components : List Units
  plain : ∀ c ∈ components, c ≠ [] ∧ slash ∉ c ∧ backslash ∉ c

def joined (sep : QChar) (components : List Units) : Units := [sep].intercalate components

def DrivePath.text (d : DrivePath) : Units :=
  d.drive :: colon :: backslash :: joined backslash d.components

def normalise (p : Units) : Units := replace p backslash slash

def SingleLetter (t : CaseTable) (rest : Units) : Prop :=
  ∃ c, t.isLetter c = true ∧ rest.takeWhile (· != slash) = [c]

def RoundTrips (t : CaseTable) (d : DrivePath) : Prop :=
  posixToWindows t (windowsToPosix t d.text) = d.text

-- Unless the first component under a root is one letter, only slashes may turn.
def Keeps (t : CaseTable) (p : Units) : Prop :=
  ¬(∃ rest, underRoot (normalise p) = some rest ∧ SingleLetter t rest) →
    normalise (posixToWindows t p) = normalise p

theorem replace_of_not_mem {p : Units} {before : QChar} (h : before ∉ p) (after : QChar) :
    replace p before after = p := by
  induction p with
  | nil => rfl
  | cons c p ih =>
    rw [List.mem_cons, not_or] at h
    rw [replace, List.map_cons, if_neg (Ne.symm h.1)]
    exact congrArg _ (ih h.2)

theorem replace_append (p q : Units) (before after : QChar) :
    replace (p ++ q) before after = replace p before after ++ replace q before after :=
  List.map_append

theorem joined_cons_cons (sep : QChar) (c d : Units) (cs : List Units) :
    joined sep (c :: d :: cs) = c ++ sep :: joined sep (d :: cs) := by
  rw [joined, List.intercalate_cons_cons, List.append_assoc, List.singleton_append, joined]

theorem joined_singleton (sep : QChar) (c : Units) : joined sep [c] = c :=
  List.intercalate_singleton

theorem replace_joined {before : QChar} {cs : List Units} (h : ∀ c ∈ cs, before ∉ c)
    (after : QChar) : replace (joined before cs) before after = joined after cs := by
  induction cs with
  | nil => rfl
  | cons c cs ih =>
    obtain ⟨hc, hcs⟩ := List.forall_mem_cons.mp h
    cases cs with
    | nil => rw [joined_singleton, joined_singleton, replace_of_not_mem hc]
    | cons d cs =>
      have hsep : replace [before] before after = [after] := by
        rw [replace, List.map_singleton, if_pos rfl]
      rw [joined_cons_cons, joined_cons_cons, replace_append, replace_of_not_mem hc,
        ← List.singleton_append, replace_append, hsep, ih hcs, List.singleton_append]

theorem stripSlashes_joined {cs : List Units} (h : ∀ c ∈ cs, c ≠ [] ∧ slash ∉ c) :
    stripSlashes (joined slash cs) = joined slash cs := by
  cases cs with
  | nil => rfl
  | cons c cs =>
    obtain ⟨hne, hslash⟩ := h c List.mem_cons_self
    obtain ⟨x, xs, rfl⟩ := List.exists_cons_of_ne_nil hne
    have hx : (x == slash) = false := beq_false_of_ne fun h => hslash (h ▸ List.mem_cons_self)
    obtain ⟨tail, htail⟩ : ∃ tail, joined slash ((x :: xs) :: cs) = x :: tail := by
      cases cs with
      | nil => exact ⟨xs, joined_singleton slash _⟩
      | cons d cs => exact ⟨_, joined_cons_cons slash _ d cs⟩
    rw [htail, stripSlashes, List.dropWhile_cons, hx]
    rfl

theorem not_mem_joined {c sep : QChar} (hsep : c ≠ sep) {cs : List Units} (h : ∀ x ∈ cs, c ∉ x) :
    c ∉ joined sep cs := by
  induction cs with
  | nil => exact List.not_mem_nil
  | cons x cs ih =>
    obtain ⟨hx, hcs⟩ := List.forall_mem_cons.mp h
    cases cs with
    | nil => rwa [joined_singleton]
    | cons y cs =>
      rw [joined_cons_cons, List.mem_append, List.mem_cons, not_or, not_or]
      exact ⟨hx, hsep, ih hcs⟩

def lowered (d : DrivePath) : QChar := d.drive + 0x20

theorem lowered_range (d : DrivePath) : 0x61 ≤ lowered d ∧ lowered d ≤ 0x7A := by
  obtain ⟨hlow, hhigh⟩ := d.upper
  simp only [lowered, UInt16.le_iff_toNat_le, UInt16.toNat_add, UInt16.reduceToNat] at hlow hhigh ⊢
  omega

theorem drive_ne_of_gt {d : DrivePath} {c : QChar} (h : ¬(0x41 ≤ c ∧ c ≤ 0x5A)) : d.drive ≠ c :=
  fun hc => h (hc ▸ d.upper)

theorem normalise_text (d : DrivePath) :
    normalise d.text = d.drive :: colon :: slash :: joined slash d.components := by
  have hdrive : d.drive ≠ backslash := drive_ne_of_gt (by decide)
  have hjoined := replace_joined (fun c hc => (d.plain c hc).2.2) slash
  rw [normalise, DrivePath.text]
  exact congrArg₂ List.cons (if_neg hdrive) (congrArg (fun r => colon :: slash :: r) hjoined)

theorem posix_text (t : CaseTable) (d : DrivePath) :
    windowsToPosix t d.text =
      drives ++ lowered d ::
        if joined slash d.components = [] then [] else slash :: joined slash d.components := by
  have hne : ¬d.text = [] := List.cons_ne_nil _ _
  have hdrive : (slash == d.drive) = false := beq_false_of_ne (drive_ne_of_gt (by decide)).symm
  have hunc : (latin1 "//").isPrefixOf (normalise d.text) = false := by
    have hslashes : latin1 "//" = [slash, slash] := rfl
    rw [normalise_text, hslashes, List.isPrefixOf, hdrive, Bool.false_and]
  have hletter := t.letter_ascii d.drive d.upper.1 d.upper.2
  have hlower := t.lower_ascii d.drive d.upper.1 d.upper.2
  have hstrip : stripSlashes (slash :: joined slash d.components) = joined slash d.components :=
    stripSlashes_joined fun c hc => ⟨(d.plain c hc).1, (d.plain c hc).2.1⟩
  rw [normalise] at hunc
  rw [windowsToPosix, if_neg hne]
  dsimp only
  rw [hunc, ← normalise, normalise_text]
  simp only [Bool.false_eq_true, if_false, hletter, and_self, if_true, hstrip, hlower, lowered,
    List.append_assoc, List.singleton_append]

theorem windows_text (t : CaseTable) (d : DrivePath) :
    posixToWindows t (drives ++ lowered d ::
        if joined slash d.components = [] then [] else slash :: joined slash d.components) =
      d.text := by
  obtain ⟨tail, htail⟩ : ∃ tail, (if joined slash d.components = [] then []
      else slash :: joined slash d.components) = tail := ⟨_, rfl⟩
  have hcomponents : backslash ∉ joined slash d.components :=
    not_mem_joined (by decide) fun c hc => (d.plain c hc).2.2
  have hplain : backslash ∉ tail := by
    rw [← htail]
    split_ifs
    · exact List.not_mem_nil
    · rw [List.mem_cons, not_or]
      exact ⟨by decide, hcomponents⟩
  have hstrip : stripSlashes tail = joined slash d.components := by
    rw [← htail]
    split_ifs with hempty
    · exact hempty.symm
    · exact stripSlashes_joined fun c hc => ⟨(d.plain c hc).1, (d.plain c hc).2.1⟩
  have hlowered : backslash ≠ lowered d := by
    rintro hc
    exact absurd (hc ▸ (lowered_range d).1) (by decide)
  have hkeep : replace (drives ++ lowered d :: tail) backslash slash =
      drives ++ lowered d :: tail := by
    refine replace_of_not_mem ?_ slash
    rw [List.mem_append, List.mem_cons, not_or, not_or]
    exact ⟨by decide, hlowered, hplain⟩
  have hroot : underRoot (drives ++ lowered d :: tail) = some (lowered d :: tail) := by
    rw [underRoot, if_pos (List.isPrefixOf_iff_prefix.mpr (List.prefix_append _ _)),
      List.drop_left]
  have hupper : t.toUpper (lowered d) = d.drive := by
    rw [t.upper_ascii _ (lowered_range d).1 (lowered_range d).2, lowered, UInt16.add_sub_cancel]
  have hback := replace_joined (fun c hc => (d.plain c hc).2.1) backslash
  rw [htail, posixToWindows, if_neg (List.append_ne_nil_of_right_ne_nil _ (List.cons_ne_nil _ _))]
  dsimp only
  rw [hkeep, hroot]
  dsimp only
  rw [hupper, hstrip, hback]
  rfl

theorem round_trips (t : CaseTable) (d : DrivePath) : RoundTrips t d := by
  rw [RoundTrips, posix_text, windows_text]

theorem normalise_normalise (p : Units) : normalise (normalise p) = normalise p := by
  refine replace_of_not_mem (fun h => ?_) slash
  obtain ⟨c, -, hc⟩ := List.mem_map.mp h
  split_ifs at hc with hback
  · exact absurd hc (by decide)
  · exact hback hc

theorem second_underRoot {p rest : Units} (h : underRoot p = some rest) :
    p[1]? = some 0x64 ∨ p[1]? = some 0x63 := by
  rw [underRoot] at h
  split_ifs at h with hdrives hcygdrive
  · obtain ⟨q, rfl⟩ := List.isPrefixOf_iff_prefix.mp hdrives
    exact .inl rfl
  · obtain ⟨q, rfl⟩ := List.isPrefixOf_iff_prefix.mp hcygdrive
    exact .inr rfl

theorem posixToWindows_eq (t : CaseTable) (p : Units) :
    posixToWindows t p =
      match underRoot (normalise p) with
      | none => normalise p
      | some [] => normalise p
      | some (c :: tail) =>
          [t.toUpper c, colon, backslash] ++ replace (stripSlashes tail) slash backslash := by
  rw [posixToWindows]
  split_ifs with hempty
  · subst hempty
    rfl
  · rfl

theorem keeps_iff (t : CaseTable) (p : Units) :
    Keeps t p ↔
      ∀ rest, underRoot (normalise p) = some rest → rest = [] ∨ SingleLetter t rest := by
  have hsame (h : posixToWindows t p = normalise p) :
      normalise (posixToWindows t p) = normalise p := by rw [h, normalise_normalise]
  have heq := posixToWindows_eq t p
  cases hroot : underRoot (normalise p) with
  | none =>
    rw [hroot] at heq
    exact iff_of_true (fun _ => hsame heq) (by simp)
  | some rest =>
    rw [hroot] at heq
    cases rest with
    | nil =>
      refine iff_of_true (fun _ => hsame heq) ?_
      rintro rest hrest
      exact .inl (Option.some.inj hrest).symm
    | cons c tail =>
      have hchanged : normalise (posixToWindows t p) ≠ normalise p := by
        intro hsecond
        have hcolon : (normalise (posixToWindows t p))[1]? = some colon := by
          rw [heq]
          rfl
        rw [hsecond] at hcolon
        rcases second_underRoot hroot with h | h
        · exact absurd (hcolon.symm.trans h) (by decide)
        · exact absurd (hcolon.symm.trans h) (by decide)
      constructor
      · intro hkeeps rest hrest
        obtain rfl := Option.some.inj hrest
        by_contra hno
        refine hchanged (hkeeps ?_)
        rintro ⟨rest, hrest, hletter⟩
        obtain rfl := Option.some.inj (hroot.symm.trans hrest)
        exact hno (.inr hletter)
      · intro h hno
        rcases h _ rfl with hempty | hletter
        · exact absurd hempty (List.cons_ne_nil _ _)
        · exact absurd ⟨_, hroot, hletter⟩ hno

theorem translation_iff (t : CaseTable) (d : DrivePath) (p : Units) :
    RoundTrips t d ∧ Keeps t p ↔
      ∀ rest, underRoot (normalise p) = some rest → rest = [] ∨ SingleLetter t rest := by
  rw [and_iff_right (round_trips t d), keeps_iff]

def asciiTable : CaseTable where
  isLetter c := (0x41 ≤ c && c ≤ 0x5A) || (0x61 ≤ c && c ≤ 0x7A)
  toLower c := if 0x41 ≤ c ∧ c ≤ 0x5A then c + 0x20 else c
  toUpper c := if 0x61 ≤ c ∧ c ≤ 0x7A then c - 0x20 else c
  letter_ascii c hlow hhigh := by simp [hlow, hhigh]
  lower_ascii c hlow hhigh := if_pos ⟨hlow, hhigh⟩
  upper_ascii c hlow hhigh := if_pos ⟨hlow, hhigh⟩

theorem data_becomes_drive :
    ¬Keeps asciiTable (latin1 "/drives/data/x") ∧
      posixToWindows asciiTable (latin1 "/drives/data/x") = latin1 "D:\\ata\\x" := by
  have hcut : posixToWindows asciiTable (latin1 "/drives/data/x") = latin1 "D:\\ata\\x" := by
    decide
  refine ⟨fun hkeeps => ?_, hcut⟩
  have hfirst : ((normalise (latin1 "/drives/data/x")).drop drives.length).takeWhile (· != slash) =
      [0x64, 0x61, 0x74, 0x61] := by decide
  have hsame := hkeeps (by
    rintro ⟨rest, hrest, c, -, hc⟩
    obtain rfl := Option.some.inj hrest
    exact absurd (hfirst.symm.trans hc) (by simp))
  rw [hcut] at hsame
  exact absurd hsame (by decide)

end CygPath

end Core
