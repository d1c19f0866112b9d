import Mathlib.Data.List.Forall2
import Mathlib.Data.List.ReduceOption
import MacXterm.Core.IniLine
import MacXterm.Core.SshConfigImporter

namespace Core

open Qt SerialConnection

namespace SshConfig

inductive Keyword where
  | hostName
  | user
  | port
  | identityFile
  | proxyJump
  deriving DecidableEq

def Keyword.name : Keyword → QString
  | .hostName => "hostname".toList
  | .user => "user".toList
  | .port => "port".toList
  | .identityFile => "identityfile".toList
  | .proxyJump => "proxyjump".toList

def IsWord (w : QString) : Prop :=
  w ≠ [] ∧ ∀ c ∈ w, isSpace c = false ∧ c ≠ '=' ∧ c ≠ '"'

structure Setting where
  key : Keyword
  value : QString
  word : IsWord value
  number : key = .port → ∃ n, toInt value = some n ∧ 0 < n

structure Block where
  first : QString
  others : List QString
  settings : List Setting
  words : ∀ w ∈ first :: others, IsWord w
  once : (settings.map Setting.key).Nodup

structure Config where
  globals : List Setting
  blocks : List Block

section Resolution

-- * stands for any text, ? for one character.
def glob : QString → QString → Bool
  | [], s => s.isEmpty
  | c :: p, s =>
      if c = '*' then s.tails.any (glob p)
      else
        match s with
        | [] => false
        | d :: s => (c == '?' || c == d) && glob p s

def Block.patterns (b : Block) : List QString := b.first :: b.others

def positive (a pattern : QString) : Bool := pattern.head? ≠ some '!' && glob pattern a

def negative (a pattern : QString) : Bool := pattern.head? = some '!' && glob pattern.tail a

def Block.applies (b : Block) (a : QString) : Bool :=
  b.patterns.any (positive a) && !b.patterns.any (negative a)

def obtained (settings : List Setting) (k : Keyword) : Option QString :=
  (settings.find? fun s => s.key = k).map Setting.value

def Config.applicable (cfg : Config) (a : QString) : List Setting :=
  cfg.globals ++ (cfg.blocks.filter fun b => b.applies a).flatMap Block.settings

-- What ssh uses for the alias; none where it takes its default.
def Config.obtained (cfg : Config) (a : QString) (k : Keyword) : Option QString :=
  SshConfig.obtained (cfg.applicable a) k

end Resolution

section Text

inductive Directive where
  | host (b : Block)
  | set (s : Setting)

def Config.directives (cfg : Config) : List Directive :=
  cfg.globals.map .set ++ cfg.blocks.flatMap fun b => .host b :: b.settings.map .set

def Blanks (s : QString) : Prop := ∀ c ∈ s, c = ' ' ∨ c = '\t'

-- Blanks, or one equals sign with or without blanks around it.
def Separator (sep : QString) : Prop :=
  sep ≠ [] ∧ Blanks sep ∨ ∃ a b, sep = a ++ '=' :: b ∧ Blanks a ∧ Blanks b

def Note (raw : QString) : Prop := trimmed raw = [] ∨ (trimmed raw).head? = some '#'

-- A keyword in any case, and what stands behind it.
def KeywordLine (raw name value : QString) : Prop :=
  ∃ word sep, trimmed raw = word ++ (sep ++ value) ∧ toLower word = name ∧
    (∀ c ∈ word, SshConfigImporter.isBlank c = false ∧ c ≠ '=') ∧ Separator sep

-- More words behind the first one, each after one blank or more.
def Behind : List QString → QString → Prop
  | [], t => t = []
  | w :: ws, t => ∃ pad rest, t = pad ++ (w ++ rest) ∧ pad ≠ [] ∧ (∀ c ∈ pad, c = ' ') ∧
      Behind ws rest

def Reads (raw : QString) : Option Directive → Prop
  | none => Note raw
  | some (.host b) => ∃ rest, Behind b.others rest ∧ KeywordLine raw "host".toList (b.first ++ rest)
  | some (.set s) => KeywordLine raw s.key.name s.value

def Config.Renders (cfg : Config) (configText : QByteArray) : Prop :=
  ∃ items, List.Forall₂ Reads ((fromUtf8 configText).splitOn '\n') items ∧
    items.reduceOption = cfg.directives

end Text

open SshConfigImporter

section Lines

variable {raw name value w t : QString} {ws : List QString}

theorem behind_cases (hws : ∀ w ∈ ws, IsWord w) (h : Behind ws t) :
    (t = [] ∨ ∃ rest, t = ' ' :: rest) ∧ '=' ∉ t ∧
      ∀ c, t.getLast? = some c → isSpace c = false := by
  induction ws generalizing t with
  | nil =>
    obtain rfl : t = [] := h
    exact ⟨.inl rfl, List.not_mem_nil, nofun⟩
  | cons w ws ih =>
    obtain ⟨pad, rest, rfl, hpad, hblank, hrest⟩ := h
    obtain ⟨hw, hwords⟩ := List.forall_mem_cons.mp hws
    obtain ⟨-, heq, hlast⟩ := ih hwords hrest
    refine ⟨.inr ?_, ?_, ?_⟩
    · obtain ⟨c, pad, rfl⟩ := List.exists_cons_of_ne_nil hpad
      obtain rfl := hblank c List.mem_cons_self
      exact ⟨_, rfl⟩
    · intro hmem
      rcases List.mem_append.mp hmem with hmem | hmem
      · exact absurd (hblank _ hmem) (by decide)
      · rcases List.mem_append.mp hmem with hmem | hmem
        · exact (hw.2 _ hmem).2.1 rfl
        · exact heq hmem
    · intro c hc
      rw [List.getLast?_append_of_ne_nil _ (by simp [hw.1])] at hc
      by_cases hnil : rest = []
      · subst hnil
        rw [List.append_nil] at hc
        exact (hw.2 c (List.mem_of_getLast? hc)).1
      · rw [List.getLast?_append_of_ne_nil _ hnil] at hc
        exact hlast c hc

-- What a value keeps on its way through a line.
def Tight (value : QString) : Prop :=
  '=' ∉ value ∧ ∃ c s, value = c :: s ∧ isSpace c = false ∧ rstrip value = value

theorem tight_word_behind (hw : IsWord w) (hws : ∀ w ∈ ws, IsWord w) (h : Behind ws t) :
    Tight (w ++ t) := by
  obtain ⟨-, heq, hlast⟩ := behind_cases hws h
  obtain ⟨c, s, rfl⟩ := List.exists_cons_of_ne_nil hw.1
  refine ⟨?_, c, s ++ t, rfl, (hw.2 c List.mem_cons_self).1, ?_⟩
  · intro hmem
    rcases List.mem_append.mp hmem with hmem | hmem
    · exact (hw.2 _ hmem).2.1 rfl
    · exact heq hmem
  · rw [rstrip_eq_self_iff]
    intro d hd
    by_cases hnil : t = []
    · subst hnil
      rw [List.append_nil] at hd
      exact (hw.2 d (List.mem_of_getLast? hd)).1
    · rw [List.getLast?_append_of_ne_nil _ hnil] at hd
      exact hlast d hd

theorem tight_word (hw : IsWord w) : Tight w := by
  have h : Behind [] [] := rfl
  have htight := tight_word_behind hw (fun w hw => absurd hw List.not_mem_nil) h
  rwa [List.append_nil] at htight

theorem trimmed_pad {pad : QString} (hpad : ∀ c ∈ pad, isSpace c = true) (h : Tight value) :
    trimmed (pad ++ value) = value := by
  obtain ⟨-, c, s, rfl, hc, hlast⟩ := h
  rw [trimmed_eq, List.dropWhile_append_of_pos hpad, List.dropWhile_cons_of_neg (by simp [hc]),
    hlast]

def equalsToBlank (c : Char) : Char := if c = '=' then ' ' else c

theorem map_equals {s : QString} (h : '=' ∉ s) : s.map equalsToBlank = s := by
  refine (List.map_congr_left fun c hc => ?_).trans (List.map_id s)
  exact if_neg fun heq : c = '=' => h (heq ▸ hc)

theorem separator_blank {sep : QString} (h : Separator sep) :
    ∃ c pad, sep.map equalsToBlank = c :: pad ∧ isBlank c = true ∧
      ∀ d ∈ pad, isSpace d = true := by
  have hkeep (c : Char) (hc : c = ' ' ∨ c = '\t' ∨ c = '=') :
      isBlank (equalsToBlank c) = true ∧ isSpace (equalsToBlank c) = true := by
    rcases hc with rfl | rfl | rfl <;> decide
  have hall : sep ≠ [] ∧ ∀ c ∈ sep, c = ' ' ∨ c = '\t' ∨ c = '=' := by
    rcases h with ⟨hne, hblank⟩ | ⟨a, b, rfl, ha, hb⟩
    · exact ⟨hne, fun c hc => (hblank c hc).imp_right .inl⟩
    · refine ⟨by simp, fun c hc => ?_⟩
      rcases List.mem_append.mp hc with hc | hc
      · exact (ha c hc).imp_right .inl
      · rcases List.mem_cons.mp hc with rfl | hc
        · exact .inr (.inr rfl)
        · exact (hb c hc).imp_right .inl
  obtain ⟨c, pad, rfl⟩ := List.exists_cons_of_ne_nil hall.1
  refine ⟨equalsToBlank c, pad.map equalsToBlank, rfl,
    (hkeep c (hall.2 c List.mem_cons_self)).1, ?_⟩
  intro d hd
  obtain ⟨e, he, rfl⟩ := List.mem_map.mp hd
  exact (hkeep e (hall.2 e (List.mem_cons_of_mem c he))).2

theorem toLower_hash (s : QString) : toLower ('#' :: s) = '#' :: toLower s := rfl

theorem readLine_keyword (hname : ∃ c s, name = c :: s ∧ c ≠ '#') (hvalue : Tight value)
    (h : KeywordLine raw name value) : SshConfigImporter.readLine raw = some (name, value) := by
  obtain ⟨word, sep, hraw, hlower, hword, hsep⟩ := h
  obtain ⟨c, pad, hpad, hc, hspace⟩ := separator_blank hsep
  obtain ⟨c0, s0, hname, hc0⟩ := hname
  have hne : value ≠ [] := by
    obtain ⟨-, d, s, rfl, -, -⟩ := hvalue
    exact List.cons_ne_nil d s
  have hstart : ¬ (word ++ (sep ++ value) = [] ∨ (word ++ (sep ++ value)).head? = some '#') := by
    cases word with
    | nil =>
      rw [hname] at hlower
      cases hlower
    | cons d word =>
      rintro (hnil | hhash)
      · cases hnil
      · obtain rfl : d = '#' := by simpa using hhash
        rw [toLower_hash, hname] at hlower
        exact hc0 (List.cons.inj hlower).1.symm
  have hnorm : (word ++ (sep ++ value)).map equalsToBlank = word ++ c :: (pad ++ value) := by
    rw [List.map_append, List.map_append, map_equals fun h => (hword _ h).2 rfl, hpad,
      map_equals hvalue.1, List.cons_append]
  have hkey : ∀ d ∈ word, (!isBlank d) = true := by
    intro d hd
    rw [(hword d hd).1]
    rfl
  have hdrop : (word ++ c :: (pad ++ value)).dropWhile (fun d => !isBlank d) =
      c :: (pad ++ value) := by
    rw [List.dropWhile_append_of_pos hkey, List.dropWhile_cons_of_neg (by simp [hc])]
  have htake : (word ++ c :: (pad ++ value)).takeWhile (fun d => !isBlank d) = word := by
    rw [List.takeWhile_append_of_pos hkey, List.takeWhile_cons_of_neg (by simp [hc]),
      List.append_nil]
  have hmap : (word ++ (sep ++ value)).map (fun c => if c = '=' then ' ' else c) =
      word ++ c :: (pad ++ value) := hnorm
  simp only [SshConfigImporter.readLine, hraw, if_neg hstart, hmap, hdrop, htake,
    trimmed_pad hspace hvalue,
    if_neg hne, hlower]

theorem readLine_note (h : Note raw) : SshConfigImporter.readLine raw = none := by
  unfold SshConfigImporter.readLine
  exact if_pos h

end Lines

section Blocks

variable {cur : Pending}

def setAll (cur : Pending) (settings : List Setting) : Pending :=
  settings.foldl (fun p s => p.set s.key.name s.value) cur

def Block.pending (b : Block) : Pending := setAll { «alias» := b.first } b.settings

def LineOf : Directive → QString × QString → Prop
  | .host b, line => line.1 = "host".toList ∧ line.2.takeWhile (· != ' ') = b.first
  | .set s, line => line = (s.key.name, s.value)

theorem Block.first_word (b : Block) : IsWord b.first := b.words b.first List.mem_cons_self

theorem takeWhile_first (b : Block) {rest : QString} (h : Behind b.others rest) :
    (b.first ++ rest).takeWhile (· != ' ') = b.first := by
  have hothers : ∀ w ∈ b.others, IsWord w := fun w hw => b.words w (List.mem_cons_of_mem _ hw)
  have hfirst : ∀ c ∈ b.first, (c != ' ') = true := by
    intro c hc
    have hspace := (b.first_word.2 c hc).1
    rw [bne_iff_ne]
    rintro rfl
    exact absurd hspace (by decide)
  rw [List.takeWhile_append_of_pos hfirst]
  rcases (behind_cases hothers h).1 with rfl | ⟨rest, rfl⟩
  · rw [List.takeWhile_nil, List.append_nil]
  · rw [List.takeWhile_cons_of_neg (by simp), List.append_nil]

theorem lineOf_reads {raw : QString} {d : Directive} (h : Reads raw (some d)) :
    ∃ line, SshConfigImporter.readLine raw = some line ∧ LineOf d line := by
  cases d with
  | host b =>
    obtain ⟨rest, hrest, hline⟩ := h
    have hothers : ∀ w ∈ b.others, IsWord w := fun w hw => b.words w (List.mem_cons_of_mem _ hw)
    refine ⟨_, readLine_keyword ⟨'h', _, rfl, by decide⟩
      (tight_word_behind b.first_word hothers hrest) hline, rfl, takeWhile_first b hrest⟩
  | set s =>
    refine ⟨_, readLine_keyword ?_ (tight_word s.word) h, rfl⟩
    cases s.key <;> exact ⟨_, _, rfl, by decide⟩

theorem lines_of_reads {raws : List QString} {items : List (Option Directive)}
    (h : List.Forall₂ Reads raws items) :
    List.Forall₂ LineOf items.reduceOption (raws.filterMap SshConfigImporter.readLine) := by
  induction h with
  | nil => exact .nil
  | @cons raw item raws items hread _ ih =>
    cases item with
    | none =>
      rw [List.reduceOption_cons_of_none, List.filterMap_cons_none (readLine_note hread)]
      exact ih
    | some d =>
      obtain ⟨line, hline, hof⟩ := lineOf_reads hread
      rw [List.reduceOption_cons_of_some, List.filterMap_cons_some hline]
      exact .cons hof ih

theorem name_ne_host (k : Keyword) : k.name ≠ "host".toList := by
  cases k <;> decide

variable (cur) in
theorem blocksFrom_settings {settings : List Setting} {ds : List Directive}
    {ls : List (QString × QString)} (h : List.Forall₂ LineOf (settings.map .set ++ ds) ls) :
    ∃ ls', List.Forall₂ LineOf ds ls' ∧
      blocksFrom cur ls = blocksFrom (setAll cur settings) ls' := by
  induction settings generalizing cur ls with
  | nil => exact ⟨ls, h, rfl⟩
  | cons s settings ih =>
    cases h with
    | cons hline hrest =>
      obtain rfl := hline
      obtain ⟨ls', hls', heq⟩ := ih (cur.set s.key.name s.value) hrest
      refine ⟨ls', hls', ?_⟩
      rw [blocksFrom, if_neg (name_ne_host s.key), heq]
      rfl

theorem blocksFrom_blocks {bs : List Block} {ls : List (QString × QString)}
    (h : List.Forall₂ LineOf (bs.flatMap fun b => .host b :: b.settings.map .set) ls) :
    blocksFrom cur ls = cur :: bs.map Block.pending := by
  induction bs generalizing cur ls with
  | nil =>
    cases h
    rfl
  | cons b bs ih =>
    rw [List.flatMap_cons, List.cons_append] at h
    cases h with
    | cons hline hrest =>
      obtain ⟨hhost, hfirst⟩ := hline
      obtain ⟨ls', hls', heq⟩ := blocksFrom_settings { «alias» := b.first } hrest
      rw [blocksFrom, if_pos hhost, hfirst, heq, ih hls']
      rfl

theorem blocks_of_renders {cfg : Config} {configText : QByteArray}
    (h : cfg.Renders configText) : SshConfigImporter.blocks configText =
      setAll {} cfg.globals :: cfg.blocks.map Block.pending := by
  obtain ⟨items, hreads, hitems⟩ := h
  have hlines := lines_of_reads hreads
  rw [hitems] at hlines
  obtain ⟨ls', hls', heq⟩ := blocksFrom_settings {} hlines
  rw [SshConfigImporter.blocks, SshConfigImporter.lines, heq, blocksFrom_blocks hls']

end Blocks

end SshConfig

end Core
