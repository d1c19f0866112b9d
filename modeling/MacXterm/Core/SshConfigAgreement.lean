import MacXterm.Core.SshConfig

namespace Core

open Qt SerialConnection

namespace SshConfig

open SshConfigImporter

def Block.obtained (b : Block) (k : Keyword) : Option QString := SshConfig.obtained b.settings k

-- What the pending block holds where ssh would have obtained this value.
def Holds (p : Pending) : Keyword → Option QString → Prop
  | .hostName, o => p.hostName = o.getD []
  | .user, o => p.user = o.getD []
  | .port, o => p.port = (o.bind toInt).getD 0
  | .identityFile, o => p.identityFile = o.getD []
  | .proxyJump, o => p.proxyJump = o.getD []

-- What a session carries for that value; none is the default of ssh.
def Carries (s : Session) : Keyword → Option QString → Prop
  | .hostName, o => s.host = o.getD s.name
  | .user, o => s.username = o.getD []
  | .port, o => s.port = (o.bind toInt).getD 22
  | .identityFile, o => s.param "keyfile" = o.getD []
  | .proxyJump, o => s.param "jumphost" = o.getD []

section Pending

variable {p : Pending} {k j : Keyword} {o : Option QString} {v : QString}

theorem set_name (p : Pending) (k : Keyword) (v : QString) : p.set k.name v =
    match k with
    | .hostName => { p with hostName := v }
    | .user => { p with user := v }
    | .port => { p with port := (toInt v).getD 0 }
    | .identityFile => { p with identityFile := v }
    | .proxyJump => { p with proxyJump := v } := by
  cases k <;> rfl

theorem holds_set_self (p : Pending) (k : Keyword) (v : QString) :
    Holds (p.set k.name v) k (some v) := by
  rw [set_name]
  cases k <;> rfl

theorem holds_set_ne (h : k ≠ j) (hp : Holds p k o) : Holds (p.set j.name v) k o := by
  rw [set_name]
  cases j <;> cases k <;> first | exact absurd rfl h | exact hp

theorem alias_set (p : Pending) (k : Keyword) (v : QString) : (p.set k.name v).alias = p.alias := by
  rw [set_name]
  cases k <;> rfl

theorem alias_setAll (settings : List Setting) : (setAll p settings).alias = p.alias := by
  induction settings generalizing p with
  | nil => rfl
  | cons s settings ih => exact ih.trans (alias_set p s.key s.value)

theorem obtained_cons (s : Setting) (settings : List Setting) (k : Keyword) :
    obtained (s :: settings) k = if s.key = k then some s.value else obtained settings k := by
  unfold obtained
  rw [List.find?_cons]
  by_cases h : s.key = k
  · simp [h]
  · simp [h]

theorem obtained_eq_none {settings : List Setting} :
    obtained settings k = none ↔ ∀ s ∈ settings, s.key ≠ k := by
  simp [obtained]

-- No keyword comes twice, so the last value assigned is the first one obtained.
theorem holds_setAll {settings : List Setting} (honce : (settings.map Setting.key).Nodup)
    (h : Holds p k none) : Holds (setAll p settings) k (obtained settings k) := by
  have hkeep {settings : List Setting} {p : Pending} {o : Option QString} (hp : Holds p k o)
      (hk : k ∉ settings.map Setting.key) : Holds (setAll p settings) k o := by
    induction settings generalizing p with
    | nil => exact hp
    | cons s settings ih =>
      rw [List.map_cons, List.mem_cons, not_or] at hk
      exact ih (holds_set_ne hk.1 hp) hk.2
  induction settings generalizing p with
  | nil => exact h
  | cons s settings ih =>
    obtain ⟨hs, hsettings⟩ := List.nodup_cons.mp honce
    rw [obtained_cons]
    split
    · rename_i heq
      subst heq
      exact hkeep (p := p.set s.key.name s.value) (holds_set_self p s.key s.value) hs
    · rename_i hne
      exact ih hsettings (holds_set_ne (Ne.symm hne) h)

theorem holds_pending (b : Block) (k : Keyword) : Holds b.pending k (b.obtained k) := by
  refine holds_setAll b.once ?_
  cases k <;> rfl

end Pending

section Session

open Session

variable {p : Pending} {k : Keyword}

theorem session_name (p : Pending) : p.session.name = p.alias := by
  simp only [Pending.session, setHost, setUsername, setPort]
  split_ifs <;> rfl

theorem param_ite_self {s : Session} {key v : QString} (h : s.param key = []) :
    (if v = [] then s else s.setParam key v).param key = v := by
  split
  · rename_i hv
    rw [h, hv]
  · exact param_setParam_self s key v

theorem session_host (p : Pending) :
    p.session.host = if p.hostName = [] then p.alias else p.hostName := by
  simp (disch := decide) only [host, Pending.session, setHost, setUsername, setPort,
    param_ite_not_ne, param_ite_ne, param_setParam_self]

theorem session_username (p : Pending) : p.session.username = p.user := by
  simp (disch := decide) only [username, Pending.session, setHost, setUsername, setPort,
    param_ite_not_ne, param_ite_ne]
  refine param_ite_self ?_
  rw [param_setParam_ne (by decide)]
  rfl

theorem session_keyfile (p : Pending) : p.session.param "keyfile" = p.identityFile := by
  simp (disch := decide) only [Pending.session, setHost, setUsername, setPort, param_ite_not_ne]
  refine param_ite_self ?_
  simp (disch := decide) only [param_ite_not_ne, param_ite_ne, param_setParam_ne]
  rfl

theorem session_jumphost (p : Pending) : p.session.param "jumphost" = p.proxyJump := by
  simp only [Pending.session, setHost, setUsername, setPort]
  refine param_ite_self ?_
  simp (disch := decide) only [param_ite_not_ne, param_ite_ne, param_setParam_ne]
  rfl

theorem session_port_param (p : Pending) : p.session.param "port" =
    if 0 < p.port then number p.port else [] := by
  simp (disch := decide) only [Pending.session, setHost, setUsername, setPort, param_ite_not_ne]
  split
  · exact param_setParam_self _ _ _
  · simp (disch := decide) only [param_ite_not_ne, param_setParam_ne]
    rfl

theorem session_port {n : Int} (hp : p.port = n) (hn : n < 2 ^ 31) :
    p.session.port = if 0 < n then n else 22 := by
  rw [Session.port, session_port_param, p.session_type, hp]
  split_ifs with h
  · rw [toInt_number_int (by omega) hn]
  · rfl

theorem value_of_obtained {settings : List Setting} {v : QString}
    (h : obtained settings k = some v) :
    v ≠ [] ∧ (k = .port → ∃ n, toInt v = some n ∧ 0 < n) := by
  obtain ⟨s, hs, rfl⟩ := Option.map_eq_some_iff.mp h
  have hkey : s.key = k := by simpa using List.find?_some hs
  exact ⟨s.word.1, fun hk => s.number (hkey.trans hk)⟩

theorem carries_of_holds {o : Option QString} (h : Holds p k o)
    (hvalue : ∀ v, o = some v → v ≠ [] ∧ (k = .port → ∃ n, toInt v = some n ∧ 0 < n)) :
    Carries p.session k o := by
  have htext : ∀ v, o = some v → v ≠ [] := fun v hv => (hvalue v hv).1
  cases k with
  | hostName =>
    have hhost : p.hostName = o.getD [] := h
    change p.session.host = o.getD p.session.name
    rw [session_host, hhost, session_name]
    cases o with
    | none => rfl
    | some v => exact if_neg (htext v rfl)
  | user => exact (session_username p).trans h
  | port =>
    have hport : p.port = (o.bind toInt).getD 0 := h
    change p.session.port = (o.bind toInt).getD 22
    cases o with
    | none => exact session_port hport (by decide)
    | some v =>
      obtain ⟨n, hn, hpos⟩ := (hvalue v rfl).2 rfl
      rw [Option.bind_some, hn, Option.getD_some] at hport
      rw [Option.bind_some, hn, Option.getD_some]
      exact (session_port hport (toInt_bounds hn).2).trans (if_pos hpos)
  | identityFile => exact (session_keyfile p).trans h
  | proxyJump => exact (session_jumphost p).trans h

end Session

-- Nothing else that applies to the alias comes before the block with a value, or fills in one that
-- the block leaves out.
def Decides (globals : List Setting) (before : List Block) (b : Block) (after : List Block)
    (a : QString) (k : Keyword) : Prop :=
  b.applies a = true ∧ (∀ s ∈ globals, s.key ≠ k) ∧
    (∀ c ∈ before, c.applies a = true → ∀ s ∈ c.settings, s.key ≠ k) ∧
    (b.obtained k = none → ∀ c ∈ after, c.applies a = true → ∀ s ∈ c.settings, s.key ≠ k)

theorem obtained_append (s t : List Setting) (k : Keyword) :
    obtained (s ++ t) k = (obtained s k).or (obtained t k) := by
  unfold obtained
  rw [List.find?_append]
  cases s.find? fun s => s.key = k <;> rfl

theorem obtained_blocks {bs : List Block} {a : QString} {k : Keyword}
    (h : ∀ c ∈ bs, c.applies a = true → ∀ s ∈ c.settings, s.key ≠ k) :
    obtained ((bs.filter fun b => b.applies a).flatMap Block.settings) k = none := by
  rw [obtained_eq_none]
  intro s hs
  obtain ⟨c, hc, hsc⟩ := List.mem_flatMap.mp hs
  obtain ⟨hmem, happlies⟩ := List.mem_filter.mp hc
  exact h c hmem happlies s hsc

theorem obtained_of_decides {cfg : Config} {before after : List Block} {b : Block} {a : QString}
    {k : Keyword} (hsplit : cfg.blocks = before ++ b :: after)
    (h : Decides cfg.globals before b after a k) : cfg.obtained a k = b.obtained k := by
  obtain ⟨happlies, hglobals, hbefore, hafter⟩ := h
  have hfilter : cfg.blocks.filter (fun b => b.applies a) =
      before.filter (fun b => b.applies a) ++ b :: after.filter fun b => b.applies a := by
    rw [hsplit, List.filter_append, List.filter_cons, if_pos happlies]
  rw [Config.obtained, Config.applicable, hfilter, List.flatMap_append, List.flatMap_cons,
    obtained_append, obtained_append, obtained_append, obtained_eq_none.mpr hglobals,
    obtained_blocks hbefore, Option.none_or, Option.none_or]
  cases hb : b.obtained k with
  | none =>
    rw [obtained_blocks (hafter hb), Option.or_none]
    exact hb
  | some v =>
    have hsome : obtained b.settings k = some v := hb
    rw [hsome]
    rfl

def Block.named (b : Block) : Bool := !b.first.contains '*' && !b.first.contains '?'

theorem valid_pending (b : Block) : b.pending.valid = b.named := by
  have halias : b.pending.alias = b.first := alias_setAll b.settings
  unfold Pending.valid Block.named
  rw [halias]
  simp [b.first_word.1]

-- What the session of a block is, and when it agrees with ssh over the whole file.
structure Imported (cfg : Config) (b : Block) (s : Session) : Prop where
  name : s.name = b.first
  type : s.type = .ssh
  own : ∀ k, Carries s k (b.obtained k)
  agrees : ∀ before after k, cfg.blocks = before ++ b :: after →
    Decides cfg.globals before b after s.name k → Carries s k (cfg.obtained s.name k)

theorem imported_pending (cfg : Config) (b : Block) : Imported cfg b b.pending.session := by
  have hown (k : Keyword) : Carries b.pending.session k (b.obtained k) :=
    carries_of_holds (holds_pending b k) fun v hv => value_of_obtained hv
  refine ⟨?_, b.pending.session_type, hown, ?_⟩
  · rw [session_name]
    exact alias_setAll b.settings
  · intro before after k hsplit h
    rw [obtained_of_decides hsplit h]
    exact hown k

theorem import_agrees (cfg : Config) (configText : QByteArray) (h : cfg.Renders configText) :
    List.Forall₂ (Imported cfg) (cfg.blocks.filter Block.named) (parse configText).sessions := by
  have hglobals : (setAll {} cfg.globals).valid = false := by
    have halias : (setAll {} cfg.globals).alias = [] := alias_setAll cfg.globals
    simp [Pending.valid, halias]
  have hvalid : (cfg.blocks.map Block.pending).filter Pending.valid =
      (cfg.blocks.filter Block.named).map Block.pending := by
    rw [List.filter_map]
    congr 1
    exact List.filter_congr fun b _ => valid_pending b
  rw [parse_sessions, blocks_of_renders h, List.filter_cons_of_neg (by simp [hglobals]), hvalid,
    List.map_map]
  refine List.forall₂_map_right_iff.mpr (List.forall₂_same.mpr ?_)
  exact fun b _ => imported_pending cfg b

section DefaultUser

structure Agrees (cfg : Config) (sessions : List Session) : Prop where
  values : ∀ s ∈ sessions, ∀ k, Carries s k (cfg.obtained s.name k)
  once : ∀ b ∈ cfg.blocks, ∀ a ∈ b.patterns, '*' ∉ a → '?' ∉ a → a.head? ≠ some '!' →
    sessions.countP (fun s => s.name = a) = 1

theorem isWord_of_all {w : QString}
    (h : w ≠ [] ∧ w.all fun c => !isSpace c && c != '=' && c != '"') :
    IsWord w := by
  refine ⟨h.1, fun c hc => ?_⟩
  simpa [and_assoc] using List.all_eq_true.mp h.2 c hc

def twoAliases : Block where
  first := "a".toList
  others := ["b".toList]
  settings := []
  words := by
    intro w hw
    simp only [List.mem_cons, List.not_mem_nil, or_false] at hw
    rcases hw with rfl | rfl <;> exact isWord_of_all (by decide)
  once := List.nodup_nil

def everyHost : Block where
  first := "*".toList
  others := []
  settings := [⟨.user, "root".toList, isWord_of_all (by decide), nofun⟩]
  words := by
    intro w hw
    obtain rfl := List.mem_singleton.mp hw
    exact isWord_of_all (by decide)
  once := List.nodup_singleton _

def defaultUser : Config := ⟨[], [twoAliases, everyHost]⟩

def defaultUserText : QString := "Host a b\nHost *\n    User=root\n".toList

theorem unbroken_of_all {word : QString} (h : word.all fun c => !isBlank c && c != '=') :
    ∀ c ∈ word, isBlank c = false ∧ c ≠ '=' := by
  intro c hc
  simpa using List.all_eq_true.mp h c hc

theorem keywordLine_blank {raw name value : QString} (word : QString)
    (hraw : trimmed raw = word ++ ' ' :: value) (hname : toLower word = name)
    (hword : word.all fun c => !isBlank c && c != '=') : KeywordLine raw name value := by
  refine ⟨word, [' '], hraw, hname, unbroken_of_all hword, .inl ⟨List.cons_ne_nil _ _, ?_⟩⟩
  exact fun c hc => .inl (List.mem_singleton.mp hc)

theorem defaultUser_renders : defaultUser.Renders (toUtf8 defaultUserText) := by
  have hlines : (fromUtf8 (toUtf8 defaultUserText)).splitOn '\n' =
      ["Host a b".toList, "Host *".toList, "    User=root".toList, []] := by
    rw [fromUtf8_toUtf8]
    decide
  refine ⟨[some (.host twoAliases), some (.host everyHost),
    some (.set ⟨.user, "root".toList, isWord_of_all (by decide), nofun⟩), none], ?_, rfl⟩
  rw [hlines]
  refine .cons ?_ (.cons ?_ (.cons ?_ (.cons (.inl rfl) .nil)))
  · refine ⟨" b".toList, ⟨[' '], [], rfl, by decide, fun _ => List.mem_singleton.mp, rfl⟩, ?_⟩
    exact keywordLine_blank "Host".toList (by decide) (by decide) (by decide)
  · refine ⟨[], rfl, ?_⟩
    exact keywordLine_blank "Host".toList (by decide) (by decide) (by decide)
  · refine ⟨"User".toList, "=".toList, by decide, by decide, unbroken_of_all (by decide), ?_⟩
    exact .inr ⟨[], [], rfl, nofun, nofun⟩

theorem defaultUser_sessions : (parse (toUtf8 defaultUserText)).sessions =
    [Pending.session { «alias» := "a".toList }] := by
  have hlines : SshConfigImporter.lines (toUtf8 defaultUserText) =
      [("host".toList, "a b".toList), ("host".toList, "*".toList),
        ("user".toList, "root".toList)] := by
    rw [SshConfigImporter.lines, fromUtf8_toUtf8]
    decide
  have hblocks : (SshConfigImporter.blocks (toUtf8 defaultUserText)).filter Pending.valid =
      [{ «alias» := "a".toList }] := by
    rw [SshConfigImporter.blocks, hlines]
    decide
  rw [parse_sessions, hblocks]
  rfl

theorem import_agrees_two_aliases : defaultUser.Renders (toUtf8 defaultUserText) ∧
    List.Forall₂ (Imported defaultUser) (defaultUser.blocks.filter Block.named)
      (parse (toUtf8 defaultUserText)).sessions :=
  ⟨defaultUser_renders, import_agrees defaultUser (toUtf8 defaultUserText) defaultUser_renders⟩

theorem second_alias_and_default_user_missing : defaultUser.Renders (toUtf8 defaultUserText) ∧
    ¬ Agrees defaultUser (parse (toUtf8 defaultUserText)).sessions ∧
      (parse (toUtf8 defaultUserText)).sessions.countP (fun s => s.name = "b".toList) = 0 := by
  rw [defaultUser_sessions]
  refine ⟨defaultUser_renders, fun h => ?_, by decide⟩
  have huser := h.values _ List.mem_cons_self .user
  have hssh : defaultUser.obtained "a".toList .user = some "root".toList := by decide
  have hname : (Pending.session { «alias» := "a".toList }).name = "a".toList := rfl
  have hnone : (Pending.session { «alias» := "a".toList }).username = [] := by decide
  rw [hname, hssh] at huser
  exact absurd (hnone.symm.trans huser) (by decide)

end DefaultUser

end SshConfig

end Core
