import MacXterm.Qt.Hash

namespace Core

open Qt

def defaultKeys : List (QString × QString) :=
  [("terminal.new", "Ctrl+Alt+T"), ("terminal.close", "Ctrl+Shift+W"), ("tab.next", "Ctrl+Tab"),
    ("tab.prev", "Ctrl+Shift+Tab"), ("tab.detach", "Ctrl+Shift+D"), ("view.fullscreen", "F11"),
    ("edit.paste", "Shift+Ins"), ("session.quickConnect", "Ctrl+Shift+Q"),
    ("x11.toggle", "Ctrl+Shift+X"), ("editor.open", "Ctrl+Shift+M")]

-- Key sequences as the toolkit reads and prints them; the empty one is printed as no text.
structure KeyText (κ : Type) where
  parse : QString → κ
  print : κ → QString
  empty : κ
  print_empty : print empty = []
  defaults_apart : (defaultKeys.map fun d => parse d.2).Nodup

structure ShortcutRegistry (κ : Type) where
  map : QHash QString κ

namespace ShortcutRegistry

variable {κ : Type} (r : ShortcutRegistry κ)

def loadDefaults (t : KeyText κ) : ShortcutRegistry κ :=
  ⟨defaultKeys.foldl (fun m d => m.insert d.1 (t.parse d.2)) []⟩

def find (action : QString) : Option κ := r.map.find action

def sequence (t : KeyText κ) (action : QString) : κ := r.map.value action t.empty

def actionFor [DecidableEq κ] (seq : κ) : QString :=
  ((r.map.find? fun e => e.2 = seq).map (·.1)).getD []

def rebind [DecidableEq κ] (action : QString) (seq : κ) : Bool × ShortcutRegistry κ :=
  let owner := r.actionFor seq
  if owner ≠ [] ∧ owner ≠ action then (false, r) else (true, ⟨r.map.insert action seq⟩)

-- No two actions have one key sequence.
structure Apart (r : ShortcutRegistry κ) : Prop where
  keys : (r.map.map (·.1)).Nodup
  seqs : (r.map.map (·.2)).Nodup
  named : ∀ e ∈ r.map, e.1 ≠ []

variable {r} {a b : QString} {k : κ}

theorem Apart.mem_iff (h : Apart r) : (a, k) ∈ r.map ↔ r.find a = some k :=
  ⟨QHash.find_of_mem h.keys, QHash.mem_of_find⟩

theorem Apart.eq_of_find (h : Apart r) (ha : r.find a = some k) (hb : r.find b = some k) :
    a = b :=
  congrArg Prod.fst (List.inj_on_of_nodup_map h.seqs (h.mem_iff.mpr ha) (h.mem_iff.mpr hb) rfl)

theorem Apart.insert (h : Apart r) (ha : a ≠ []) (hfree : ∀ b, r.find b = some k → b = a) :
    Apart ⟨r.map.insert a k⟩ := by
  refine ⟨QHash.nodup_insert h.keys a k, ?_, fun e he => ?_⟩
  · change ((a, k) :: r.map.filter fun e => e.1 ≠ a).map (·.2) |>.Nodup
    rw [List.map_cons, List.nodup_cons]
    refine ⟨fun hmem => ?_, h.seqs.sublist (List.filter_sublist.map _)⟩
    obtain ⟨⟨b, j⟩, he, rfl⟩ := List.mem_map.mp hmem
    obtain ⟨hmem, hne⟩ := List.mem_filter.mp he
    exact of_decide_eq_true hne (hfree b (h.mem_iff.mp hmem))
  · rcases QHash.mem_insert he with rfl | he
    · exact ha
    · exact h.named e he

theorem foldl_insert (f : QString → κ) (ds : List (QString × QString)) (m : QHash QString κ)
    (hkeys : (ds.map (·.1)).Nodup) (hnew : ∀ e ∈ m, e.1 ∉ ds.map (·.1)) :
    ds.foldl (fun m d => m.insert d.1 (f d.2)) m =
      (ds.map fun d => (d.1, f d.2)).reverse ++ m := by
  induction ds generalizing m with
  | nil => rfl
  | cons d ds ih =>
    rw [List.map_cons, List.nodup_cons] at hkeys
    have hinsert : m.insert d.1 (f d.2) = (d.1, f d.2) :: m := by
      refine congrArg _ (List.filter_eq_self.mpr fun e he => ?_)
      have hne : e.1 ≠ d.1 := fun heq => hnew e he (heq ▸ List.mem_cons_self)
      simp [hne]
    rw [List.foldl_cons, hinsert, ih _ hkeys.2, List.map_cons, List.reverse_cons,
      List.append_assoc]
    · rfl
    · intro e he
      rcases List.mem_cons.mp he with rfl | he
      · exact hkeys.1
      · exact fun hmem => hnew e he (List.mem_cons_of_mem _ hmem)

theorem nodup_defaultKeys : (defaultKeys.map (·.1)).Nodup := by decide

theorem map_loadDefaults (t : KeyText κ) :
    (loadDefaults t).map = (defaultKeys.map fun d => (d.1, t.parse d.2)).reverse :=
  (foldl_insert t.parse defaultKeys [] nodup_defaultKeys
    fun _ he => absurd he List.not_mem_nil).trans (List.append_nil _)

theorem mem_loadDefaults {t : KeyText κ} {e : QString × κ} :
    e ∈ (loadDefaults t).map ↔ ∃ d ∈ defaultKeys, (d.1, t.parse d.2) = e := by
  rw [map_loadDefaults, List.mem_reverse, List.mem_map]

theorem apart_loadDefaults (t : KeyText κ) : Apart (loadDefaults t) where
  keys := by
    rw [map_loadDefaults, List.map_reverse, List.nodup_reverse, List.map_map]
    exact nodup_defaultKeys
  seqs := by
    rw [map_loadDefaults, List.map_reverse, List.nodup_reverse, List.map_map]
    exact t.defaults_apart
  named := by
    intro e he
    obtain ⟨d, hd, rfl⟩ := mem_loadDefaults.mp he
    have hnamed : ∀ d ∈ defaultKeys, d.1 ≠ [] := by decide
    exact hnamed d hd

theorem find_default (t : KeyText κ) {d : QString × QString} (hd : d ∈ defaultKeys) :
    (loadDefaults t).find d.1 = some (t.parse d.2) :=
  (apart_loadDefaults t).mem_iff.mp (mem_loadDefaults.mpr ⟨d, hd, rfl⟩)

variable [DecidableEq κ]

-- The order in which the hash is gone through makes no difference.
theorem Apart.actionFor_iff (h : Apart r) (ha : a ≠ []) :
    r.actionFor k = a ↔ r.find a = some k := by
  unfold actionFor
  cases hfind : r.map.find? fun e => e.2 = k with
  | none =>
    refine iff_of_false (Ne.symm ha) fun hsome => ?_
    exact List.find?_eq_none.mp hfind (a, k) (h.mem_iff.mpr hsome) (decide_eq_true rfl)
  | some e =>
    obtain ⟨b, j⟩ := e
    obtain rfl : j = k := by simpa using List.find?_some hfind
    have hb : r.find b = some j := h.mem_iff.mp (List.mem_of_find?_eq_some hfind)
    constructor
    · rintro rfl
      exact hb
    · exact h.eq_of_find hb

-- A request is refused if another action has the sequence, and then nothing is changed.
theorem Apart.rebind_cases (h : Apart r) (a : QString) (k : κ) :
    r.rebind a k = (false, r) ∧ (∃ b, b ≠ a ∧ r.find b = some k) ∨
      r.rebind a k = (true, ⟨r.map.insert a k⟩) ∧ ∀ b, r.find b = some k → b = a := by
  unfold rebind
  by_cases howner : r.actionFor k ≠ [] ∧ r.actionFor k ≠ a
  · refine .inl ⟨if_pos howner, r.actionFor k, howner.2, ?_⟩
    exact (h.actionFor_iff howner.1).mp rfl
  · refine .inr ⟨if_neg howner, fun b hb => ?_⟩
    have hnamed : b ≠ [] := h.named (b, k) (h.mem_iff.mpr hb)
    have hownerb : r.actionFor k = b := (h.actionFor_iff hnamed).mpr hb
    by_contra hba
    exact howner ⟨hownerb ▸ hnamed, hownerb ▸ hba⟩

theorem Apart.rebind (h : Apart r) (ha : a ≠ []) (k : κ) : Apart (r.rebind a k).2 := by
  rcases h.rebind_cases a k with ⟨hrun, -⟩ | ⟨hrun, hfree⟩
  · rw [hrun]
    exact h
  · rw [hrun]
    exact h.insert ha hfree

theorem find_rebind (r : ShortcutRegistry κ) (a : QString) (k : κ) (b : QString) :
    (r.rebind a k).2.find b = if (r.rebind a k).1 = true ∧ b = a then some k else r.find b := by
  unfold rebind
  by_cases howner : r.actionFor k ≠ [] ∧ r.actionFor k ≠ a
  · rw [if_pos howner, if_neg fun hand => Bool.false_ne_true hand.1]
  · rw [if_neg howner]
    simp only [find, QHash.find_insert, true_and]

end ShortcutRegistry

end Core

namespace Ui

open Qt Core

-- The actions that the window wires.
inductive WiredAction where
  | terminalNew | terminalClose | tabNext | tabPrev | fullscreen
deriving DecidableEq

def WiredAction.id : WiredAction → QString
  | .terminalNew => "terminal.new"
  | .terminalClose => "terminal.close"
  | .tabNext => "tab.next"
  | .tabPrev => "tab.prev"
  | .fullscreen => "view.fullscreen"

def WiredAction.defaultText : WiredAction → QString
  | .terminalNew => "Ctrl+Alt+T"
  | .terminalClose => "Ctrl+Shift+W"
  | .tabNext => "Ctrl+Tab"
  | .tabPrev => "Ctrl+Shift+Tab"
  | .fullscreen => "F11"

theorem mem_defaultKeys (a : WiredAction) : (a.id, a.defaultText) ∈ defaultKeys := by
  cases a <;> decide

-- An order in which a hash of the wired actions is gone through.
abbrev Order := { order : List WiredAction // order.Nodup ∧ ∀ a, a ∈ order }

structure ShortcutWindow (κ : Type) where
  shortcuts : ShortcutRegistry κ
  settings : QHash QString QString

inductive ShortcutEvent (κ : Type) where
  -- The program is started again.
  | buildShortcuts (order : Order)
  -- The dialog is accepted with these sequences in its fields.
  | editShortcuts (order : Order) (field : WiredAction → κ)

namespace ShortcutWindow

variable {κ : Type} [DecidableEq κ] (t : KeyText κ)

def settingKey (a : WiredAction) : QString := "shortcut/".toList ++ a.id

def loadSaved (settings : QHash QString QString) (r : ShortcutRegistry κ) (a : WiredAction) :
    ShortcutRegistry κ :=
  let saved := settings.value (settingKey a) []
  if saved ≠ [] then (r.rebind a.id (t.parse saved)).2 else r

def buildShortcuts (settings : QHash QString QString) (order : Order) : ShortcutWindow κ :=
  ⟨order.1.foldl (loadSaved t settings) (.loadDefaults t), settings⟩

def editOne (field : WiredAction → κ) (w : ShortcutWindow κ) (a : WiredAction) :
    ShortcutWindow κ :=
  ⟨(w.shortcuts.rebind a.id (field a)).2, w.settings.insert (settingKey a) (t.print (field a))⟩

-- What the wired actions are set to.
def applyShortcuts (w : ShortcutWindow κ) (a : WiredAction) : κ := w.shortcuts.sequence t a.id

def step (w : ShortcutWindow κ) : ShortcutEvent κ → ShortcutWindow κ
  | .buildShortcuts order => buildShortcuts t w.settings order
  | .editShortcuts order field => order.1.foldl (editOne t field) w

def reached (settings : QHash QString QString) (order : Order) (events : List (ShortcutEvent κ)) :
    ShortcutWindow κ :=
  events.foldl (step t) (buildShortcuts t settings order)

section Runs

open ShortcutRegistry

variable {t} {r : ShortcutRegistry κ}

theorem id_ne_nil (a : WiredAction) : a.id ≠ [] := by cases a <;> decide

theorem id_injective {a b : WiredAction} (h : a.id = b.id) : a = b := by
  cases a <;> cases b <;> first | rfl | exact absurd h (by decide)

theorem settingKey_injective {a b : WiredAction} (h : settingKey a = settingKey b) : a = b :=
  id_injective (List.append_cancel_left h)

structure Sound (r : ShortcutRegistry κ) : Prop where
  apart : Apart r
  bound : ∀ d ∈ defaultKeys, (r.find d.1).isSome

omit [DecidableEq κ] in
theorem sound_loadDefaults : Sound (loadDefaults t) :=
  ⟨apart_loadDefaults t, fun _ hd => by rw [find_default t hd]; rfl⟩

theorem Sound.rebind (h : Sound r) (a : WiredAction) (k : κ) : Sound (r.rebind a.id k).2 := by
  refine ⟨h.apart.rebind (id_ne_nil a) k, fun d hd => ?_⟩
  rw [find_rebind]
  split
  · rfl
  · exact h.bound d hd

theorem Sound.loadSaved (h : Sound r) (settings : QHash QString QString) (a : WiredAction) :
    Sound (loadSaved t settings r a) := by
  unfold ShortcutWindow.loadSaved
  extract_lets saved
  split
  · exact h.rebind a _
  · exact h

omit [DecidableEq κ] in
theorem Sound.find_applied {w : ShortcutWindow κ} (h : Sound w.shortcuts) (a : WiredAction) :
    w.shortcuts.find a.id = some (w.applyShortcuts t a) := by
  obtain ⟨k, hk⟩ := Option.isSome_iff_exists.mp (h.bound _ (mem_defaultKeys a))
  have happlied : w.applyShortcuts t a = k := by
    change (w.shortcuts.find a.id).getD t.empty = k
    rw [hk]
    rfl
  rw [happlied, hk]

theorem sound_buildShortcuts (settings : QHash QString QString) (order : Order) :
    Sound (buildShortcuts t settings order).shortcuts :=
  List.foldlRecOn order.1 _ sound_loadDefaults fun _ h a _ => h.loadSaved settings a

theorem sound_step {w : ShortcutWindow κ} (h : Sound w.shortcuts) (e : ShortcutEvent κ) :
    Sound (step t w e).shortcuts := by
  cases e with
  | buildShortcuts order => exact sound_buildShortcuts w.settings order
  | editShortcuts order field =>
    exact List.foldlRecOn (motive := fun w : ShortcutWindow κ => Sound w.shortcuts) order.1 _ h
      fun _ h a _ => h.rebind a (field a)

theorem sound_reached (settings : QHash QString QString) (order : Order)
    (events : List (ShortcutEvent κ)) : Sound (reached t settings order events).shortcuts :=
  List.foldlRecOn (motive := fun w : ShortcutWindow κ => Sound w.shortcuts) events _
    (sound_buildShortcuts settings order) fun _ h e _ => sound_step h e

variable (t)

-- Whatever was saved and edited, each sequence belongs to one action.
theorem shortcuts_distinct (settings : QHash QString QString) (order : Order)
    (events : List (ShortcutEvent κ)) :
    let w := reached t settings order events
    let r := w.shortcuts
    Function.Injective (w.applyShortcuts t) ∧
      (∀ d ∈ defaultKeys, ∃ k, r.find d.1 = some k ∧ r.actionFor k = d.1) ∧
      ∀ a k, ((r.rebind a k).1 = false ↔ ∃ b, b ≠ a ∧ r.find b = some k) ∧
        ∀ b, (r.rebind a k).2.find b =
          if (r.rebind a k).1 = true ∧ b = a then some k else r.find b := by
  intro w r
  have h : Sound r := sound_reached settings order events
  refine ⟨fun a b hab => ?_, fun d hd => ?_, fun a k => ⟨?_, find_rebind r a k⟩⟩
  · have hb := h.find_applied (t := t) b
    rw [← hab] at hb
    exact id_injective (h.apart.eq_of_find (h.find_applied a) hb)
  · obtain ⟨k, hk⟩ := Option.isSome_iff_exists.mp (h.bound d hd)
    have hnamed : d.1 ≠ [] := h.apart.named (d.1, k) (h.apart.mem_iff.mpr hk)
    exact ⟨k, hk, (h.apart.actionFor_iff hnamed).mpr hk⟩
  · rcases h.apart.rebind_cases a k with ⟨hrun, b, hb⟩ | ⟨hrun, hfree⟩
    · rw [hrun]
      exact iff_of_true rfl ⟨b, hb⟩
    · rw [hrun]
      exact iff_of_false (by simp) fun ⟨b, hne, hb⟩ => hne (hfree b hb)

-- Sequences that are the texts themselves.
def textKeys : KeyText QString := ⟨id, id, [], rfl, by decide⟩

def wiredOrder : Order :=
  ⟨[.terminalNew, .terminalClose, .tabNext, .tabPrev, .fullscreen], by decide, by
    intro a
    cases a <;> decide⟩

theorem shortcuts_distinct_text :
    let w := reached textKeys [] wiredOrder [.editShortcuts wiredOrder fun _ => "Ctrl+Tab".toList]
    ∃ k, w.shortcuts.find "tab.next" = some k ∧ w.shortcuts.actionFor k = "tab.next".toList :=
  (shortcuts_distinct textKeys [] wiredOrder _).2.1 ("tab.next", "Ctrl+Tab") (by decide)

end Runs

section Restart

open ShortcutRegistry

variable {t}

theorem settings_edited (field : WiredAction → κ) (a : WiredAction) (l : List WiredAction)
    (w : ShortcutWindow κ) : (l.foldl (editOne t field) w).settings.find (settingKey a) =
      if a ∈ l then some (t.print (field a)) else w.settings.find (settingKey a) := by
  induction l generalizing w with
  | nil => rfl
  | cons b l ih =>
    rw [List.foldl_cons, ih, editOne, QHash.find_insert]
    by_cases hab : a = b
    · simp [hab]
    · have hne : settingKey a ≠ settingKey b := fun h => hab (settingKey_injective h)
      simp [hab, hne]

theorem loadSaved_cases (settings : QHash QString QString) (r : ShortcutRegistry κ)
    (a b : WiredAction) :
    let saved := settings.value (settingKey a) []
    (loadSaved t settings r b).find a.id = r.find a.id ∨
      saved ≠ [] ∧ (loadSaved t settings r b).find a.id = some (t.parse saved) := by
  intro saved
  unfold loadSaved
  by_cases hsaved : settings.value (settingKey b) [] ≠ []
  · rw [if_pos hsaved, find_rebind]
    split
    · rename_i hbound
      obtain rfl := id_injective hbound.2
      exact .inr ⟨hsaved, rfl⟩
    · exact .inl rfl
  · rw [if_neg hsaved]
    exact .inl rfl

theorem find_buildShortcuts (settings : QHash QString QString) (order : Order) (a : WiredAction) :
    let saved := settings.value (settingKey a) []
    let w := buildShortcuts t settings order
    w.shortcuts.find a.id = some (t.parse a.defaultText) ∨
      saved ≠ [] ∧ w.shortcuts.find a.id = some (t.parse saved) := by
  intro saved w
  refine List.foldlRecOn (motive := fun r : ShortcutRegistry κ =>
    r.find a.id = some (t.parse a.defaultText) ∨
      saved ≠ [] ∧ r.find a.id = some (t.parse saved)) order.1 _
      (.inl (find_default t (mem_defaultKeys a))) ?_
  intro r h b _
  rcases loadSaved_cases settings r a b with hsame | hsaved
  · rw [hsame]
    exact h
  · exact .inr hsaved

variable (t)

-- A sequence that was cleared in the dialog is back after the next start.
theorem cleared_returns (settings : QHash QString QString) (order : Order)
    (events : List (ShortcutEvent κ)) (asked next : Order) (field : WiredAction → κ)
    (a : WiredAction) :
    let cleared := ShortcutEvent.editShortcuts asked (Function.update field a t.empty)
    (reached t settings order (events ++ [cleared, .buildShortcuts next])).applyShortcuts t a =
      t.parse a.defaultText := by
  intro cleared
  have hrun : reached t settings order (events ++ [cleared, .buildShortcuts next]) =
      buildShortcuts t (step t (reached t settings order events) cleared).settings next := by
    rw [reached, List.foldl_append]
    rfl
  have hsaved : (step t (reached t settings order events) cleared).settings.value
      (settingKey a) [] = [] := by
    change (QHash.find _ (settingKey a)).getD [] = []
    rw [step, settings_edited, if_pos (asked.2.2 a), Function.update_self, t.print_empty]
    rfl
  rw [hrun]
  rcases find_buildShortcuts (t := t) _ next a with hdefault | ⟨hne, -⟩
  · exact Option.some.inj (((sound_buildShortcuts _ next).find_applied a).symm.trans hdefault)
  · exact absurd hsaved hne

end Restart

end ShortcutWindow

end Ui
