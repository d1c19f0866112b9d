import MacXterm.Core.SessionForm

namespace Core.SessionForm

open Qt

-- Every field of the form but the name and the type becomes a parameter, as it was given.
structure Keeps (f : QMap QString) : Prop where
  name : (toSession f).name = f.value "name" []
  type : (toSession f).type = sessionTypeFromString (f.value "type" [])
  params : ∀ k v, k ≠ "name".toList → k ≠ "type".toList → f.find k = some v →
    (toSession f).params.find k = some v

def PortText (v : QString) : Prop := ∃ p : Nat, 0 < p ∧ p < 2 ^ 31 ∧ v = number p

def PortTexts (f : QMap QString) : Prop := ∀ v, f.find "port" = some v → PortText v

theorem variantToInt_lt {v : QString} {p : Int} (h : variantToInt v = some p) : p < 2 ^ 31 := by
  obtain ⟨i, -, rfl⟩ := Option.map_eq_some_iff.mp h
  exact Int.bmod_lt (by decide)

section Port

variable {f : QMap QString}

theorem portField_iff {v : QString} (h : f.find "port" = some v) :
    portField f = some v ↔ PortText v := by
  rw [portField, h, Option.bind_some, Option.map_eq_some_iff]
  simp only [Option.filter_eq_some_iff, decide_eq_true_eq]
  constructor
  · rintro ⟨p, ⟨hp, hpos⟩, rfl⟩
    obtain ⟨n, rfl⟩ := Int.eq_ofNat_of_zero_le (Int.le_of_lt hpos)
    have hlt := variantToInt_lt hp
    exact ⟨n, by omega, by omega, rfl⟩
  · rintro ⟨p, hpos, hlt, rfl⟩
    exact ⟨p, ⟨variantToInt_of_toInt (toInt_number hlt), by omega⟩, rfl⟩

theorem portField_none (h : f.find "port" = none) : portField f = none := by
  rw [portField, h]
  rfl

theorem keeps_iff (f : QMap QString) : Keeps f ↔ PortTexts f := by
  have hport : "port".toList ∈ kCoreFields := by decide
  have hfind : (toSession f).params.find "port" = portField f := by
    rw [toSession_find_core f hport, if_pos rfl]
  constructor
  · intro h v hv
    have hkept := h.params "port" v (by decide) (by decide) hv
    rw [hfind] at hkept
    exact (portField_iff hv).mp hkept
  · intro h
    refine ⟨toSession_name f, toSession_type f, fun k v hname htype hk => ?_⟩
    by_cases hcore : k ∈ kCoreFields
    · by_cases hkport : k = "port".toList
      · subst hkport
        rw [hfind]
        exact (portField_iff hk).mpr (h v hk)
      · have hother : k = "host".toList ∨ k = "username".toList := by
          simp only [kCoreFields, List.mem_cons, List.not_mem_nil, or_false] at hcore
          rcases hcore with h | h | h | h | h
          · exact absurd h hname
          · exact absurd h htype
          · exact .inl h
          · exact absurd h hkport
          · exact .inr h
        rw [toSession_find_core f hcore, if_neg hkport, if_pos hother, hk]
    · rw [toSession_find f k hcore, hk]

end Port

-- The parameters that a session has after it went through the form.
structure Formed (s : Session) : Prop where
  host : s.params.contains "host" = true
  username : s.params.contains "username" = true
  name : s.params.contains "name" = false
  type : s.params.contains "type" = false
  port : PortTexts s.params

section RoundTrip

variable (s : Session)

theorem formed_given {k : QString} (hk : k = "host".toList ∨ k = "username".toList) :
    (toSession (fromSession s)).params.find k = s.params.find k ↔ s.params.contains k = true := by
  have hcore : k ∈ kCoreFields ∧ k ≠ "port".toList := by
    rcases hk with rfl | rfl
    · decide
    · decide
  rw [toSession_find_core _ hcore.1, if_neg hcore.2, if_pos hk, fromSession_given s hk,
    Session.param_eq, QMap.contains]
  cases s.params.find k with
  | none => simp
  | some v => simp

theorem formed_dropped {k : QString} (hk : k = "name".toList ∨ k = "type".toList) :
    (toSession (fromSession s)).params.find k = s.params.find k ↔ s.params.contains k = false := by
  have hcore : k ∈ kCoreFields ∧ k ≠ "port".toList ∧
      ¬ (k = "host".toList ∨ k = "username".toList) := by
    rcases hk with rfl | rfl
    · decide
    · decide
  rw [toSession_find_core _ hcore.1, if_neg hcore.2.1, if_neg hcore.2.2, QMap.contains]
  cases s.params.find k with
  | none => simp
  | some v => simp

theorem formed_port :
    (toSession (fromSession s)).params.find "port" = s.params.find "port" ↔ PortTexts s.params := by
  have hcore : "port".toList ∈ kCoreFields := by decide
  have hport := fromSession_port s
  rw [toSession_find_core _ hcore, if_pos rfl]
  cases hf : s.params.find "port" with
  | none =>
    rw [portField_none (hport.trans hf)]
    exact iff_of_true rfl fun v hv => absurd (hv.symm.trans hf) (Option.some_ne_none v)
  | some v =>
    rw [portField_iff (hport.trans hf)]
    refine ⟨fun h w hw => ?_, fun h => h v hf⟩
    obtain rfl := Option.some.inj (hf.symm.trans hw)
    exact h

theorem params_iff : (toSession (fromSession s)).params = s.params ↔ Formed s := by
  constructor
  · intro h
    have hfind (k : QString) : (toSession (fromSession s)).params.find k = s.params.find k := by
      rw [h]
    exact ⟨(formed_given s (.inl rfl)).mp (hfind _), (formed_given s (.inr rfl)).mp (hfind _),
      (formed_dropped s (.inl rfl)).mp (hfind _), (formed_dropped s (.inr rfl)).mp (hfind _),
      (formed_port s).mp (hfind _)⟩
  · intro h
    refine QMap.ext_find fun k => ?_
    by_cases hk : k ∈ kCoreFields
    · simp only [kCoreFields, List.mem_cons, List.not_mem_nil, or_false] at hk
      rcases hk with rfl | rfl | rfl | rfl | rfl
      · exact (formed_dropped s (.inl rfl)).mpr h.name
      · exact (formed_dropped s (.inr rfl)).mpr h.type
      · exact (formed_given s (.inl rfl)).mpr h.host
      · exact (formed_port s).mpr h.port
      · exact (formed_given s (.inr rfl)).mpr h.username
    · exact toSession_fromSession_find s hk

end RoundTrip

theorem form_keeps_iff (f : QMap QString) (s : Session) :
    (Keeps f ∧ (toSession (fromSession s)).params = s.params) ↔ (PortTexts f ∧ Formed s) :=
  and_congr (keeps_iff f) (params_iff s)

def serialForm : QMap QString :=
  .ofList [("name", "console"), ("port", "/dev/ttyUSB0"), ("type", "Serial")]

theorem serial_port_lost :
    ¬ ((∀ f : QMap QString, validate f = [] → Keeps f) ∧
      ∀ s : Session, (toSession (fromSession s)).params = s.params) := by
  rintro ⟨h, -⟩
  have hkept := (h serialForm (by decide)).params "port" "/dev/ttyUSB0" (by decide) (by decide)
    (by decide)
  exact absurd hkept (by decide)

end Core.SessionForm
