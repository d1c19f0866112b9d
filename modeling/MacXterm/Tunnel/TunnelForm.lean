import MacXterm.Core.Readings
import MacXterm.Qt.Map
import MacXterm.Qt.Variant

namespace TunnelForm

open Qt Core.SerialConnection

inductive TunnelKind where
  | local
  | remote
  | dynamic
  deriving DecidableEq

def tunnelKindToString : TunnelKind → QString
  | .local => "local"
  | .remote => "remote"
  | .dynamic => "dynamic"

structure Tunnel where
  kind : TunnelKind := .local
  bindAddr : QString := "127.0.0.1"
  bindPort : UInt16 := 0
  targetHost : QString := []
  targetPort : UInt16 := 0
  enabled : Bool := true
  deriving DecidableEq

def Tunnel.isValid (t : Tunnel) : Bool :=
  if t.bindPort = 0 then false
  else if t.kind = .dynamic then true
  else t.targetHost ≠ [] && t.targetPort ≠ 0

@[ext] structure TunnelManager where
  tunnels : List Tunnel
  valid : ∀ t ∈ tunnels, t.isValid = true
  distinct : (tunnels.map Tunnel.bindPort).Nodup

namespace TunnelManager

variable {m : TunnelManager} {t : Tunnel}

def bindPortInUse (m : TunnelManager) (port : UInt16) : Bool :=
  m.tunnels.any fun t => t.bindPort = port

theorem bindPortInUse_iff {port : UInt16} :
    m.bindPortInUse port = true ↔ port ∈ m.tunnels.map Tunnel.bindPort := by
  simp only [bindPortInUse, List.any_eq_true, decide_eq_true_eq, List.mem_map]

theorem valid_append (hvalid : t.isValid = true) : ∀ u ∈ m.tunnels ++ [t], u.isValid = true := by
  intro u hu
  rcases List.mem_append.mp hu with hu | hu
  · exact m.valid u hu
  · rwa [List.mem_singleton.mp hu]

theorem distinct_append (hfree : ¬ m.bindPortInUse t.bindPort = true) :
    ((m.tunnels ++ [t]).map Tunnel.bindPort).Nodup := by
  rw [List.map_append, List.nodup_append]
  refine ⟨m.distinct, by simp, fun p hp q hq => ?_⟩
  rintro rfl
  obtain rfl := List.mem_singleton.mp hq
  exact hfree (bindPortInUse_iff.mpr hp)

def empty : TunnelManager := ⟨[], nofun, .nil⟩

def add (m : TunnelManager) (t : Tunnel) : Bool × TunnelManager :=
  if hvalid : t.isValid = true then
    if hfree : m.bindPortInUse t.bindPort = true then (false, m)
    else (true, ⟨m.tunnels ++ [t], valid_append hvalid, distinct_append hfree⟩)
  else (false, m)

theorem add_iff :
    (m.add t).1 = true ↔ t.isValid = true ∧ m.bindPortInUse t.bindPort = false := by
  unfold add
  split
  · rename_i hvalid
    split
    · rename_i hfree
      exact iff_of_false Bool.false_ne_true fun h => Bool.false_ne_true (h.2.symm.trans hfree)
    · rename_i hfree
      exact iff_of_true rfl ⟨hvalid, Bool.eq_false_iff.mpr hfree⟩
  · rename_i hvalid
    exact iff_of_false Bool.false_ne_true fun h => hvalid h.1

def removeAt (m : TunnelManager) (i : Int) : TunnelManager :=
  if 0 ≤ i ∧ i < m.tunnels.length then
    ⟨m.tunnels.eraseIdx i.toNat, fun t ht => m.valid t (List.mem_of_mem_eraseIdx ht),
      ((List.eraseIdx_sublist _ _).map _).nodup m.distinct⟩
  else m

end TunnelManager

def kindFromString (s : QString) : TunnelKind :=
  let k := toLower s
  if k = "remote".toList then .remote
  else if k = "dynamic".toList then .dynamic
  else .local

def field (f : QMap QVariant) (k : QString) : QVariant := f.value k .invalid

@[simp] theorem field_insert (f : QMap QVariant) (k j : QString) (v : QVariant) :
    field (f.insert k v) j = if j = k then v else field f j := by
  unfold field QMap.value
  rw [QMap.find_insert]
  split
  · rfl
  · rfl

def toTunnel (f : QMap QVariant) : Tunnel where
  kind := kindFromString (field f "kind").toString
  bindAddr := if f.contains "bindAddr" then (field f "bindAddr").toString else "127.0.0.1"
  bindPort := (field f "bindPort").toUInt.toUInt16
  targetHost := (field f "targetHost").toString
  targetPort := (field f "targetPort").toUInt.toUInt16

def fromTunnel (t : Tunnel) : QMap QVariant :=
  let f : QMap QVariant := .empty
  let f := f.insert "kind" (.text (tunnelKindToString t.kind))
  let f := f.insert "bindAddr" (.text t.bindAddr)
  let f := f.insert "bindPort" (.number t.bindPort.toNat)
  let f := f.insert "targetHost" (.text t.targetHost)
  f.insert "targetPort" (.number t.targetPort.toNat)

def validate (f : QMap QVariant) : QString :=
  let t := toTunnel f
  if t.bindPort = 0 then "Bind port is required"
  else if t.kind ≠ .dynamic then
    if t.targetHost = [] then "Target host is required"
    else if t.targetPort = 0 then "Target port is required"
    else []
  else []

-- The kind a text names, if it names one.
def NamesKind (s : QString) (k : TunnelKind) : Prop := s ≠ [] → toLower s = tunnelKindToString k

-- The port is the number that was entered, if one was.
def Entered (v : QVariant) (port : UInt16) : Prop :=
  ∀ n, v.toNumber = some n → (port.toNat : Int) = n

structure Kept (f : QMap QVariant) : Prop where
  added : ∀ m : TunnelManager, m.bindPortInUse (toTunnel f).bindPort = false →
    (m.add (toTunnel f)).1 = true
  bindPort : Entered (field f "bindPort") (toTunnel f).bindPort
  targetPort : Entered (field f "targetPort") (toTunnel f).targetPort
  kind : NamesKind (field f "kind").toString (toTunnel f).kind

def InRange (v : QVariant) : Prop := ∀ n, v.toNumber = some n → 0 ≤ n ∧ n ≤ 65535

structure WellFilled (f : QMap QVariant) : Prop where
  bindPort : InRange (field f "bindPort")
  targetPort : InRange (field f "targetPort")
  kind : ∃ k, NamesKind (field f "kind").toString k

theorem kindFromString_name (k : TunnelKind) :
    kindFromString (tunnelKindToString k) = k := by
  cases k <;> decide

theorem kindFromString_congr {s t : QString} (h : toLower s = toLower t) :
    kindFromString s = kindFromString t := by
  unfold kindFromString
  rw [h]

theorem toLower_name (k : TunnelKind) : toLower (tunnelKindToString k) = tunnelKindToString k := by
  cases k <;> decide

theorem kindFromString_iff {s : QString} :
    NamesKind s (kindFromString s) ↔ ∃ k, NamesKind s k := by
  constructor
  · intro h
    exact ⟨kindFromString s, h⟩
  · rintro ⟨k, h⟩ hs
    have hlower := h hs
    rw [hlower, kindFromString_congr (hlower.trans (toLower_name k).symm), kindFromString_name]

theorem entered_iff {v : QVariant} : Entered v v.toUInt.toUInt16 ↔ InRange v := by
  constructor
  · intro h n hn
    have hport := h n hn
    have hlt : v.toUInt.toUInt16.toNat < 65536 := UInt16.toNat_lt _
    omega
  · intro h n hn
    obtain ⟨h0, hle⟩ := h n hn
    have hwide := QVariant.toUInt_of_toNumber hn h0 (by omega)
    rw [UInt32.toNat_toUInt16, Nat.mod_eq_of_lt (by omega), hwide]

theorem isValid_of_validate {f : QMap QVariant} (h : validate f = []) :
    (toTunnel f).isValid = true := by
  unfold validate at h
  unfold Tunnel.isValid
  dsimp only at h
  split at h
  · cases h
  · rename_i hbind
    rw [if_neg hbind]
    split at h
    · rename_i hkind
      rw [if_neg hkind]
      split at h
      · cases h
      · rename_i hhost
        split at h
        · cases h
        · rename_i htarget
          simp [hhost, htarget]
    · rename_i hkind
      rw [if_pos (not_not.mp hkind)]

theorem kept_iff {f : QMap QVariant} (h : validate f = []) : Kept f ↔ WellFilled f := by
  constructor
  · intro hkept
    exact ⟨entered_iff.mp hkept.bindPort, entered_iff.mp hkept.targetPort,
      kindFromString_iff.mp hkept.kind⟩
  · intro hfilled
    exact ⟨fun m hfree => TunnelManager.add_iff.mpr ⟨isValid_of_validate h, hfree⟩,
      entered_iff.mpr hfilled.bindPort, entered_iff.mpr hfilled.targetPort,
      kindFromString_iff.mpr hfilled.kind⟩

theorem port_toNat (p : UInt16) : (QVariant.number p.toNat).toUInt.toUInt16 = p := by
  have hin : InRange (.number p.toNat) := by
    intro n hn
    have hlt : p.toNat < 65536 := UInt16.toNat_lt p
    have hsame : (p.toNat : Int) = n := Option.some.inj hn
    omega
  have hport := entered_iff.mpr hin p.toNat rfl
  exact UInt16.toNat_inj.mp (Int.ofNat.inj hport)

theorem toTunnel_fromTunnel (t : Tunnel) :
    toTunnel (fromTunnel t) = { t with enabled := true } := by
  have hkind : field (fromTunnel t) "kind" = .text (tunnelKindToString t.kind) := by
    simp [fromTunnel]
  have haddr : field (fromTunnel t) "bindAddr" = .text t.bindAddr := by
    simp [fromTunnel]
  have hbind : field (fromTunnel t) "bindPort" = .number t.bindPort.toNat := by
    simp [fromTunnel]
  have hhost : field (fromTunnel t) "targetHost" = .text t.targetHost := by
    simp [fromTunnel]
  have htarget : field (fromTunnel t) "targetPort" = .number t.targetPort.toNat := by
    simp [fromTunnel]
  have hgiven : (fromTunnel t).contains "bindAddr" = true := by
    simp [QMap.contains, fromTunnel]
  unfold toTunnel
  rw [hkind, haddr, hbind, hhost, htarget, if_pos hgiven, port_toNat, port_toNat]
  simp only [QVariant.toString, kindFromString_name]

theorem comes_back_iff {t : Tunnel} : toTunnel (fromTunnel t) = t ↔ t.enabled = true := by
  rw [toTunnel_fromTunnel]
  constructor
  · intro h
    exact (congrArg Tunnel.enabled h).symm
  · intro h
    rw [← h]

theorem form_faithful_iff (f : QMap QVariant) (h : validate f = []) (t : Tunnel) :
    (Kept f ↔ WellFilled f) ∧ (toTunnel (fromTunnel t) = t ↔ t.enabled = true) :=
  ⟨kept_iff h, comes_back_iff⟩

def socksTunnel : Tunnel where
  kind := .dynamic
  bindPort := 1080

theorem form_faithful_iff_socks :
    Kept (fromTunnel socksTunnel) ∧ toTunnel (fromTunnel socksTunnel) = socksTunnel := by
  obtain ⟨hkept, hback⟩ := form_faithful_iff (fromTunnel socksTunnel) (by decide) socksTunnel
  refine ⟨hkept.mpr ⟨?_, ?_, ⟨.dynamic, fun _ => by decide⟩⟩, hback.mpr rfl⟩
  · intro n hn
    obtain rfl : 1080 = n := Option.some.inj hn
    decide
  · intro n hn
    obtain rfl : 0 = n := Option.some.inj hn
    decide

def wideForm : QMap QVariant :=
  let f : QMap QVariant := .empty
  let f := f.insert "kind" (.text "local")
  let f := f.insert "bindPort" (.number 65537)
  let f := f.insert "targetHost" (.text "10.0.0.1")
  f.insert "targetPort" (.number 80)

theorem wide_port_wraps :
    validate wideForm = [] ∧ (toTunnel wideForm).bindPort = 1 ∧
      ¬ ∀ f : QMap QVariant, validate f = [] → Kept f := by
  have hvalid : validate wideForm = [] := by decide
  refine ⟨hvalid, by decide, fun h => ?_⟩
  have hport := (h wideForm hvalid).bindPort 65537 (by decide)
  exact absurd hport (by decide)

-- The kinds are the items of the combo box, and the spin boxes are bounded.
structure TunnelDialog where
  kind : {s : QString // s ∈ ["local".toList, "remote".toList, "dynamic".toList]}
  bindAddr : QString
  bindPort : Fin 65536
  targetHost : QString
  targetPort : Fin 65536

namespace TunnelDialog

def fields (d : TunnelDialog) : QMap QVariant :=
  let f : QMap QVariant := .empty
  let f := f.insert "kind" (.text d.kind)
  let f := f.insert "bindAddr" (.text d.bindAddr)
  let f := f.insert "bindPort" (.number d.bindPort)
  let f := f.insert "targetHost" (.text d.targetHost)
  f.insert "targetPort" (.number d.targetPort)

theorem fields_wellFilled (d : TunnelDialog) : WellFilled d.fields := by
  have hkind : field d.fields "kind" = .text d.kind := by
    simp [fields]
  have hbind : field d.fields "bindPort" = .number d.bindPort := by
    simp [fields]
  have htarget : field d.fields "targetPort" = .number d.targetPort := by
    simp [fields]
  have hspin (i : Fin 65536) : InRange (.number (i : Nat)) := by
    intro n hn
    have hsame : ((i : Nat) : Int) = n := Option.some.inj hn
    have hlt := i.isLt
    omega
  refine ⟨hbind ▸ hspin d.bindPort, htarget ▸ hspin d.targetPort, ?_⟩
  rw [hkind]
  obtain ⟨s, hs⟩ := d.kind
  simp only [List.mem_cons, List.not_mem_nil, or_false] at hs
  rcases hs with rfl | rfl | rfl
  · exact ⟨.local, fun _ => toLower_name .local⟩
  · exact ⟨.remote, fun _ => toLower_name .remote⟩
  · exact ⟨.dynamic, fun _ => toLower_name .dynamic⟩

theorem accepted_kept {d : TunnelDialog} (h : validate d.fields = []) : Kept d.fields :=
  (kept_iff h).mpr d.fields_wellFilled

end TunnelDialog

end TunnelForm
