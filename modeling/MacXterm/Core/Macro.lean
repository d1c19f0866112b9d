import MacXterm.Qt.DataStream

namespace Core

open Qt DataStream

structure Macro where
  name : QString
  recording : Bool := false
  events : List Chunk := []
  deriving DecidableEq

namespace Macro

def beginRecording (m : Macro) : Macro := { m with recording := true, events := [] }

def record (m : Macro) (c : Chunk) : Macro :=
  if m.recording then { m with events := m.events ++ [c] } else m

def endRecording (m : Macro) : Macro := { m with recording := false }

-- What replay gives to its sink, one event after the other.
def replay (m : Macro) : List QByteArray := m.events.map fun e => e.getD []

def serialize (m : Macro) : QByteArray :=
  writeUInt32 (.ofNat m.events.length) ++ m.events.flatMap writeByteArray

def readEvents : Nat → DataStream → List Chunk
  | 0, _ => []
  | n + 1, ds =>
      let (e, ds) := ds.readByteArray
      if ds.ok then e :: readEvents n ds else []

def deserialize (name : QString) (blob : QByteArray) : Macro :=
  let (n, ds) := readUInt32 ⟨blob, true⟩
  { name := name, events := readEvents n.toNat ds }

theorem readEvents_succ (n : Nat) (ds : DataStream) :
    readEvents (n + 1) ds =
      if ds.readByteArray.2.ok then ds.readByteArray.1 :: readEvents n ds.readByteArray.2
      else [] := rfl

theorem length_readEvents_le (n : Nat) (ds : DataStream) : (readEvents n ds).length ≤ n := by
  induction n generalizing ds with
  | zero => exact Nat.le_refl 0
  | succ n ih =>
    rw [readEvents_succ]
    split
    · exact Nat.succ_le_succ (ih _)
    · exact Nat.zero_le _

theorem readEvents_write {es : List Chunk} (h : ∀ e ∈ es, Storable e) (rest : QByteArray) :
    readEvents es.length ⟨es.flatMap writeByteArray ++ rest, true⟩ = es := by
  induction es with
  | nil => rfl
  | cons e es ih =>
    obtain ⟨he, hes⟩ := List.forall_mem_cons.mp h
    rw [List.length_cons, List.flatMap_cons, List.append_assoc, readEvents_succ,
      readByteArray_write he, if_pos rfl, ih hes]

theorem storable_of_readEvents {n : Nat} {es : List Chunk} {rest : QByteArray}
    (h : readEvents n ⟨es.flatMap writeByteArray ++ rest, true⟩ = es) :
    ∀ e ∈ es, Storable e := by
  induction es generalizing n with
  | nil => exact nofun
  | cons e es ih =>
    cases n with
    | zero => cases h
    | succ n =>
      rw [List.flatMap_cons, List.append_assoc, readEvents_succ] at h
      split at h
      · obtain ⟨he, htail⟩ := List.cons.inj h
        have hstore : Storable e := by
          by_contra hcut
          exact readByteArray_cut hcut _ _ he
        rw [readByteArray_write hstore] at htail
        exact List.forall_mem_cons.mpr ⟨hstore, ih htail⟩
      · cases h

-- A cut inside an event makes its read fail; a cut behind it leaves the later ones.
theorem readEvents_cut {es : List Chunk} (h : ∀ e ∈ es, Storable e) {p q : QByteArray}
    (hcut : es.flatMap writeByteArray = p ++ q) {n : Nat} (hn : n ≤ es.length) :
    readEvents n ⟨p, true⟩ <+: es := by
  induction n generalizing es p with
  | zero => exact List.nil_prefix
  | succ n ih =>
    cases es with
    | nil => cases hn
    | cons e es =>
      obtain ⟨he, hes⟩ := List.forall_mem_cons.mp h
      rw [readEvents_succ]
      split
      · rename_i hok
        obtain ⟨hstore, hbytes⟩ := readByteArray_sound hok
        rw [← hbytes, List.flatMap_cons, List.append_assoc] at hcut
        obtain ⟨hsame, hrest⟩ := chunk.append_cancel (a := ⟨e, he⟩) (b := ⟨_, hstore⟩) hcut
        have hfirst : e = (readByteArray ⟨p, true⟩).1 := congrArg Subtype.val hsame
        rw [← hfirst, List.prefix_cons_inj, eq_of_ok hok]
        exact ih hes hrest (Nat.le_of_succ_le_succ hn)
      · exact List.nil_prefix

theorem events_foldl_record {m : Macro} (hm : m.recording = true) (chunks : List Chunk) :
    (chunks.foldl record m).events = m.events ++ chunks := by
  induction chunks generalizing m with
  | nil => rw [List.foldl_nil, List.append_nil]
  | cons c chunks ih =>
    have hstep : m.record c = { m with events := m.events ++ [c] } := if_pos hm
    have hrest := ih (m := { m with events := m.events ++ [c] }) hm
    rw [List.foldl_cons, hstep, hrest, List.append_assoc, List.singleton_append]

-- Every list of chunks can be recorded.
theorem recorded (m : Macro) (chunks : List Chunk) :
    (chunks.foldl record m.beginRecording).events = chunks :=
  events_foldl_record (m := m.beginRecording) rfl chunks

structure Faithful (m : Macro) : Prop where
  round_trip : ∀ name, (deserialize name m.serialize).events = m.events
  truncated : ∀ name p q, q ≠ [] → m.serialize = p ++ q → (deserialize name p).events <+: m.events

structure Fits (m : Macro) : Prop where
  count : m.events.length < 4294967296
  chunks : ∀ e ∈ m.events, Storable e

theorem toNat_count {m : Macro} (h : m.events.length < 4294967296) :
    (UInt32.ofNat m.events.length).toNat = m.events.length := by
  rw [UInt32.toNat_ofNat', Nat.mod_eq_of_lt h]

theorem deserialize_serialize (m : Macro) (name : QString) :
    (deserialize name m.serialize).events =
      readEvents (UInt32.ofNat m.events.length).toNat
        ⟨m.events.flatMap writeByteArray, true⟩ := by
  rw [deserialize, serialize, readUInt32_write]

theorem Fits.round_trip {m : Macro} (h : Fits m) (name : QString) :
    (deserialize name m.serialize).events = m.events := by
  have hread := readEvents_write h.chunks []
  rw [List.append_nil] at hread
  rw [deserialize_serialize, toNat_count h.count, hread]

theorem Fits.truncated {m : Macro} (h : Fits m) (name : QString) {p q : QByteArray}
    (hcut : m.serialize = p ++ q) : (deserialize name p).events <+: m.events := by
  have hcount := toNat_count h.count
  rw [deserialize]
  cases hread : (readUInt32 ⟨p, true⟩).2.ok with
  | false =>
    rw [readUInt32_short hread]
    exact List.nil_prefix
  | true =>
    have hbytes := write_readUInt32 hread
    rw [← hbytes, serialize, List.append_assoc] at hcut
    obtain ⟨hn, hrest⟩ := Codec.word.append_cancel hcut
    have hevents := readEvents_cut h.chunks hrest (Nat.le_refl _)
    rw [← hcount, hn, ← eq_of_ok hread] at hevents
    exact hevents

theorem fits_of_round_trip {m : Macro} {name : QString}
    (h : (deserialize name m.serialize).events = m.events) : Fits m := by
  rw [deserialize_serialize] at h
  have hmany := length_readEvents_le (UInt32.ofNat m.events.length).toNat
    ⟨m.events.flatMap writeByteArray, true⟩
  have hlt := (UInt32.ofNat m.events.length).toNat_lt
  rw [h] at hmany
  refine ⟨by omega, ?_⟩
  rw [← List.append_nil (m.events.flatMap writeByteArray)] at h
  exact storable_of_readEvents h

theorem faithful_iff_fits (m : Macro) : Faithful m ↔ Fits m := by
  constructor
  · intro h
    exact fits_of_round_trip (h.round_trip m.name)
  · intro h
    exact ⟨h.round_trip, fun name p q _ hcut => h.truncated name hcut⟩

def longEvent : Macro where
  name := []
  events := [some (List.replicate 4294967296 0)]

theorem longEvent_lost : ¬Faithful longEvent := by
  intro h
  have hfits := fits_of_round_trip (h.round_trip [])
  have hlength := hfits.chunks _ List.mem_cons_self _ rfl
  rw [List.length_replicate] at hlength
  omega

end Macro

end Core
