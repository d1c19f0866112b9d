import Mathlib.Logic.Function.Basic
import MacXterm.Tools.SshServer

namespace SshServer

open Qt

def Resource.pointer : Resource → UInt64
  | .file fd => toPointer fd
  | .dir d => d

def Resource.Valid : Resource → Prop
  | .file fd => 0 ≤ fd
  | .dir d => d ≠ 0

-- CLOSE tells the kinds apart by the size of the number.
def Resource.Closes : Resource → Prop
  | .file fd => fd < 0x100000
  | .dir d => ¬isDescriptor d

abbrev Issued := QByteArray → Option Resource

def issue {T : Type} (issued : Issued) (m : Message) (v : Served T) : Issued :=
  match m, v.acts, v.reply with
  | .close h, _, _ => Function.update issued h none
  | _, [.acquire r], .handle h => Function.update issued h (some r)
  | _, _, _ => issued

-- What the server holds, which resource each handle was issued for, and what was done so far.
structure State (H : HandleTable) where
  table : H.Table
  issued : Issued
  past : List (Act Resource)

def State.new (H : HandleTable) : State H := ⟨H.empty, fun _ => none, []⟩

def State.next {H : HandleTable} (root : QString) (os : Os) (s : State H) (m : Message) : State H :=
  let v := serve H root os s.table m
  ⟨v.table, issue s.issued m v, s.past ++ v.acts⟩

-- The system gives out no descriptor and no directory stream that is in use.
structure Os.Fresh (os : Os) (past : List (Act Resource)) : Prop where
  openFile : ∀ path flags, 0 ≤ os.openFile path flags →
    ¬Act.Holds past (.file (os.openFile path flags))
  opendir : ∀ path, os.opendir path ≠ 0 → ¬Act.Holds past (.dir (os.opendir path))

def Misused (issued : Issued) : Message → Prop
  | .read h _ _ | .write h _ _ => ∀ fd, issued h ≠ some (.file fd)
  | .readdir h => ∀ d, issued h ≠ some (.dir d)
  | .close h => issued h = none
  | _ => False

def Careful (issued : Issued) : Message → Prop
  | .read h _ _ | .write h _ _ => ∃ fd, issued h = some (.file fd)
  | .readdir h => ∀ fd, issued h = some (.file fd) → fd = 0
  | .close h => ∃ r, issued h = some r ∧ r.Closes ∧
      ∀ k q, issued k = some q → q.pointer = r.pointer → k = h
  | _ => True

inductive Reached {H : HandleTable} (root : QString) : State H → Prop
  | new : Reached root (.new H)
  | step {s : State H} {os : Os} {m : Message} : Reached root s → os.Fresh s.past →
      Careful s.issued m → Reached root (s.next root os m)

def Reply.Failure : Reply → Prop
  | .status code _ => code ≠ .ok ∧ code ≠ .eof
  | _ => False

def Refused {T : Type} (t : T) (v : Served T) : Prop :=
  v.reply.Failure ∧ v.calls = [] ∧ v.table = t

structure Good {H : HandleTable} (s : State H) : Prop where
  stored : ∀ h, H.find s.table h = (s.issued h).elim 0 Resource.pointer
  owned : ∀ h r, s.issued h = some r → r.Valid ∧ Act.Holds s.past r
  alone : ∀ h k r, s.issued h = some r → s.issued k = some r → h = k

section Pointer

theorem toDescriptor_toPointer (fd : Int32) : toDescriptor (toPointer fd) = fd := by
  simp [toDescriptor, toPointer]

theorem isDescriptor_toPointer (fd : Int32) :
    isDescriptor (toPointer fd) ↔ 0 < fd ∧ fd < 0x100000 := by
  simp [isDescriptor, toPointer, Int64.lt_iff_toInt_lt, Int32.lt_iff_toInt_lt]

theorem toPointer_eq_zero_iff (fd : Int32) : toPointer fd = 0 ↔ fd = 0 := by
  constructor
  · intro h
    rw [← toDescriptor_toPointer fd, h]
    rfl
  · rintro rfl
    rfl

end Pointer

section Step

variable {H : HandleTable} {root : QString} {os : Os} {s : State H}

theorem next_eq (root : QString) (os : Os) (s : State H) (m : Message) :
    s.next root os m =
      ⟨(serve H root os s.table m).table, issue s.issued m (serve H root os s.table m),
        s.past ++ (serve H root os s.table m).acts⟩ := rfl

theorem Good.keep (hg : Good s) {t : H.Table} (hfind : ∀ k, H.find t k = H.find s.table k)
    {acts : List (Act Resource)} (hacts : ∀ r, .release r ∉ acts) :
    Good (H := H) ⟨t, s.issued, s.past ++ acts⟩ :=
  ⟨fun k => (hfind k).trans (hg.stored k),
    fun k r hk => ⟨(hg.owned k r hk).1, (hg.owned k r hk).2.append (hacts r)⟩, hg.alone⟩

theorem Good.set (hg : Good s) {t : H.Table} {handle : QByteArray} {new : Option Resource}
    (hfind : ∀ k, H.find t k =
      if k = handle then new.elim 0 Resource.pointer else H.find s.table k)
    {acts : List (Act Resource)}
    (hnew : ∀ r, new = some r → r.Valid ∧ Act.Holds (s.past ++ acts) r ∧ ∀ k, s.issued k ≠ some r)
    (hacts : ∀ k r, k ≠ handle → s.issued k = some r → .release r ∉ acts) :
    Good (H := H) ⟨t, Function.update s.issued handle new, s.past ++ acts⟩ := by
  refine ⟨fun k => ?_, fun k r hk => ?_, fun h k r hh hk => ?_⟩
  · change H.find t k = (Function.update s.issued handle new k).elim 0 Resource.pointer
    rw [hfind k, hg.stored k]
    by_cases hk : k = handle
    · rw [if_pos hk, hk, Function.update_self]
    · rw [if_neg hk, Function.update_of_ne hk]
  · change Function.update s.issued handle new k = some r at hk
    by_cases hkh : k = handle
    · rw [hkh, Function.update_self] at hk
      exact ⟨(hnew r hk).1, (hnew r hk).2.1⟩
    · rw [Function.update_of_ne hkh] at hk
      exact ⟨(hg.owned k r hk).1, (hg.owned k r hk).2.append (hacts k r hkh hk)⟩
  · change Function.update s.issued handle new h = some r at hh
    change Function.update s.issued handle new k = some r at hk
    by_cases hh' : h = handle <;> by_cases hk' : k = handle
    · exact hh'.trans hk'.symm
    · rw [hh', Function.update_self] at hh
      rw [Function.update_of_ne hk'] at hk
      exact absurd hk ((hnew r hh).2.2 k)
    · rw [hk', Function.update_self] at hk
      rw [Function.update_of_ne hh'] at hh
      exact absurd hh ((hnew r hk).2.2 h)
    · rw [Function.update_of_ne hh'] at hh
      rw [Function.update_of_ne hk'] at hk
      exact hg.alone h k r hh hk

theorem good_uses (hg : Good s) {m : Message} (hm : ∀ h, m ≠ .close h)
    (htable : (serve H root os s.table m).table = s.table)
    (hacts : ∀ a ∈ (serve H root os s.table m).acts, ∃ r, a = .use r ∧ Act.Holds s.past r) :
    Good (s.next root os m) ∧ Act.Legal s.past (serve H root os s.table m).acts := by
  have hno : ∀ a ∈ (serve H root os s.table m).acts, ∀ r, a ≠ .acquire r ∧ a ≠ .release r := by
    intro a ha r
    obtain ⟨q, rfl, -⟩ := hacts a ha
    exact ⟨nofun, nofun⟩
  have hissue : issue s.issued m (serve H root os s.table m) = s.issued := by
    unfold issue
    split
    · exact absurd rfl (hm _)
    · rename_i r _ _ hr _
      exact absurd rfl (hno (.acquire r) (hr ▸ List.mem_singleton.mpr rfl) r).1
    · rfl
  rw [next_eq, htable, hissue]
  exact ⟨hg.keep (fun _ => rfl) fun r hr => (hno _ hr r).2 rfl, Act.legal_uses hacts⟩

-- What a message that may open something does: all or nothing.
def Opens (T : HandleTable) (t : T.Table) (v : Served T.Table) (past : List (Act Resource)) :
    Prop :=
  (v.acts = [] ∧ v.table = t) ∨
    ∃ r, r.Valid ∧ ¬Act.Holds past r ∧ v.acts = [.acquire r] ∧
      v.table = (T.alloc t r.pointer).2 ∧ v.reply = replyHandle (T.alloc t r.pointer).1

theorem opens_opendir (hos : os.Fresh s.past) (full : QString) :
    Opens H s.table (serveOpendir H os s.table full) s.past := by
  unfold serveOpendir
  by_cases hfull : full = []
  · exact .inl (by simp [hfull, Served.acts])
  · by_cases hd : os.opendir full = 0
    · exact .inl (by simp [hfull, hd, Served.acts, Call.act])
    · refine .inr ⟨.dir (os.opendir full), hd, hos.opendir full hd, ?_⟩
      simp [hfull, hd, Served.acts, Call.act, Resource.pointer]

theorem opens_openFile (hos : os.Fresh s.past) (full : QString) (flags : UInt32) :
    Opens H s.table (serveOpen H os s.table full flags) s.past := by
  have hneg : (-1 : Int32) < 0 := by decide
  unfold serveOpen
  by_cases hfull : full = []
  · exact .inl (by simp [hfull, hneg, Served.acts])
  · by_cases hfd : os.openFile full (openFlags flags) < 0
    · exact .inl (by simp [hfull, hfd, Served.acts, Call.act])
    · have hvalid : 0 ≤ os.openFile full (openFlags flags) := Int32.not_lt.mp hfd
      refine .inr ⟨.file (os.openFile full (openFlags flags)), hvalid, hos.openFile _ _ hvalid, ?_⟩
      have hno : ¬os.openFile full (openFlags flags) < 0 := hfd
      simp only [hfull, if_false, hno, Served.acts, List.filterMap_cons, List.filterMap_nil,
        Call.act, Resource.pointer, and_self]

theorem good_opens (hg : Good s) {m : Message} (hm : ∀ h, m ≠ .close h)
    (h : Opens H s.table (serve H root os s.table m) s.past) :
    Good (s.next root os m) ∧ Act.Legal s.past (serve H root os s.table m).acts := by
  rcases h with ⟨hacts, htable⟩ | ⟨r, hvalid, hnew, hacts, htable, hreply⟩
  · exact good_uses hg hm htable (by simp [hacts])
  · refine ⟨?_, hacts ▸ Act.legal_singleton trivial⟩
    cases halloc : H.alloc s.table r.pointer with
    | mk handle t =>
      rw [halloc] at htable hreply
      cases handle with
      | none =>
        have hissue : issue s.issued m (serve H root os s.table m) = s.issued := by
          unfold issue
          split
          · exact absurd rfl (hm _)
          · rename_i hr
            rw [hreply] at hr
            cases hr
          · rfl
        rw [next_eq, htable, hissue, hacts]
        exact hg.keep (H.find_full _ _ _ halloc) (by simp)
      | some handle =>
        have hissue : issue s.issued m (serve H root os s.table m) =
            Function.update s.issued handle (some r) := by
          unfold issue
          split
          · exact absurd rfl (hm _)
          · rename_i q g _ hq hr
            rw [hacts] at hq
            rw [hreply] at hr
            obtain rfl : r = q := by simpa using hq
            obtain rfl : handle = g := Reply.handle.inj hr
            rfl
          · rename_i hno
            exact absurd hreply (hno r handle hacts)
        rw [next_eq, htable, hissue, hacts]
        refine hg.set (H.find_alloc _ _ _ _ halloc).2 (fun q hq => ?_) (by simp)
        obtain rfl := Option.some.inj hq
        exact ⟨hvalid, Act.holds_acquire s.past r, fun k hk => hnew (hg.owned k r hk).2⟩

theorem serveClose_calls {t : H.Table} {handle : QByteArray} {p : UInt64}
    (h : H.find t handle = p) :
    (serveClose H t handle).calls =
      if isDescriptor p then [.close (toDescriptor p)]
      else if p ≠ 0 then [.closedir p]
      else [] := by
  subst h
  rfl

theorem serveClose_acts {t : H.Table} {handle : QByteArray} {r : Resource}
    (hfind : H.find t handle = r.pointer) (hvalid : r.Valid) (hcloses : r.Closes) :
    (serveClose H t handle).acts = if r.pointer = 0 then [] else [.release r] := by
  rw [Served.acts, serveClose_calls hfind]
  by_cases hzero : r.pointer = 0
  · have hno : ¬isDescriptor r.pointer := by
      rw [hzero]
      decide
    rw [if_neg hno, if_neg (not_not.mpr hzero), if_pos hzero]
    rfl
  · rw [if_neg hzero]
    cases r with
    | file fd =>
      have hpos : 0 < fd := by
        have hne : fd.toInt ≠ (0 : Int32).toInt := fun h =>
          hzero ((toPointer_eq_zero_iff fd).mpr (Int32.toInt_inj.mp h))
        have hle := Int32.le_iff_toInt_le.mp hvalid
        rw [Int32.lt_iff_toInt_lt]
        omega
      have his : isDescriptor (Resource.file fd).pointer :=
        (isDescriptor_toPointer fd).mpr ⟨hpos, hcloses⟩
      rw [if_pos his]
      change [Act.release (Resource.file (toDescriptor (toPointer fd)))] = _
      rw [toDescriptor_toPointer]
    | dir d =>
      have hno : ¬isDescriptor (Resource.dir d).pointer := hcloses
      rw [if_neg hno, if_pos hzero]
      rfl

theorem good_close (hg : Good s) {handle : QByteArray} (hm : Careful s.issued (.close handle)) :
    Good (s.next root os (.close handle)) ∧
      Act.Legal s.past (serve H root os s.table (.close handle)).acts := by
  obtain ⟨r, hr, hcloses, hunique⟩ := hm
  obtain ⟨hvalid, hholds⟩ := hg.owned handle r hr
  have hfind : H.find s.table handle = r.pointer := by
    rw [hg.stored, hr]
    rfl
  have hacts : (serve H root os s.table (.close handle)).acts =
      if r.pointer = 0 then [] else [.release r] := serveClose_acts hfind hvalid hcloses
  have hlegal : Act.Legal s.past (serve H root os s.table (.close handle)).acts := by
    rw [hacts]
    split
    · exact Act.legal_nil _
    · exact Act.legal_singleton hholds
  have hissue : issue s.issued (.close handle) (serve H root os s.table (.close handle)) =
      Function.update s.issued handle none := rfl
  have htable : (serve H root os s.table (.close handle)).table =
      H.remove s.table (H.find s.table handle) := rfl
  refine ⟨?_, hlegal⟩
  rw [next_eq, hissue, htable, hfind, hacts]
  refine hg.set (fun k => ?_) nofun fun k q hkh hk => ?_
  · obtain ⟨g, hgfind, hremove⟩ := H.find_remove _ _ _ hfind
    change H.find (H.remove s.table r.pointer) k = if k = handle then 0 else H.find s.table k
    rw [hremove k]
    by_cases hzero : r.pointer = 0
    · by_cases hkg : k = g
      · rw [if_pos hkg, hkg, hgfind, hzero, ite_self]
      · rw [if_neg hkg]
        split
        · rename_i hkh
          rw [hkh, hfind, hzero]
        · rfl
    · have hgh : g = handle := by
        rw [hg.stored] at hgfind
        cases hq : s.issued g with
        | none =>
          rw [hq] at hgfind
          exact absurd hgfind.symm hzero
        | some q =>
          rw [hq] at hgfind
          exact hunique g q hq hgfind
      rw [hgh]
  · split
    · exact List.not_mem_nil
    · intro hmem
      obtain rfl : q = r := by simpa using hmem
      exact hkh (hg.alone k handle q hk hr)

theorem readNames_calls (d : UInt64) (count : Nat) (entries : List Dirent) :
    ∀ c ∈ (readNames d count entries).2, c = .readdir d := by
  induction entries generalizing count with
  | nil => simp [readNames]
  | cons de rest ih =>
    intro c hc
    simp only [readNames] at hc
    split at hc
    · simpa using hc
    · rcases List.mem_cons.mp hc with rfl | hc
      · rfl
      · exact ih (count + 1) c hc

theorem good_readdir (hg : Good s) {handle : QByteArray}
    (hm : Careful s.issued (.readdir handle)) :
    (serve H root os s.table (.readdir handle)).table = s.table ∧
      ∀ a ∈ (serve H root os s.table (.readdir handle)).acts,
        ∃ r, a = .use r ∧ Act.Holds s.past r := by
  have hfind := hg.stored handle
  change (serveReaddir H os s.table handle).table = s.table ∧
    ∀ a ∈ (serveReaddir H os s.table handle).acts, ∃ r, a = .use r ∧ Act.Holds s.past r
  unfold serveReaddir
  by_cases hd : H.find s.table handle = 0
  · simp [hd, Served.acts]
  · simp only [hd, if_false, true_and]
    intro a ha
    obtain ⟨c, hc, hact⟩ := List.mem_filterMap.mp ha
    obtain rfl := readNames_calls _ _ _ c hc
    obtain rfl : Act.use (.dir (H.find s.table handle)) = a := by simpa [Call.act] using hact
    cases hr : s.issued handle with
    | none =>
      rw [hr] at hfind
      exact absurd hfind hd
    | some r =>
      rw [hr] at hfind
      cases r with
      | file fd =>
        obtain rfl := hm fd hr
        exact absurd hfind hd
      | dir d => exact ⟨_, rfl, hfind ▸ (hg.owned handle _ hr).2⟩

theorem find_file (hg : Good s) {handle : QByteArray} {fd : Int32}
    (h : s.issued handle = some (.file fd)) : toDescriptor (H.find s.table handle) = fd := by
  rw [hg.stored, h]
  exact toDescriptor_toPointer fd

theorem good_next (hg : Good s) (hos : os.Fresh s.past) {m : Message} (hm : Careful s.issued m) :
    Good (s.next root os m) ∧ Act.Legal s.past (serve H root os s.table m).acts := by
  cases m with
  | realpath fname => exact good_uses hg nofun rfl nofun
  | stat fname => exact good_uses hg nofun rfl nofun
  | lstat fname => exact good_uses hg nofun rfl nofun
  | opendir fname => exact good_opens hg nofun (opens_opendir hos _)
  | readdir handle =>
    obtain ⟨htable, hacts⟩ := @good_readdir _ root os _ hg _ hm
    exact good_uses hg nofun htable hacts
  | openFile fname flags => exact good_opens hg nofun (opens_openFile hos _ flags)
  | read handle offset len =>
    obtain ⟨fd, hfd⟩ := hm
    refine good_uses hg nofun rfl fun a ha => ?_
    obtain rfl := List.mem_singleton.mp ha
    exact ⟨_, rfl, (find_file hg hfd).symm ▸ (hg.owned handle _ hfd).2⟩
  | write handle offset data =>
    obtain ⟨fd, hfd⟩ := hm
    refine good_uses hg nofun rfl fun a ha => ?_
    obtain rfl := List.mem_singleton.mp ha
    exact ⟨_, rfl, (find_file hg hfd).symm ▸ (hg.owned handle _ hfd).2⟩
  | close handle => exact good_close hg hm
  | mkdir fname => exact good_uses hg nofun rfl nofun
  | rmdir fname => exact good_uses hg nofun rfl nofun
  | remove fname => exact good_uses hg nofun rfl nofun
  | setstat => exact good_uses hg nofun rfl nofun
  | fsetstat handle => exact good_uses hg nofun rfl nofun
  | other => exact good_uses hg nofun rfl nofun

theorem good_reached (h : Reached root s) : Good s ∧ Act.Legal [] s.past := by
  induction h with
  | new => exact ⟨⟨H.find_empty, nofun, nofun⟩, Act.legal_nil []⟩
  | step _ hos hm ih =>
    obtain ⟨hgood, hlegal⟩ := @good_next _ root _ _ ih.1 hos _ hm
    exact ⟨hgood, Act.legal_append ih.2 hlegal⟩

-- With the condition met, only READDIR can still meet a handle that it must not take.
theorem refused_of_good (hg : Good s) {m : Message} (hm : Careful s.issued m)
    (hmis : Misused s.issued m) : Refused s.table (serve H root os s.table m) := by
  cases m with
  | read handle offset len =>
    obtain ⟨fd, hfd⟩ := hm
    exact absurd hfd (hmis fd)
  | write handle offset data =>
    obtain ⟨fd, hfd⟩ := hm
    exact absurd hfd (hmis fd)
  | close handle =>
    obtain ⟨r, hr, -⟩ := hm
    exact absurd (hmis.symm.trans hr) nofun
  | readdir handle =>
    have hfind : H.find s.table handle = 0 := by
      rw [hg.stored]
      cases hr : s.issued handle with
      | none => rfl
      | some r =>
        cases r with
        | file fd =>
          obtain rfl := hm fd hr
          rfl
        | dir d => exact absurd hr (hmis d)
    change Refused s.table (serveReaddir H os s.table handle)
    simp only [serveReaddir, hfind, if_true]
    exact ⟨⟨nofun, nofun⟩, rfl, rfl⟩
  | realpath fname | stat fname | lstat fname | opendir fname | openFile fname flags
  | mkdir fname | rmdir fname | remove fname | setstat | fsetstat handle | other => cases hmis

theorem handles_typed (h : Reached root s) :
    Act.Legal [] s.past ∧ ∀ os m, Careful s.issued m → Misused s.issued m →
      Refused s.table (serve H root os s.table m) :=
  ⟨(good_reached h).2, fun _ _ => refused_of_good (good_reached h).1⟩

end Step

-- The table of libssh itself: 256 slots, of which a null one is free.
namespace Slots

def find (t : UInt8 → UInt64) : QByteArray → UInt64
  | [a, 0, 0, 0] => t a
  | _ => 0

def slot (t : UInt8 → UInt64) (v : UInt64) : Option UInt8 :=
  ((List.range 256).map Nat.toUInt8).find? fun a => t a = v

def alloc (t : UInt8 → UInt64) (v : UInt64) : Option QByteArray × (UInt8 → UInt64) :=
  match slot t 0 with
  | some a => (some [a, 0, 0, 0], Function.update t a v)
  | none => (none, t)

def remove (t : UInt8 → UInt64) (v : UInt64) : UInt8 → UInt64 :=
  match slot t v with
  | some a => Function.update t a 0
  | none => t

theorem find_update (t : UInt8 → UInt64) (a : UInt8) (v : UInt64) (k : QByteArray) :
    find (Function.update t a v) k = if k = [a, 0, 0, 0] then v else find t k := by
  unfold find
  split
  · rename_i b
    by_cases hb : b = a
    · simp [hb]
    · simp [hb]
  · rename_i hno
    rw [if_neg (hno a)]

theorem slot_some {t : UInt8 → UInt64} {v : UInt64} {a : UInt8} (h : slot t v = some a) :
    t a = v := by
  simpa using List.find?_some h

theorem slot_none {t : UInt8 → UInt64} {v : UInt64} (h : slot t v = none) (a : UInt8) :
    t a ≠ v := by
  have hmem : a ∈ (List.range 256).map Nat.toUInt8 :=
    List.mem_map.mpr ⟨a.toNat, List.mem_range.mpr a.toNat_lt, by simp⟩
  simpa using List.find?_eq_none.mp h a hmem

def table : HandleTable where
  Table := UInt8 → UInt64
  empty := fun _ => 0
  find := find
  alloc := alloc
  remove := remove
  find_empty h := by
    unfold find
    split <;> rfl
  find_alloc t v h t' he := by
    unfold alloc at he
    split at he
    · rename_i a ha
      obtain ⟨rfl, rfl⟩ : [a, 0, 0, 0] = h ∧ Function.update t a v = t' := by simpa using he
      exact ⟨slot_some ha, find_update t a v⟩
    · simp at he
  find_full t v t' he := by
    unfold alloc at he
    split at he
    · simp at he
    · obtain rfl : t = t' := by simpa using he
      exact fun _ => rfl
  find_remove t v h hv := by
    unfold remove
    split
    · rename_i a ha
      exact ⟨[a, 0, 0, 0], slot_some ha, find_update t a 0⟩
    · rename_i hnone
      refine ⟨h, hv, fun k => ?_⟩
      split
      · rename_i hk
        rw [hk]
        unfold find at hv ⊢
        split at hv
        · exact absurd hv (slot_none hnone _)
        · rfl
      · rfl

end Slots

def failing : Os where
  stat _ := none
  opendir _ := 0
  entries _ := []
  openFile _ _ := -1
  pread _ _ _ := none
  pwrite _ _ _ := none
  mkdir _ := false
  rmdir _ := false
  unlink _ := false

theorem fresh_failing (past : List (Act Resource)) : failing.Fresh past :=
  ⟨fun _ _ h => absurd (show (0 : Int32) ≤ -1 from h) (by decide), fun _ h => absurd rfl h⟩

def newSession : State Slots.table := .new Slots.table

theorem unknown_handle_reads :
    Misused newSession.issued (.read [7, 0, 0, 0] 0 16) ∧
      ¬Act.Legal [] (newSession.next "/srv" failing (.read [7, 0, 0, 0] 0 16)).past := by
  refine ⟨nofun, fun h => ?_⟩
  have hpast : (newSession.next "/srv" failing (.read [7, 0, 0, 0] 0 16)).past =
      [] ++ .use (.file 0) :: [] := rfl
  obtain ⟨before, since, he, -⟩ := h [] (.use (.file 0)) [] hpast
  simp at he

def opening : Os := { failing with openFile := fun _ _ => 5 }

theorem fresh_opening : opening.Fresh [] :=
  ⟨fun _ _ _ h => by obtain ⟨before, since, he, -⟩ := h; simp at he, fun _ h => absurd rfl h⟩

def afterOpen : State Slots.table := newSession.next "/srv" opening (.openFile none 1)

theorem handles_typed_open_read :
    Act.Legal [] (afterOpen.next "/srv" failing (.read [0, 0, 0, 0] 0 16)).past ∧
      Refused afterOpen.table
        (serve Slots.table "/srv" failing afterOpen.table (.readdir [9, 0, 0, 0])) := by
  have hopen : Reached "/srv" afterOpen := .step .new fresh_opening trivial
  have hknown : afterOpen.issued [0, 0, 0, 0] = some (.file 5) := by decide +kernel
  have hunknown : afterOpen.issued [9, 0, 0, 0] = none := by decide +kernel
  have hread : Reached "/srv" (afterOpen.next "/srv" failing (.read [0, 0, 0, 0] 0 16)) :=
    .step hopen (fresh_failing _) ⟨5, hknown⟩
  refine ⟨(handles_typed hread).1, (handles_typed hopen).2 failing _ (fun fd h => ?_) fun d h => ?_⟩
  · rw [hunknown] at h
    cases h
  · rw [hunknown] at h
    cases h

end SshServer
