import MacXterm.Tools.Nfs.FileBytes

namespace Nfs

open Qt Xdr

structure DirEntry where
  name : QByteArray
  cookie : UInt64
  deriving DecidableEq

structure DirPage where
  entries : List DirEntry
  eof : Bool
  deriving DecidableEq

section Client

variable (plus : Bool)

def skipHandle (r : XdrReader) : XdrReader :=
  let (follows, _, r) := r.u32
  if follows ≠ 0 then r.opaqueVar.2.2 else r

def readEntry (r : XdrReader) : DirEntry × XdrReader :=
  let (_, _, r) := r.u64
  let (name, _, r) := r.opaqueVar
  let (cookie, _, r) := r.u64
  (⟨name, cookie⟩, if plus then skipHandle (skipAttributes r 84) else r)

-- The number bounds the entries; a reply has no more of them than bytes.
def readEntries : Nat → XdrReader → List DirEntry × XdrReader
  | 0, r => ([], r)
  | n + 1, r =>
      let (follows, _, r) := r.u32
      if follows ≠ 0 then
        let (entry, r) := readEntry plus r
        let (entries, r) := readEntries n r
        (entry :: entries, r)
      else ([], r)

def readPage (reply : QByteArray) : Option DirPage :=
  let r := skipAttributes ⟨reply, 28⟩ 84
  let (_, _, r) := r.opaqueFixed 8
  let (entries, r) := readEntries plus reply.length r
  let (eof, ok, _) := r.u32
  if ok ∧ replyStatus reply = NFS3_OK then some ⟨entries, eof ≠ 0⟩ else none

-- A client asks from a cookie on, until a page says that it is the last.
def walk (ask : Nat → UInt64 → Option DirPage) : Nat → Nat → UInt64 → Option (List DirPage)
  | 0, _, _ => none
  | fuel + 1, n, cookie =>
      match ask n cookie with
      | none => none
      | some page =>
          if page.eof then some [page]
          else
            match page.entries.getLast? with
            | none => none
            | some last => (walk ask fuel (n + 1) last.cookie).map (page :: ·)

end Client

structure Paging (names : List QByteArray) (pages : List DirPage) : Prop where
  once : pages.flatMap (fun page => page.entries.map (·.name)) = names
  eof : ∀ i page, pages[i]? = some page → (page.eof = true ↔ i + 1 = pages.length)
  last : ∀ page, pages.getLast? = some page →
    (page.entries.map (·.name)).getLast? = names.getLast?
  only : names = [] → pages.length = 1

def numbered : List QString → Nat → List DirEntry
  | [], _ => []
  | name :: names, idx => ⟨toUtf8 name, .ofNat (idx + 1)⟩ :: numbered names (idx + 1)

section Entries

variable {σ : Type}

theorem handle_written {w : XdrWriter} (hw : w.data.length % 4 = 0) {fh : QByteArray}
    (hfh : fh.length = 32) :
    Written w ((w.u32 1).opaqueVar fh) fun r r' => skipHandle r = r' := by
  have hflag := Written.u32 w 1
  have hhandle : fh.length < 2 ^ 32 := by
    rw [hfh]
    decide
  refine (hflag.trans (.opaqueVar (hflag.aligned hw) hhandle)).mono fun r r'' => ?_
  rintro ⟨r', h₁, h₂⟩
  have hone : (1 : UInt32) ≠ 0 := by decide
  simp only [skipHandle, h₁, h₂, if_pos hone]

theorem entry_written (F : FileSystem σ) (plus : Bool) (fs : σ) {w : XdrWriter}
    (hw : w.data.length % 4 = 0) {s : NfsServer} (hs : Handles s) (path : QString) (idx : Nat)
    {name : QString} (hname : (toUtf8 name).length < 2 ^ 32) :
    Written w (putEntry F fs plus path idx name w s).1 fun r r' =>
      ∃ r₁, r.u32 = (1, true, r₁) ∧ readEntry plus r₁ = (⟨toUtf8 name, .ofNat idx⟩, r') := by
  have hid := (Written.u32 w 1).trans (.u64 _ (fileid F fs path idx name))
  have hentry := (hid.trans (.opaqueVar (hid.aligned hw) hname)).trans (.u64 _ (.ofNat idx))
  cases plus with
  | false =>
    refine hentry.mono fun r r₄ => ?_
    rintro ⟨r₃, ⟨r₂, ⟨r₁, h₁, h₂⟩, h₃⟩, h₄⟩
    exact ⟨r₁, h₁, by simp only [readEntry, h₂, h₃, h₄, Bool.false_eq_true, if_false]⟩
  | true =>
    obtain ⟨hfh, -⟩ := hs.fileHandle (QDir.filePath path name)
    have hattr := hentry.trans (postOpAttr_written (F := F) fs _ (QDir.filePath path name))
    refine (hattr.trans (handle_written (hattr.aligned hw) hfh)).mono fun r r₆ => ?_
    rintro ⟨r₅, ⟨r₄, ⟨r₃, ⟨r₂, ⟨r₁, h₁, h₂⟩, h₃⟩, h₄⟩, h₅⟩, h₆⟩
    exact ⟨r₁, h₁, by simp only [readEntry, h₂, h₃, h₄, h₅, h₆, if_true]⟩

theorem putEntry_handles (F : FileSystem σ) (plus : Bool) (fs : σ) {s : NfsServer}
    (hs : Handles s) (path : QString) (idx : Nat) (name : QString) (w : XdrWriter) :
    Handles (putEntry F fs plus path idx name w s).2 := by
  cases plus with
  | false => exact hs
  | true => exact (hs.fileHandle (QDir.filePath path name)).2

theorem entries_written (F : FileSystem σ) (plus : Bool) (fs : σ) {w : XdrWriter}
    (hw : w.data.length % 4 = 0) {s : NfsServer} (hs : Handles s) (path : QString) {names : List QString}
    (hnames : ∀ name ∈ names, (toUtf8 name).length < 2 ^ 32) (idx : Nat) :
    Written w ((putEntries F fs plus path names idx w s).1.u32 0) fun r r' =>
      ∀ fuel, names.length < fuel → readEntries plus fuel r = (numbered names idx, r') := by
  induction names generalizing w s idx with
  | nil =>
    refine (Written.u32 w 0).mono fun r r' h fuel hfuel => ?_
    obtain ⟨n, rfl⟩ := Nat.exists_eq_add_one_of_ne_zero (Nat.ne_of_gt hfuel)
    simp only [readEntries, h, ne_eq, not_true_eq_false, if_false, numbered]
  | cons name names ih =>
    have hentry := entry_written F plus fs hw hs path (idx + 1)
      (hnames name List.mem_cons_self)
    have hhandles := putEntry_handles F plus fs hs path (idx + 1) name w
    have hrest := ih (hentry.aligned hw) hhandles
      (fun m hm => hnames m (List.mem_cons_of_mem _ hm)) (idx + 1)
    refine (hentry.trans hrest).mono fun r r'' => ?_
    rintro ⟨r', ⟨r₁, h₁, h₂⟩, h₃⟩ fuel hfuel
    have hone : (1 : UInt32) ≠ 0 := by decide
    rw [List.length_cons] at hfuel
    obtain ⟨n, rfl⟩ := Nat.exists_eq_add_one_of_ne_zero (by omega : fuel ≠ 0)
    simp only [readEntries, h₁, h₂, h₃ n (by omega), if_pos hone, numbered]

theorem length_le_pageSize (F : FileSystem σ) (plus : Bool) (fs : σ) (path : QString)
    (names : List QString) :
    names.length ≤ pageSize F fs plus path names := by
  induction names with
  | nil => exact Nat.zero_le _
  | cons name names ih =>
    have hentry : 1 ≤ entrySize F fs plus path name := by
      unfold entrySize
      omega
    rw [pageSize, List.map_cons, List.sum_cons, List.length_cons, Nat.add_comm]
    exact Nat.add_le_add hentry ih

theorem readPage_readdir (F : FileSystem σ) (plus : Bool) (fs : σ) {s : NfsServer}
    (hs : Handles s) (xid : UInt32) (r : XdrReader)
    (hnames : ∀ name ∈ entries F fs (readReaddir s r).path, (toUtf8 name).length < 2 ^ 32) :
    readPage plus (readdir F s fs (putReplyHeader ⟨[]⟩ xid) r plus).reply =
      let names := entries F fs (readReaddir s r).path
      let c := (readReaddir s r).cookie.toNat
      some ⟨numbered (window names c) c, names.length ≤ c + 64⟩ := by
  have hheader : (putReplyHeader ⟨[]⟩ xid).data.length = 24 := rfl
  have hstatus : ((putReplyHeader ⟨[]⟩ xid).u32 NFS3_OK).data.length = 28 := rfl
  obtain ⟨w', hreply, hgrown⟩ := readdir_grown (F := F) fs r (by rw [hheader]) hs plus
  have hlength := hgrown.length
  rw [← hreply] at hlength
  rw [readdir_eq] at hlength ⊢
  generalize readReaddir s r = a at hnames hlength ⊢
  simp only [putPage] at hlength ⊢
  have hwindow : ∀ name ∈ window (entries F fs a.path) a.cookie.toNat,
      (toUtf8 name).length < 2 ^ 32 :=
    fun name hname => hnames name (List.mem_of_mem_drop (List.mem_of_mem_take hname))
  have hattr := postOpAttr_written (F := F) fs ((putReplyHeader ⟨[]⟩ xid).u32 NFS3_OK) a.path
  have hverf := hattr.trans (.opaqueFixed (hattr.aligned (by rw [hstatus])) (List.replicate 8 0))
  have hentries := hverf.trans (entries_written F plus fs
    (hverf.aligned (by rw [hstatus])) hs a.path hwindow a.cookie.toNat)
  have hpage := hentries.trans (.u32 _
    (if (entries F fs a.path).length ≤ a.cookie.toNat + 64 then 1 else 0))
  obtain ⟨r₄, ⟨r₃, ⟨r₂, ⟨r₁, h₁, h₂⟩, h₃⟩, h₄⟩, -⟩ := hpage.read
  have hcount := length_le_pageSize F plus fs a.path
    (window (entries F fs a.path) a.cookie.toNat)
  have hok := replyStatus_of_extends hpage.extends_data
  generalize (((putEntries F fs plus a.path (window (entries F fs a.path) a.cookie.toNat)
    a.cookie.toNat ((putPostOpAttr F fs ((putReplyHeader ⟨[]⟩ xid).u32 NFS3_OK) a.path).opaqueFixed
      (List.replicate 8 0)) s).1.u32 0).u32 _).data = reply at h₁ hlength hok ⊢
  have hfuel := h₃ reply.length (by omega)
  rw [hstatus] at h₁
  rw [List.length_replicate] at h₂
  simp only [readPage, h₁, h₂, hfuel, h₄, hok, and_self, if_true]
  split
  · rename_i hend
    simp [hend]
  · rename_i hend
    simp [hend]

end Entries

section Pages

variable {names : List QByteArray} {pages : List DirPage} (entries : List DirEntry)

theorem Paging.single : Paging (entries.map (·.name)) [⟨entries, true⟩] := by
  refine ⟨by simp, fun i page hi => ?_, fun page hpage => ?_, fun _ => rfl⟩
  · cases i with
    | zero =>
      obtain rfl := Option.some.inj hi
      simp
    | succ i => exact absurd hi (by simp)
  · obtain rfl := Option.some.inj hpage
    rfl

theorem Paging.cons (h : Paging names pages) (hnames : names ≠ []) :
    Paging (entries.map (·.name) ++ names) (⟨entries, false⟩ :: pages) := by
  have hpages : pages ≠ [] := by
    rintro rfl
    exact hnames h.once.symm
  refine ⟨by rw [List.flatMap_cons, h.once], fun i page hi => ?_, fun page hpage => ?_,
    fun hnil => absurd (List.append_eq_nil_iff.mp hnil).2 hnames⟩
  · cases i with
    | zero =>
      obtain rfl := Option.some.inj hi
      have hlength := List.length_pos_iff.mpr hpages
      rw [List.length_cons]
      simp only [Bool.false_eq_true, false_iff]
      omega
    | succ i =>
      rw [h.eof i page hi, List.length_cons]
      omega
  · rw [List.getLast?_cons_of_ne_nil hpages] at hpage
    rw [h.last page hpage, List.getLast?_append_of_ne_nil _ hnames]

theorem numbered_names (names : List QString) (idx : Nat) :
    (numbered names idx).map (·.name) = names.map toUtf8 := by
  induction names generalizing idx with
  | nil => rfl
  | cons name names ih => rw [numbered, List.map_cons, ih, List.map_cons]

theorem numbered_last {names : List QString} (idx : Nat) (h : names ≠ []) :
    ∃ entry, (numbered names idx).getLast? = some entry ∧
      entry.cookie = .ofNat (idx + names.length) := by
  induction names generalizing idx with
  | nil => exact absurd rfl h
  | cons name names ih =>
    cases names with
    | nil => exact ⟨_, rfl, rfl⟩
    | cons name' names =>
      obtain ⟨entry, hlast, hcookie⟩ := ih (idx + 1) (by simp)
      refine ⟨entry, ?_, ?_⟩
      · rw [numbered, List.getLast?_cons_of_ne_nil (by simp [numbered]), hlast]
      · rw [hcookie, @List.length_cons _ name (name' :: names), Nat.add_right_comm, Nat.add_assoc]

end Pages

section Walk

variable {names : List QString} {ask : Nat → UInt64 → Option DirPage}

theorem walk_pages (hsize : names.length < 2 ^ 63)
    (hask : ∀ n cookie, ask n cookie =
      some ⟨numbered (window names cookie.toNat) cookie.toNat, names.length ≤ cookie.toNat + 64⟩)
    (k n c : Nat) (hcover : names.length ≤ c + 64 * (k + 1)) (hmore : k = 0 ∨ c + 64 * k < names.length)
    (hc : c < 2 ^ 64) :
    ∃ pages, pages.length = k + 1 ∧ Paging ((names.drop c).map toUtf8) pages ∧
      ∀ fuel, k + 1 ≤ fuel → walk ask fuel n (.ofNat c) = some pages := by
  have hpage (n c : Nat) (hc : c < 2 ^ 64) : ask n (.ofNat c) =
      some ⟨numbered (window names c) c, names.length ≤ c + 64⟩ := by
    rw [hask, UInt64.toNat_ofNat_of_lt' hc]
  induction k generalizing n c with
  | zero =>
    have hend : names.length ≤ c + 64 := by omega
    have hwindow : window names c = names.drop c :=
      List.take_of_length_le (by rw [List.length_drop]; omega)
    have hsingle := Paging.single (numbered (window names c) c)
    rw [numbered_names, hwindow] at hsingle
    refine ⟨_, rfl, hsingle, fun fuel hfuel => ?_⟩
    obtain ⟨m, rfl⟩ := Nat.exists_eq_add_one_of_ne_zero (Nat.ne_of_gt hfuel)
    simp only [walk, hpage n c hc, hend, decide_true, if_true, hwindow]
  | succ k ih =>
    have hlong : c + 64 * (k + 1) < names.length := by omega
    have hend : ¬ names.length ≤ c + 64 := by omega
    have hnext : c + 64 < 2 ^ 64 := by omega
    obtain ⟨pages, hlength, hpaging, hwalk⟩ := ih (n + 1) (c + 64) (by omega) (by omega) hnext
    have hwindow : (window names c).length = 64 := by
      rw [window, List.length_take, List.length_drop]
      omega
    obtain ⟨entry, hlast, hentry⟩ := @numbered_last (window names c) c
      (fun hnil => absurd (hnil ▸ hwindow) (by decide))
    rw [hwindow] at hentry
    have hrest : (names.drop (c + 64)).map toUtf8 ≠ [] := by
      rw [ne_eq, List.map_eq_nil_iff, List.drop_eq_nil_iff]
      omega
    have hsplit : window names c ++ names.drop (c + 64) = names.drop c := by
      rw [window, ← List.drop_drop, List.take_append_drop]
    have hcons := hpaging.cons (numbered (window names c) c) hrest
    rw [numbered_names, ← List.map_append, hsplit] at hcons
    refine ⟨_, by rw [List.length_cons, hlength], hcons, fun fuel hfuel => ?_⟩
    obtain ⟨m, rfl⟩ := Nat.exists_eq_add_one_of_ne_zero (by omega : fuel ≠ 0)
    simp only [walk, hpage n c hc, hend, decide_false, Bool.false_eq_true, if_false, hlast, hentry,
      hwalk m (by omega), Option.map_some]

end Walk

def readdirCounts (plus : Bool) : Σ α : Type, Codec α :=
  if plus then ⟨_, Codec.word.pair Codec.word⟩ else ⟨_, Codec.word⟩

def readdirArgs (plus : Bool) :=
  Grammar.nfsFh3.pair (Grammar.uint64.pair ((Codec.bytes 8).pair (readdirCounts plus).2))

def readdirCall (plus : Bool) := Grammar.callOf (if plus then 17 else 16) (readdirArgs plus)

theorem readReaddir_encode (s : NfsServer) {plus : Bool} {v : (readdirArgs plus).Value} {r : XdrReader}
    {rest : QByteArray} (h : r.At ((readdirArgs plus).encode v ++ rest)) :
    readReaddir s r = ⟨s.pathForHandle v.1.2.val, hyper v.2.1⟩ := by
  simp only [readdirArgs, Grammar.uint64, Codec.encode_pair, List.append_assoc] at h
  obtain ⟨r₁, h₁, hr₁⟩ := h.opaqueVar
  obtain ⟨r₂, h₂, -⟩ := hr₁.u64
  simp only [readReaddir, h₁, h₂, hyper]

-- A client at a directory that stays as it is, whatever else the server is asked meanwhile: what
-- stands around its calls, and the calls themselves.
structure Session {σ : Type} (F : FileSystem σ) (plus : Bool) (names : List QString) where
  server : Nat → NfsServer
  fs : Nat → σ
  path : QString
  call : Nat → UInt64 → (readdirCall plus).Value
  served : ∀ n, ∃ allowed exportDir port, Served F allowed exportDir port (server n)
  handle : ∀ n cookie, (server n).pathForHandle (call n cookie).2.1.2.val = path
  cookie : ∀ n cookie, hyper (call n cookie).2.2.1 = cookie
  listing : ∀ n, entries F (fs n) path = names

namespace Session

variable {σ : Type} {F : FileSystem σ} {plus : Bool} {names : List QString}

def ask (session : Session F plus names) (n : Nat) (cookie : UInt64) : Option DirPage :=
  readPage plus (handleDatagram F (session.server n) (session.fs n)
    ((readdirCall plus).encode (session.call n cookie))).reply

theorem ask_eq (hF : F.Lawful) (session : Session F plus names)
    (hnames : ∀ name ∈ names, (toUtf8 name).length < 2 ^ 32) (n : Nat) (cookie : UInt64) :
    session.ask n cookie =
      some ⟨numbered (window names cookie.toNat) cookie.toNat, names.length ≤ cookie.toNat + 64⟩ := by
  obtain ⟨allowed, exportDir, port, hserved⟩ := session.served n
  obtain ⟨xid, r, hr, hcall⟩ := handleDatagram_call (if plus then 17 else 16) (readdirArgs plus) F
    (session.server n) (session.fs n) (session.call n cookie)
  have hargs := readReaddir_encode (session.server n) hr
  rw [session.handle n cookie, session.cookie n cookie] at hargs
  have hpage := readPage_readdir F plus (session.fs n) (handles_served hF hserved)
    xid r
  rw [hargs, session.listing n] at hpage
  rw [ask, readdirCall, hcall]
  cases plus with
  | false => exact hpage hnames
  | true => exact hpage hnames

end Session

theorem directory_paged {σ : Type} {F : FileSystem σ} (hF : F.Lawful) {plus : Bool}
    {names : List QString} (session : Session F plus names) (hsize : names.length < 2 ^ 63)
    (hnames : ∀ name ∈ names, (toUtf8 name).length < 2 ^ 32) :
    ∃ pages, pages.length = (names.length - 1) / 64 + 1 ∧ Paging (names.map toUtf8) pages ∧
      ∀ fuel, pages.length ≤ fuel → walk session.ask fuel 0 0 = some pages := by
  obtain ⟨pages, hlength, hpaging, hwalk⟩ := walk_pages hsize (session.ask_eq hF hnames)
    ((names.length - 1) / 64) 0 0 (by omega) (by omega) (by decide)
  exact ⟨pages, hlength, hpaging, fun fuel hfuel => hwalk fuel (hlength ▸ hfuel)⟩

theorem root_handle :
    (NfsServer.start "/srv" 2049).pathForHandle (NfsServer.handleBytes 1) = "/srv".toList := by
  decide

def rootSession :
    Session PathStore.fileSystem true [['.'], ['.', '.'], ['a']] where
  server _ := .start "/srv" 2049
  fs _ := sharedStore
  path := "/srv".toList
  call _ cookie := ⟨⟨1, (), noAuth, noAuth⟩,
    ⟨sampleHandle 1, ⟨((cookie >>> 32).toUInt32, cookie.toUInt32),
      ⟨⟨List.replicate 8 0, rfl⟩, (4096, 32768)⟩⟩⟩⟩
  served _ := ⟨fun _ _ _ => True, "/srv", 2049, .start⟩
  handle _ _ := root_handle
  cookie _ cookie := XdrReader.word64_halves cookie
  listing _ := by decide

theorem directory_paged_root :
    ∃ pages, pages.length = 1 ∧ Paging [[46], [46, 46], [97]] pages ∧
      ∀ fuel, pages.length ≤ fuel → walk rootSession.ask fuel 0 0 = some pages :=
  directory_paged PathStore.fileSystem_lawful rootSession (by decide) (by decide)

end Nfs
