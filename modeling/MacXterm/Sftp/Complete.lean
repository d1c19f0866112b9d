import Mathlib.Algebra.GroupWithZero.Nat
import Mathlib.Algebra.Ring.Int.Defs
import MacXterm.Sftp.Listing

namespace Sftp

open Qt

-- The tree to be copied; a file is given by its size.
inductive Node
  | file (size : Nat)
  | dir (children : List (QString × Node))

inductive Item
  | dir (target : QString)
  | file (source target : QString) (size : Nat)
deriving DecidableEq

abbrev Join := QString → QString → QString

namespace Node

def isDir : Node → Bool
  | file _ => false
  | dir _ => true

mutual

def size : Node → Nat
  | file n => n
  | dir children => sizeAll children

def sizeAll : List (QString × Node) → Nat
  | [] => 0
  | (_, n) :: children => size n + sizeAll children

end

mutual

def depth : Node → Nat
  | file _ => 0
  | dir children => depthAll children + 1

def depthAll : List (QString × Node) → Nat
  | [] => 0
  | (_, n) :: children => max (depth n) (depthAll children)

end

section Items

variable (joinSource joinTarget : Join)

mutual

def items : Node → QString → QString → List Item
  | file n, source, target => [.file source target n]
  | dir children, source, target => .dir target :: itemsAll children source target

def itemsAll : List (QString × Node) → QString → QString → List Item
  | [], _, _ => []
  | (name, n) :: children, source, target =>
      items n (joinSource source name) (joinTarget target name) ++ itemsAll children source target

end

theorem itemsAll_eq (children : List (QString × Node)) (source target : QString) :
    itemsAll joinSource joinTarget children source target = children.flatMap fun k =>
      items joinSource joinTarget k.2 (joinSource source k.1) (joinTarget target k.1) := by
  induction children with
  | nil => simp [itemsAll]
  | cons k children ih => simp [itemsAll, ih]

end Items

theorem sizeAll_eq (children : List (QString × Node)) :
    sizeAll children = (children.map fun k => k.2.size).sum := by
  induction children with
  | nil => simp [sizeAll]
  | cons k children ih => simp [sizeAll, ih]

theorem depth_le_depthAll {children : List (QString × Node)} {k : QString × Node}
    (h : k ∈ children) : k.2.depth ≤ depthAll children := by
  induction children with
  | nil => exact absurd h List.not_mem_nil
  | cons k' children ih =>
    rw [depthAll]
    rcases List.mem_cons.mp h with rfl | h
    · exact Nat.le_max_left _ _
    · exact Nat.le_trans (ih h) (Nat.le_max_right _ _)

end Node

-- The nodes of a tree by the paths that the code makes for them.
inductive Located (join : Join) : QString → Node → QString → Node → Prop
  | here {p : QString} {n : Node} : Located join p n p n
  | child {p q : QString} {m : Node} {children : List (QString × Node)} {k : QString × Node}
      (hk : k ∈ children) (h : Located join (join p k.1) k.2 q m) :
      Located join p (.dir children) q m

-- The entries of a listing are those of the directory, in whatever order.
def Lists (entries : List SftpEntry) (children : List (QString × Node)) : Prop :=
  ((entries.filter fun e => !isDots e.name).map fun e => (e.name, e.isDir)).Perm
    (children.map fun k => (k.1, k.2.isDir))

-- What an operation reported is so.
def Faithful (located : QString → Node → Prop) : Event → Prop
  | .list p (some entries) => ∀ n, located p n → ∃ children, n = .dir children ∧ Lists entries children
  | .localEntries p names =>
      ∀ n, located p n → ∃ children, n = .dir children ∧ names.Perm (children.map Prod.fst)
  | .download p _ n => 0 ≤ n → ∀ m, located p m → m = .file n.toNat
  | .upload p _ n => 0 ≤ n → ∀ m, located p m → m = .file n.toNat
  | .makeDir _ _ present => present = true
  | _ => True

def Failed : Event → Prop
  | .canceled => True
  | .mkpath _ ok => ok = false
  | .list _ entries => entries = none
  | .download _ _ n => n < 0
  | .upload _ _ n => n < 0
  | _ => False

def performed : Event → Option Item
  | .mkpath p true => some (.dir p)
  | .makeDir p _ true => some (.dir p)
  | .download p q n => if 0 ≤ n then some (.file p q n.toNat) else none
  | .upload p q n => if 0 ≤ n then some (.file p q n.toNat) else none
  | _ => none

def Run.Clean {σ : Type} (r : Run σ) (located : QString → Node → Prop) : Prop :=
  ∀ e ∈ r.events, ¬Failed e ∧ Faithful located e

-- The whole tree is there when the result says so, and -1 is the result when something went wrong.
structure Complete {σ : Type} (located : QString → Node → Prop) (items : List Item) (size : Nat)
    (r : Run σ) : Prop where
  ends : r.result ≠ none
  whole : ∀ n, r.result = some n → 0 ≤ n →
    (r.events.filterMap performed).Perm items ∧ n = size ∧ ∀ e ∈ r.events, Faithful located e
  noticed : (∃ e ∈ r.events, Failed e ∨ ¬Faithful located e) → r.result = some (-1)

-- -1 is returned exactly where an operation reported a failure.
structure Sound {σ : Type} (r : Run σ) : Prop where
  failed : (∃ e ∈ r.events, Failed e) ↔ r.result = some (-1)
  bound : ∀ n, r.result = some n → -1 ≤ n

section Runs

variable {σ : Type}

theorem Sound.nonneg {r : Run σ} (h : Sound r) {n : Int} (hn : r.result = some n)
    (hf : ¬∃ e ∈ r.events, Failed e) : 0 ≤ n := by
  have hbound := h.bound n hn
  have hne : n ≠ -1 := fun he => hf (h.failed.mpr (he ▸ hn))
  omega

theorem Sound.after {r : Run σ} {before : List Event} (h : Sound r)
    (hb : ∀ e ∈ before, ¬Failed e) : Sound (r.after before) := by
  refine ⟨?_, h.bound⟩
  rw [show (r.after before).result = r.result from rfl, ← h.failed]
  constructor
  · rintro ⟨e, he, hf⟩
    rcases List.mem_append.mp he with he | he
    · exact absurd hf (hb e he)
    · exact ⟨e, he, hf⟩
  · rintro ⟨e, he, hf⟩
    exact ⟨e, List.mem_append_right _ he, hf⟩

theorem sound_failed {s : σ} {events : List Event} (h : ∃ e ∈ events, Failed e) :
    Sound ⟨s, events, some (-1)⟩ := by
  refine ⟨iff_of_true h rfl, ?_⟩
  rintro n ⟨⟩
  exact Int.le_refl _

theorem sound_quiet {s : σ} {events : List Event} {result : Option Int}
    (h : ∀ e ∈ events, ¬Failed e) (hr : ∀ n, result = some n → 0 ≤ n) :
    Sound ⟨s, events, result⟩ := by
  refine ⟨iff_of_false ?_ ?_, ?_⟩
  · rintro ⟨e, he, hf⟩
    exact h e he hf
  · intro he
    have := hr _ he
    omega
  · intro n hn
    have := hr n hn
    omega

theorem sound_moved {s : σ} {p : QString} {e : Event} {n : Int} (he : Failed e ↔ n < 0)
    (hn : -1 ≤ n) : Sound ⟨s, [.item p, e], some n⟩ := by
  have hitem : ¬ Failed (.item p) := id
  refine ⟨?_, ?_⟩
  · simp only [List.exists_mem_cons_iff, hitem, he, false_or, List.not_mem_nil, false_and,
      exists_false, or_false, Option.some.injEq]
    omega
  · rintro m ⟨⟩
    exact hn

theorem Faithful.mono {located located' : QString → Node → Prop} {e : Event}
    (h : Faithful located e) (hsub : ∀ p n, located' p n → located p n) : Faithful located' e := by
  cases e with
  | list p entries =>
    cases entries with
    | none => trivial
    | some entries => exact fun n hn => h n (hsub _ _ hn)
  | localEntries p names => exact fun n hn => h n (hsub _ _ hn)
  | download p q n => exact fun hn m hm => h hn m (hsub _ _ hm)
  | upload p q n => exact fun hn m hm => h hn m (hsub _ _ hm)
  | makeDir p ok present => exact h
  | join | item | mkpath | canceled => trivial

theorem Run.Clean.of_after {r : Run σ} {before : List Event} {located : QString → Node → Prop}
    (h : (r.after before).Clean located) : r.Clean located :=
  fun e he => h e (List.mem_append_right _ he)

theorem Run.Clean.mono {r : Run σ} {located located' : QString → Node → Prop}
    (h : r.Clean located) (hsub : ∀ p n, located' p n → located p n) : r.Clean located' :=
  fun e he => ⟨(h e he).1, (h e he).2.mono hsub⟩

theorem sound_each {α : Type} (w : World σ) {visit : σ → α → Run σ}
    (hvisit : ∀ s e, Sound (visit s e)) (s : σ) (es : List α) {total : Int} (ht : 0 ≤ total) :
    Sound (transferEach w visit s es total) := by
  induction es generalizing s total with
  | nil =>
    refine sound_quiet nofun ?_
    rintro n ⟨⟩
    exact ht
  | cons e es ih =>
    rcases transferEach_cases w visit s e es total with
      ⟨t, h⟩ | ⟨t, hr, h⟩ | ⟨t, n, hr, hn, h⟩ | ⟨t, n, hr, hn, h⟩
    · rw [h]
      exact sound_failed ⟨_, List.mem_singleton_self _, trivial⟩
    · rw [h]
      exact hvisit t e
    · rw [h]
      refine sound_failed ((hvisit t e).failed.mpr ?_)
      have hbound := (hvisit t e).bound n hr
      rw [hr, show n = -1 by omega]
    · rw [h]
      refine (ih _ (by omega)).after fun ev hev hf => ?_
      have hminus := (hvisit t e).failed.mp ⟨ev, hev, hf⟩
      rw [hr, Option.some.injEq] at hminus
      omega

theorem downloadTree_sound (w : World σ) (fuel : Nat) (s : σ) (remote localPath : QString)
    (isDir : Bool) : Sound (downloadTree w fuel s remote localPath isDir) := by
  induction fuel generalizing s remote localPath isDir with
  | zero => exact sound_quiet nofun nofun
  | succ fuel ih =>
    rcases downloadTree_cases w fuel s remote localPath isDir with
      ⟨he, hr⟩ | ⟨-, t, h⟩ | ⟨-, t, h | h | ⟨u, entries, -, h⟩⟩
    · exact ⟨by simp [he, hr, Failed], by simp [hr]⟩
    · have hret := w.download_ret t remote localPath
      rw [h]
      exact sound_moved Iff.rfl hret
    · rw [h]
      exact sound_failed ⟨_, List.mem_singleton_self _, rfl⟩
    · rw [h]
      exact sound_failed ⟨_, List.mem_cons_of_mem _ (List.mem_singleton_self _), rfl⟩
    · rw [h]
      refine (sound_each w ?_ t _ (Int.le_refl 0)).after ?_
      · intro s e
        exact (ih s _ _ _).after (by simp [Failed])
      · simp [Failed]

theorem uploadTree_sound (w : World σ) (fuel : Nat) (s : σ) (localPath remote : QString) :
    Sound (uploadTree w fuel s localPath remote) := by
  induction fuel generalizing s localPath remote with
  | zero => exact sound_quiet nofun nofun
  | succ fuel ih =>
    rcases uploadTree_cases w fuel s localPath remote with ⟨he, hr⟩ | ⟨t, -, h⟩ | ⟨t, -, h⟩
    · exact ⟨by simp [he, hr, Failed], by simp [hr]⟩
    · have hret := w.upload_ret t localPath remote
      rw [h]
      exact sound_moved Iff.rfl hret
    · rw [h]
      exact (sound_each w (fun s e => ih s _ _) _ _ (Int.le_refl 0)).after (by simp [Failed])

theorem transferEach_whole {α β : Type} (w : World σ) {visit : σ → α → Run σ}
    {located : QString → Node → Prop} {size : β → Nat} {items : β → List Item}
    {R : α → β → Prop} {es : List α} {ks : List β}
    (hvisit : ∀ s e k, R e k → (visit s e).Clean located → (visit s e).result = some (size k : Int) ∧
      ((visit s e).events.filterMap performed).Perm (items k))
    (h : List.Forall₂ R es ks) (s : σ) (total : Int)
    (hclean : (transferEach w visit s es total).Clean located) :
    (transferEach w visit s es total).result = some (total + (ks.map size).sum) ∧
      ((transferEach w visit s es total).events.filterMap performed).Perm (ks.flatMap items) := by
  induction h generalizing s total with
  | nil => simp [transferEach]
  | @cons e k es ks hR _ ih =>
    rcases transferEach_cases w visit s e es total with
      ⟨t, he⟩ | ⟨t, hr, he⟩ | ⟨t, n, hr, hn, he⟩ | ⟨t, n, hr, hn, he⟩
    · rw [he] at hclean
      exact absurd trivial (hclean _ (List.mem_singleton_self _)).1
    · rw [he] at hclean
      exact absurd (hr.symm.trans (hvisit t e k hR hclean).1) (by simp)
    · rw [he] at hclean
      have hsize := hr.symm.trans (hvisit t e k hR hclean).1
      rw [Option.some.injEq] at hsize
      omega
    · rw [he] at hclean ⊢
      have hfirst : (visit t e).Clean located :=
        fun ev hev => hclean ev (List.mem_append_left _ hev)
      obtain ⟨hresult, hitems⟩ := hvisit t e k hR hfirst
      obtain ⟨hrest, hmore⟩ := ih _ _ hclean.of_after
      have hsize := hr.symm.trans hresult
      rw [Option.some.injEq] at hsize
      refine ⟨hrest.trans ?_, ?_⟩
      · rw [hsize, List.map_cons, List.sum_cons, Int.natCast_add, Int.add_assoc]
      · rw [List.flatMap_cons]
        exact (List.filterMap_append ▸ hitems.append hmore)

theorem pairs_of_perm {α κ : Type} {key : QString × Node → κ} {get : α → κ} {es : List α}
    {children : List (QString × Node)} (h : (es.map get).Perm (children.map key)) :
    ∃ ks, ks.Perm children ∧ List.Forall₂ (fun e k => get e = key k ∧ k ∈ children) es ks := by
  have hself : List.Forall₂ (fun x k => x = key k ∧ k ∈ children) (children.map key) children := by
    rw [List.forall₂_map_left_iff]
    exact List.forall₂_same.mpr fun k hk => ⟨rfl, hk⟩
  obtain ⟨ks, hpairs, hperm⟩ := List.perm_comp_forall₂ h hself
  rw [List.forall₂_map_left_iff] at hpairs
  exact ⟨ks, hperm, hpairs⟩

theorem performed_transfer (p q : QString) {n : Int} (h : 0 ≤ n) :
    performed (.download p q n) = some (.file p q n.toNat) ∧
      performed (.upload p q n) = some (.file p q n.toNat) := ⟨if_pos h, if_pos h⟩

theorem Node.sum_perm {ks children : List (QString × Node)} (h : ks.Perm children) :
    (ks.map fun k => k.2.size).sum = Node.sizeAll children := by
  rw [Node.sizeAll_eq]
  exact (h.map _).sum_nat

theorem downloadTree_whole (w : World σ) (fuel : Nat) (s : σ) (remote localPath : QString)
    (n : Node) (hfuel : n.depth < fuel)
    (hclean : (downloadTree w fuel s remote localPath n.isDir).Clean
      (Located RemotePath.join remote n)) :
    (downloadTree w fuel s remote localPath n.isDir).result = some (n.size : Int) ∧
      ((downloadTree w fuel s remote localPath n.isDir).events.filterMap performed).Perm
        (n.items RemotePath.join QDir.filePath remote localPath) := by
  induction fuel generalizing s remote localPath n with
  | zero => exact absurd hfuel (Nat.not_lt_zero _)
  | succ fuel ih =>
    rcases downloadTree_cases w fuel s remote localPath n.isDir with
      ⟨he, -⟩ | ⟨hdir, t, h⟩ | ⟨hdir, t, h | h | ⟨u, entries, -, h⟩⟩
    · exact absurd trivial (hclean .canceled (he ▸ List.mem_singleton_self _)).1
    · rw [h] at hclean ⊢
      have hlast := hclean _ (List.mem_cons_of_mem _ (List.mem_singleton_self _))
      have hret : 0 ≤ (w.download t remote localPath).2 := Int.not_lt.mp hlast.1
      have hnode := hlast.2 hret n .here
      rw [hnode, Node.size, Int.toNat_of_nonneg hret, Node.items]
      refine ⟨rfl, ?_⟩
      rw [List.filterMap_cons_none rfl, List.filterMap_cons_some (performed_transfer _ _ hret).1]
      rfl
    · rw [h] at hclean
      exact absurd rfl (hclean _ (List.mem_singleton_self _)).1
    · rw [h] at hclean
      exact absurd rfl (hclean _ (List.mem_cons_of_mem _ (List.mem_singleton_self _))).1
    · rw [h] at hclean ⊢
      have hlist := (hclean (.list remote (some entries))
        (List.mem_append_left _ (List.mem_cons_of_mem _ (List.mem_singleton_self _)))).2
      obtain ⟨children, rfl, hentries⟩ := hlist n .here
      obtain ⟨ks, hperm, hpairs⟩ := pairs_of_perm hentries
      have hvisit : ∀ s (e : SftpEntry) k,
          ((e.name, e.isDir) = (k.1, k.2.isDir) ∧ k ∈ children) →
          (downloadEntry w fuel remote localPath s e).Clean
            (Located RemotePath.join remote (.dir children)) →
          (downloadEntry w fuel remote localPath s e).result = some (k.2.size : Int) ∧
            ((downloadEntry w fuel remote localPath s e).events.filterMap performed).Perm
              (k.2.items RemotePath.join QDir.filePath (RemotePath.join remote k.1)
                (QDir.filePath localPath k.1)) := by
        rintro s e k ⟨he, hk⟩ hvisited
        obtain ⟨hname, hdir⟩ := Prod.mk.inj he
        rw [downloadEntry, hname, hdir] at hvisited ⊢
        have hdepth := Node.depth_le_depthAll hk
        rw [Node.depth] at hfuel
        exact ih s _ _ k.2 (by omega) (hvisited.of_after.mono fun _ _ => .child hk)
      obtain ⟨hresult, hitems⟩ := transferEach_whole w hvisit hpairs t 0 hclean.of_after
      refine ⟨hresult.trans ?_, ?_⟩
      · rw [Int.zero_add, Node.sum_perm hperm, Node.size]
      · rw [Node.items, Node.itemsAll_eq]
        exact .cons _ (hitems.trans (hperm.flatMap_right _))

theorem uploadTree_whole (w : World σ) (fuel : Nat) (s : σ) (localPath remote : QString)
    (n : Node) (hfuel : n.depth < fuel)
    (hclean : (uploadTree w fuel s localPath remote).Clean (Located QDir.filePath localPath n)) :
    (uploadTree w fuel s localPath remote).result = some (n.size : Int) ∧
      ((uploadTree w fuel s localPath remote).events.filterMap performed).Perm
        (n.items QDir.filePath RemotePath.join localPath remote) := by
  induction fuel generalizing s remote localPath n with
  | zero => exact absurd hfuel (Nat.not_lt_zero _)
  | succ fuel ih =>
    rcases uploadTree_cases w fuel s localPath remote with ⟨he, -⟩ | ⟨t, -, h⟩ | ⟨t, -, h⟩
    · exact absurd trivial (hclean .canceled (he ▸ List.mem_singleton_self _)).1
    · rw [h] at hclean ⊢
      have hlast := hclean _ (List.mem_cons_of_mem _ (List.mem_singleton_self _))
      have hret : 0 ≤ (w.upload t localPath remote).2 := Int.not_lt.mp hlast.1
      have hnode := hlast.2 hret n .here
      rw [hnode, Node.size, Int.toNat_of_nonneg hret, Node.items]
      refine ⟨rfl, ?_⟩
      rw [List.filterMap_cons_none rfl, List.filterMap_cons_some (performed_transfer _ _ hret).2]
      rfl
    · rw [h] at hclean ⊢
      have hmade := (hclean _ (List.mem_append_left _ List.mem_cons_self)).2
      have hlist := (hclean (.localEntries localPath _)
        (List.mem_append_left _ (List.mem_cons_of_mem _ (List.mem_singleton_self _)))).2
      obtain ⟨children, rfl, hnames⟩ := hlist n .here
      have hkeys : ((w.localEntries (w.makeDir t remote).1 localPath).map id).Perm
          (children.map Prod.fst) := by rwa [List.map_id]
      obtain ⟨ks, hperm, hpairs⟩ := pairs_of_perm hkeys
      have hvisit : ∀ s (name : QString) k, (id name = Prod.fst k ∧ k ∈ children) →
          (uploadEntry w fuel localPath remote s name).Clean
            (Located QDir.filePath localPath (.dir children)) →
          (uploadEntry w fuel localPath remote s name).result = some (k.2.size : Int) ∧
            ((uploadEntry w fuel localPath remote s name).events.filterMap performed).Perm
              (k.2.items QDir.filePath RemotePath.join (QDir.filePath localPath k.1)
                (RemotePath.join remote k.1)) := by
        rintro s name k ⟨rfl, hk⟩ hvisited
        have hdepth := Node.depth_le_depthAll hk
        rw [Node.depth] at hfuel
        exact ih s _ _ k.2 (by omega) (hvisited.mono fun _ _ => .child hk)
      obtain ⟨hresult, hitems⟩ := transferEach_whole w hvisit hpairs _ 0 hclean.of_after
      refine ⟨hresult.trans ?_, ?_⟩
      · rw [Int.zero_add, Node.sum_perm hperm, Node.size]
      · rw [Node.items, Node.itemsAll_eq, hmade]
        exact .cons _ (hitems.trans (hperm.flatMap_right _))

theorem complete_iff {r : Run σ} {located : QString → Node → Prop} {items : List Item} {size : Nat}
    (hsound : Sound r) (hwhole : r.Clean located → r.result = some (size : Int) ∧
      (r.events.filterMap performed).Perm items) :
    Complete located items size r ↔
      (∃ e ∈ r.events, Failed e) ∨ ∀ e ∈ r.events, Faithful located e := by
  constructor
  · intro h
    by_cases hf : ∃ e ∈ r.events, Failed e
    · exact .inl hf
    · obtain ⟨n, hn⟩ := Option.ne_none_iff_exists'.mp h.ends
      exact .inr (h.whole n hn (hsound.nonneg hn hf)).2.2
  · intro h
    by_cases hf : ∃ e ∈ r.events, Failed e
    · have hr := hsound.failed.mp hf
      refine ⟨by simp [hr], ?_, fun _ => hr⟩
      intro n hn hpos
      rw [hr, Option.some.injEq] at hn
      omega
    · have hall := h.resolve_left hf
      obtain ⟨hr, hitems⟩ := hwhole fun e he => ⟨fun hfe => hf ⟨e, he, hfe⟩, hall e he⟩
      refine ⟨by simp [hr], ?_, ?_⟩
      · intro n hn _
        exact ⟨hitems, (Option.some.inj (hr.symm.trans hn)).symm, hall⟩
      · rintro ⟨e, he, hfe | hfe⟩
        · exact absurd ⟨e, he, hfe⟩ hf
        · exact absurd (hall e he) hfe

end Runs

namespace SftpConnection

variable (nameLess : QString → QString → Bool)

def ListResults.Refused (r : ListResults) : Prop := r.session = false ∨ r.handle = false

theorem list_lists_iff (r : ListResults) (records : List Record)
    (children : List (QString × Node)) (h : r.reads <+: records)
    (hall : Lists (records.map entry) children) :
    (∀ entries, list nameLess r = some entries → Lists entries children) ↔
      r.Refused ∨ ∀ x ∈ records.drop r.reads.length, isDots (entry x).name = true := by
  obtain ⟨rest, rfl⟩ := h
  have hlists : Lists (sortListing nameLess ((r.reads.map entry).filter fun e => e.name != ['.']))
      children ↔ Lists (r.reads.map entry) children := by
    have hdots : ((r.reads.map entry).filter fun e => e.name != ['.']).filter
        (fun e => !isDots e.name) = (r.reads.map entry).filter fun e => !isDots e.name := by
      rw [List.filter_filter]
      refine List.filter_congr fun e _ => ?_
      by_cases hdot : e.name = ['.'] <;> simp [isDots, hdot]
    have hsort := ((sortListing_perm nameLess ((r.reads.map entry).filter fun e =>
      e.name != ['.'])).filter fun e => !isDots e.name).map fun e => (e.name, e.isDir)
    rw [hdots] at hsort
    exact ⟨hsort.symm.trans, hsort.trans⟩
  have hread : Lists (r.reads.map entry) children ↔ ∀ x ∈ rest, isDots (entry x).name = true := by
    have hlength := hall.length_eq
    simp only [List.map_append, List.filter_append, List.length_append, List.length_map] at hlength
    constructor
    · intro he x hx
      have hsame := he.length_eq
      simp only [List.length_map] at hsame
      have hnone : (rest.map entry).filter (fun e => !isDots e.name) = [] :=
        List.length_eq_zero_iff.mp (by omega)
      simpa using List.filter_eq_nil_iff.mp hnone _ (List.mem_map_of_mem hx)
    · intro hdots
      have hnone : (rest.map entry).filter (fun e => !isDots e.name) = [] := by
        refine List.filter_eq_nil_iff.mpr fun e he => ?_
        obtain ⟨x, hx, rfl⟩ := List.mem_map.mp he
        simp [hdots x hx]
      simpa [Lists, hnone] using hall
  rw [List.drop_left, ← hread, ← hlists]
  unfold list
  by_cases hr : r.Refused
  · refine iff_of_true ?_ (.inl hr)
    intro entries he
    rcases hr with h | h <;> simp [h] at he
  · have hopen := hr
    simp only [ListResults.Refused, not_or, Bool.not_eq_false] at hopen
    simp only [hopen.1, hopen.2, not_true_eq_false, if_false, Option.some.injEq, forall_eq',
      or_iff_right hr]

end SftpConnection

namespace FtpClient

variable (nameLess : QString → QString → Bool)

def ListResults.Refused (r : ListResults) : Prop :=
  r.ready = false ∨ r.pasv = false ∨ (r.list ≠ 150 ∧ r.list ≠ 125)

def ListResults.body (r : ListResults) : QByteArray := listBody r.turns [] ++ r.tail

theorem list_lists_iff (r : ListResults) (children : List (QString × Node)) :
    (∀ entries, list nameLess r = some entries → Lists entries children) ↔
      r.Refused ∨ Lists (parseFtpList nameLess r.body) children := by
  unfold list
  by_cases hr : r.Refused
  · refine iff_of_true ?_ (.inl hr)
    intro entries he
    rcases hr with h | h | ⟨h1, h2⟩
    · simp [h] at he
    · simp [h] at he
    · simp [h1, h2] at he
  · have hopen := hr
    simp only [ListResults.Refused, not_or, not_and_or, not_not, Bool.not_eq_false] at hopen
    obtain ⟨h1, h2, h3⟩ := hopen
    have hcode : ¬(r.list ≠ 150 ∧ r.list ≠ 125) := by omega
    simp only [h1, h2, not_true_eq_false, if_false, if_neg hcode, Option.some.injEq,
      forall_eq', or_iff_right hr]
    rfl

end FtpClient

def served (r : SftpConnection.ListResults) : World Unit where
  canceled s := (s, false)
  list s _ := (s, SftpConnection.list (fun _ _ => false) r)
  download s _ _ := (s, 5)
  upload s _ _ := (s, 5)
  makeDir s _ := (s, false)
  mkpath s _ := (s, true)
  isDir _ _ := true
  localEntries _ _ := []
  remoteDir _ _ := false
  download_ret _ _ _ := show (-1 : Int) ≤ 5 by decide
  upload_ret _ _ _ := show (-1 : Int) ≤ 5 by decide

def oneFileDir : Node := .dir [("a", .file 5)]

def oneRecord : SftpConnection.Record := ⟨[0x61], ⟨1, 5, 0, 0⟩⟩

def oneEntry : SftpEntry := ⟨"a", 5, false, 0, 0⟩

theorem served_none (s : Unit) (p : QString) :
    (served ⟨true, true, [], -31⟩).list s p = (s, some []) := by
  simp [served, SftpConnection.list, sortListing]

theorem served_one (s : Unit) (p : QString) :
    (served ⟨true, true, [oneRecord], 0⟩).list s p = (s, some [oneEntry]) := by
  have hentry : SftpConnection.entry oneRecord = oneEntry := by decide +kernel
  have hname : (oneEntry.name != ['.']) = true := rfl
  simp [served, SftpConnection.list, sortListing, hentry, hname]

theorem located_oneFileDir {q : QString} {m : Node}
    (h : Located RemotePath.join "/srv" oneFileDir q m) :
    q = "/srv" ∧ m = oneFileDir ∨ q = "/srv/a" ∧ m = .file 5 := by
  rw [oneFileDir] at h
  cases h with
  | here => exact .inl ⟨rfl, rfl⟩
  | child hk h =>
    obtain rfl := List.mem_singleton.mp hk
    cases h with
    | here => exact .inr ⟨by decide +kernel, rfl⟩

end Sftp
