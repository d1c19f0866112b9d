import MacXterm.Sftp.RemoteTransfer

namespace Sftp

open Qt QDir

-- What an entry name of the directory `dir` below `folder` may be: a path that climbs no higher
-- than the folder, or that comes down again by the folder's own last names.
def Keeps (folder dir name : QString) : Prop :=
  if isAbsolutePath name then Under folder name
  else
    let above := climb name - ((segments dir).length - (segments folder).length)
    (isRooted folder = true ∨ above ≤ (descent folder).length) ∧
      (descent folder).drop ((descent folder).length - above) <+: descent name

theorem prefix_climbed {folder below down : List QString} {k : Nat} :
    folder <+: (folder ++ below).take (folder.length + below.length - k) ++ down ↔
      folder.drop (folder.length - (k - below.length)) <+: down := by
  rcases Nat.le_total k below.length with hk | hk
  · have htake : (folder ++ below).take (folder.length + below.length - k) =
        folder ++ below.take (below.length - k) := by
      rw [Nat.add_sub_assoc hk, List.take_length_add_append]
    rw [htake, Nat.sub_eq_zero_of_le hk, Nat.sub_zero, List.drop_length, List.append_assoc]
    exact ⟨fun _ => List.nil_prefix, fun _ => List.prefix_append _ _⟩
  · have hlen : folder.length + below.length - k = folder.length - (k - below.length) := by omega
    rw [hlen, List.take_append_of_le_length (Nat.sub_le _ _)]
    nth_rewrite 1 [← List.take_append_drop (folder.length - (k - below.length)) folder]
    exact List.prefix_append_right_inj _

theorem segments_entry {dir name : QString} {u : Nat} {names : List QString}
    (ha : isAbsolutePath name = false) (hdir : segments dir = List.replicate u dotDot ++ names)
    (hu : isRooted dir = true → u = 0) (hnames : ∀ s ∈ names, Plain s) :
    segments (filePath dir name) =
      List.replicate (u + if isRooted dir then 0 else climb name - names.length) dotDot ++
        (names.take (names.length - climb name) ++ descent name) := by
  obtain ⟨hname, -, hdown⟩ := segments_climb name
  have hrev : ∀ s ∈ names.reverse, Plain s := fun s hs => hnames s (List.mem_reverse.mp hs)
  have hstack : segmentStack dir = names.reverse ++ List.replicate u dotDot := by
    rw [← List.reverse_reverse (segmentStack dir)]
    change (segments dir).reverse = _
    rw [hdir, List.reverse_append, List.reverse_replicate]
  rw [segments_filePath ha, hname, List.foldl_append, hstack]
  cases hr : isRooted dir with
  | true =>
    rw [hu hr, List.replicate_zero, List.append_nil, foldl_climb _ _ hrev,
      foldl_plain _ _ _ hdown, List.drop_reverse, List.reverse_append, List.reverse_reverse,
      List.reverse_reverse]
    rfl
  | false =>
    rw [foldl_climb_relative u _ hrev, foldl_plain _ _ _ hdown, List.drop_reverse,
      List.length_reverse]
    simp

theorem keeps_iff {folder dir name : QString} (hdir : Under folder dir) :
    Keeps folder dir name ↔ Under folder (QDir.filePath dir name) := by
  unfold Keeps
  cases ha : isAbsolutePath name with
  | true =>
    have hfile : filePath dir name = name := by simp [filePath, ha]
    simp only [if_true, hfile]
  | false =>
    obtain ⟨hr, habs, below, hseg, hbelow⟩ := hdir
    obtain ⟨hrf, habsf⟩ := @isRooted_filePath dir name ha
    obtain ⟨hfolder, hrooted, hplain⟩ := segments_climb folder
    obtain ⟨-, -, hdown⟩ := segments_climb name
    have hdepth : (segments dir).length - (segments folder).length = below.length := by
      rw [hseg, List.length_append, Nat.add_sub_cancel_left]
    have hnames : ∀ s ∈ descent folder ++ below, Plain s :=
      List.forall_mem_append.mpr ⟨hplain, hbelow⟩
    have hentry := segments_entry ha (by rw [hseg, hfolder, List.append_assoc])
      (fun h => hrooted (hr ▸ h)) hnames
    have hall : ∀ s ∈ (descent folder ++ below).take ((descent folder ++ below).length -
        climb name) ++ descent name, Plain s :=
      List.forall_mem_append.mpr ⟨fun s hs => hnames s (List.mem_of_mem_take hs), hdown⟩
    simp only [Bool.false_eq_true, if_false, hdepth]
    rw [List.length_append] at hentry hall
    constructor
    · rintro ⟨hbound, hpre⟩
      obtain ⟨names, he⟩ := prefix_climbed.mpr hpre
      have hnone : (if isRooted dir then 0 else
          climb name - ((descent folder).length + below.length)) = 0 := by
        split
        · rfl
        · rename_i hd
          have hbound := hbound.resolve_left (hr ▸ hd)
          omega
      refine ⟨hrf.trans hr, habsf.trans habs, names, ?_, ?_⟩
      · rw [hentry, hnone, hfolder, ← he, List.append_assoc]
        rfl
      · intro s hs
        exact hall s (he ▸ List.mem_append_right _ hs)
    · rintro ⟨-, -, names, he, hn⟩
      rw [hentry, hfolder, List.append_assoc] at he
      have hfront : ∀ s ∈ descent folder ++ names, Plain s :=
        List.forall_mem_append.mpr ⟨hplain, hn⟩
      obtain ⟨hcount, hsame⟩ := climb_unique (head_plain hall) (head_plain hfront) he
      refine ⟨?_, prefix_climbed.mp ⟨names, hsame.symm⟩⟩
      cases hd : isRooted dir with
      | true => exact .inl (hr ▸ hd)
      | false =>
        rw [hd, if_neg Bool.false_ne_true] at hcount
        exact .inr (by omega)

def Event.creates : Event → Option QString
  | .mkpath p _ => some p
  | .download _ p _ => some p
  | _ => none

def created (events : List Event) : List QString := events.filterMap Event.creates

theorem mem_created {events : List Event} {p : QString} :
    p ∈ created events ↔ ∃ ev ∈ events, ev.creates = some p := List.mem_filterMap

variable {σ : Type}

theorem transferEach_event {α : Type} (w : World σ) (visit : σ → α → Run σ) (s : σ)
    (es : List α) (total : Int) {ev : Event} (h : ev ∈ (transferEach w visit s es total).events) :
    ev = .canceled ∨ ∃ t, ∃ e ∈ es, ev ∈ (visit t e).events ∧
      ∀ ev' ∈ (visit t e).events, ev' ∈ (transferEach w visit s es total).events := by
  induction es generalizing s total with
  | nil => exact absurd h List.not_mem_nil
  | cons e es ih =>
    simp only [transferEach] at h ⊢
    split at h
    · exact .inl (List.mem_singleton.mp h)
    · rename_i hstop
      rw [if_neg hstop]
      cases hr : (visit (w.canceled s).1 e).result with
      | none =>
        simp only [hr] at h ⊢
        exact .inr ⟨_, e, List.mem_cons_self, h, fun _ h => h⟩
      | some n =>
        simp only [hr] at h ⊢
        split at h
        · rename_i hn
          rw [if_pos hn]
          exact .inr ⟨_, e, List.mem_cons_self, h, fun _ h => h⟩
        · rename_i hn
          rw [if_neg hn]
          rcases List.mem_append.mp h with h | h
          · exact .inr ⟨_, e, List.mem_cons_self, h, fun _ h => List.mem_append_left _ h⟩
          · rcases ih _ _ h with h | ⟨t, e', he', hev, hall⟩
            · exact .inl h
            · exact .inr ⟨t, e', List.mem_cons_of_mem _ he', hev,
                fun _ h => List.mem_append_right _ (hall _ h)⟩

-- What an event of a download is: one of its own, or one of an entry that it takes up.
inductive Origin (w : World σ) (fuel : Nat) (remote localPath : QString) (events : List Event)
    (ev : Event) : Prop
  | own : ev.creates = none ∨ ev.creates = some localPath → (∀ dir name, ev ≠ .join dir name) →
      Origin w fuel remote localPath events ev
  | entry (t : σ) (e : SftpEntry) : localPath ∈ created events →
      ev ∈ (downloadEntry w fuel remote localPath t e).events →
      (∀ ev' ∈ (downloadEntry w fuel remote localPath t e).events, ev' ∈ events) →
      Origin w fuel remote localPath events ev

theorem downloadTree_origin (w : World σ) (fuel : Nat) (s : σ) (remote localPath : QString)
    (isDir : Bool) {ev : Event}
    (h : ev ∈ (downloadTree w (fuel + 1) s remote localPath isDir).events) :
    Origin w fuel remote localPath
      (downloadTree w (fuel + 1) s remote localPath isDir).events ev := by
  rcases downloadTree_cases w fuel s remote localPath isDir with
    ⟨hrun, -⟩ | ⟨-, t, hrun⟩ | ⟨-, t, hrun | hrun | ⟨u, entries, -, hrun⟩⟩
  · rw [hrun] at h ⊢
    obtain rfl := List.mem_singleton.mp h
    exact .own (.inl rfl) nofun
  · rw [hrun] at h ⊢
    rcases List.mem_pair.mp h with rfl | rfl
    · exact .own (.inl rfl) nofun
    · exact .own (.inr rfl) nofun
  · rw [hrun] at h ⊢
    obtain rfl := List.mem_singleton.mp h
    exact .own (.inr rfl) nofun
  · rw [hrun] at h ⊢
    rcases List.mem_pair.mp h with rfl | rfl
    · exact .own (.inr rfl) nofun
    · exact .own (.inl rfl) nofun
  · rw [hrun] at h ⊢
    rcases List.mem_append.mp h with h | h
    · rcases List.mem_pair.mp h with rfl | rfl
      · exact .own (.inr rfl) nofun
      · exact .own (.inl rfl) nofun
    · rcases transferEach_event w _ _ _ _ h with rfl | ⟨t', e, -, hev, hall⟩
      · exact .own (.inl rfl) nofun
      · refine .entry t' e ?_ hev fun ev' hev' => List.mem_append_right _ (hall ev' hev')
        exact mem_created.mpr ⟨_, List.mem_cons_self, rfl⟩

theorem joins_created (w : World σ) (fuel : Nat) (s : σ) (remote localPath : QString)
    (isDir : Bool) {dir name : QString}
    (h : .join dir name ∈ (downloadTree w fuel s remote localPath isDir).events) :
    dir ∈ created (downloadTree w fuel s remote localPath isDir).events := by
  induction fuel generalizing s remote localPath isDir with
  | zero => exact absurd h List.not_mem_nil
  | succ fuel ih =>
    cases downloadTree_origin w fuel s remote localPath isDir h with
    | own _ hjoin => exact absurd rfl (hjoin dir name)
    | entry t e hlocal hev hall =>
      rcases List.mem_cons.mp hev with hev | hev
      · obtain ⟨rfl, -⟩ := Event.join.inj hev
        exact hlocal
      · obtain ⟨ev, hmem, hcreates⟩ := mem_created.mp (ih _ _ _ _ hev)
        exact mem_created.mpr ⟨ev, hall ev (List.mem_cons_of_mem _ hmem), hcreates⟩

theorem created_closed (w : World σ) (Good : QString → Prop) (events : List Event)
    (hstep : ∀ dir name, .join dir name ∈ events → Good dir →
      QDir.filePath dir name ∈ created events → Good (QDir.filePath dir name))
    (fuel : Nat) (s : σ) (remote localPath : QString) (isDir : Bool)
    (hall : ∀ ev ∈ (downloadTree w fuel s remote localPath isDir).events, ev ∈ events)
    (hlocal : localPath ∈ created (downloadTree w fuel s remote localPath isDir).events →
      Good localPath) :
    ∀ p ∈ created (downloadTree w fuel s remote localPath isDir).events, Good p := by
  induction fuel generalizing s remote localPath isDir with
  | zero => exact nofun
  | succ fuel ih =>
    intro p hp
    obtain ⟨ev, hev, hcreates⟩ := mem_created.mp hp
    cases downloadTree_origin w fuel s remote localPath isDir hev with
    | own hown _ =>
      rcases hown with hown | hown
      · cases hcreates.symm.trans hown
      · obtain rfl := Option.some.inj (hown.symm.trans hcreates)
        exact hlocal hp
    | entry t e hmade hmem hsub =>
      have hchild : ∀ ev ∈ (downloadTree w fuel t (RemotePath.join remote e.name)
          (QDir.filePath localPath e.name) e.isDir).events, ev ∈ events :=
        fun ev' h => hall ev' (hsub ev' (List.mem_cons_of_mem _ h))
      refine ih _ _ _ _ hchild ?_ p ?_
      · intro hpath
        obtain ⟨ev', hev', hc⟩ := mem_created.mp hpath
        exact hstep _ _ (hall _ (hsub _ List.mem_cons_self)) (hlocal hmade)
          (mem_created.mpr ⟨ev', hchild ev' hev', hc⟩)
      · rcases List.mem_cons.mp hmem with rfl | hmem
        · cases hcreates
        · exact mem_created.mpr ⟨ev, hmem, hcreates⟩

theorem download_inside_iff (w : World σ) (fuel : Nat) (s : σ) (remote folder : QString)
    (isDir : Bool) :
    (∀ p ∈ created (downloadTree w fuel s remote folder isDir).events, Under folder p) ↔
      ∀ dir name, .join dir name ∈ (downloadTree w fuel s remote folder isDir).events →
        QDir.filePath dir name ∈ created (downloadTree w fuel s remote folder isDir).events →
        Keeps folder dir name := by
  constructor
  · intro h dir name hjoin hmade
    exact (keeps_iff (h dir (joins_created w fuel s remote folder isDir hjoin))).mpr (h _ hmade)
  · intro h
    refine created_closed w (Under folder) _ ?_ fuel s remote folder isDir (fun _ h => h) ?_
    · intro dir name hjoin hdir hmade
      exact (keeps_iff hdir).mp (h dir name hjoin hmade)
    · intro _
      exact ⟨rfl, rfl, [], (List.append_nil _).symm, nofun⟩

def oneFile (name : QString) : World Unit where
  canceled s := (s, false)
  list s _ := (s, some [⟨name, 0, false, 0o644, 0⟩])
  download s _ _ := (s, 0)
  upload s _ _ := (s, 0)
  makeDir s _ := (s, true)
  mkpath s _ := (s, true)
  isDir _ _ := false
  localEntries _ _ := []
  remoteDir _ _ := true
  download_ret _ _ _ := show (-1 : Int) ≤ 0 by decide
  upload_ret _ _ _ := show (-1 : Int) ≤ 0 by decide

theorem dotDot_name_escapes :
    ∃ p ∈ created (downloadTree (oneFile "../.bashrc") 2 () "/pub" "/home/u/dl" true).events,
      ¬ Under "/home/u/dl" p := by
  refine ⟨"/home/u/dl/../.bashrc".toList, by decide +kernel, ?_⟩
  rintro ⟨-, -, names, he, -⟩
  have hnames : ["home".toList, "u".toList, ".bashrc".toList] =
      ["home".toList, "u".toList, "dl".toList] ++ names := he
  exact absurd (congrArg (List.take 3) hnames) (by simp)

end Sftp
