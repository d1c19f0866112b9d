import MacXterm.Core.IniLine
import MacXterm.Core.IniTree

namespace Core

open Qt SessionFolder

mutual

def folderLines (header : QString) : SessionFolder → List QString
  | ⟨_, folders, sessions⟩ =>
      headerText header :: sessions.map sessionText ++ subLines header folders

def subLines (header : QString) : List SessionFolder → List QString
  | [] => []
  | sub :: rest =>
      folderLines (header ++ '/' :: sub.name) sub ++ subLines header rest

end

def linesText (lines : List QString) : QString := lines.flatMap (· ++ ['\n'])

theorem linesText_append (a b : List QString) : linesText (a ++ b) = linesText a ++ linesText b :=
  List.flatMap_append

theorem toUtf8_sessions (ss : List Session) :
    (ss.flatMap fun s => toUtf8 s.name ++ toUtf8 "=" ++ toUtf8 (joinFields (fieldTexts s)) ++
      toUtf8 "\n") = toUtf8 (linesText (ss.map sessionText)) := by
  induction ss with
  | nil => rfl
  | cons s ss ih =>
    rw [List.flatMap_cons, ih, ← toUtf8_append, ← toUtf8_append, ← toUtf8_append, ← toUtf8_append]
    simp [linesText, sessionText]

theorem toUtf8_header (header : QString) :
    toUtf8 "[Folder=" ++ toUtf8 header ++ toUtf8 "]\n" =
      toUtf8 (linesText [headerText header]) := by
  rw [← toUtf8_append, ← toUtf8_append, linesText, List.flatMap_singleton, headerText_concat,
    List.append_assoc _ [']'] ['\n']]
  rfl

mutual

theorem collect_eq (path : QString) :
    ∀ f, collect path f = toUtf8 (linesText (folderLines (if path = [] then f.name else path) f))
  | ⟨name, folders, sessions⟩ => by
    rw [collect, toUtf8_sessions, collectAll_eq, toUtf8_header, ← toUtf8_append, ← toUtf8_append,
      ← linesText_append, ← linesText_append]
    rfl

theorem collectAll_eq (header : QString) :
    ∀ fs, collectAll header fs = toUtf8 (linesText (subLines header fs))
  | [] => rfl
  | f :: fs => by
    rw [collectAll, collect_eq _ f, collectAll_eq header fs, ← toUtf8_append, if_neg (by simp),
      subLines, linesText_append]

end

theorem splitOn_linesText {lines : List QString} (h : ∀ l ∈ lines, '\n' ∉ l) :
    (linesText lines).splitOn '\n' = lines ++ [[]] := by
  induction lines with
  | nil => rfl
  | cons l lines ih =>
    have hl := h l List.mem_cons_self
    rw [linesText, List.flatMap_cons, List.append_assoc, List.singleton_append,
      List.splitOn_append_cons_self_of_not_mem hl]
    exact congrArg (l :: ·) (ih fun x hx => h x (List.mem_cons_of_mem _ hx))

def newReader : Reader := ⟨⟨"Sessions", [], []⟩, []⟩

theorem deserialize_eq (t : SessionFolder)
    (h : ∀ l ∈ folderLines t.name t, '\n' ∉ l) :
    deserialize (serialize t) = ((folderLines t.name t).foldl Reader.line newReader).root := by
  have hstart : ∃ text, linesText (folderLines t.name t) = '[' :: text := by
    obtain ⟨name, folders, sessions⟩ := t
    exact ⟨_, rfl⟩
  obtain ⟨text, htext⟩ := hstart
  have hbom : dropBom (linesText (folderLines t.name t)) = linesText (folderLines t.name t) := by
    rw [htext]
    exact dropBom_cons (by decide)
  rw [deserialize, serialize, collect_eq, if_pos rfl, fromUtf8_toUtf8, hbom, splitOn_linesText h,
    List.foldl_append]
  rfl

def PathTo (header : QString) (parts : List QString) : Prop :=
  (header.splitOn '/').filter (· ≠ []) = "Sessions".toList :: parts

theorem pathTo_root : PathTo "Sessions" [] := by
  unfold PathTo
  decide +kernel

theorem pathTo_sub {header name : QString} {parts : List QString} (h : PathTo header parts)
    (hname : ValidName name) : PathTo (header ++ '/' :: name) (parts ++ [name]) := by
  obtain ⟨hne, hslash, -⟩ := hname
  rw [PathTo, List.splitOn_append_cons_self, List.filter_append, h,
    List.splitOn_eq_singleton hslash, List.filter_cons_of_pos (by simpa using hne)]
  rfl

theorem pathParts_eq {header : QString} {parts : List QString} (h : PathTo header parts) :
    pathParts "Sessions" header = parts := by
  unfold PathTo at h
  simp only [pathParts, h]
  rfl

theorem line_header {header : QString} {parts : List QString} (h : PathTo header parts)
    {r : Reader} (hr : r.root.name = "Sessions".toList) :
    r.line (headerText header) = ⟨modifyAt id parts r.root, parts⟩ := by
  simp only [Reader.line, readLine_headerText, hr, pathParts_eq h]
  rfl

def addSessions (ss : List Session) (f : SessionFolder) : SessionFolder :=
  { f with sessions := f.sessions ++ ss }

theorem sessions_run {g : Session → Session} {ss : List Session}
    (hread : ∀ s ∈ ss, readLine (sessionText s) = .session (g s))
    {c : SessionFolder → SessionFolder} (hc : ∀ f, (c f).name = f.name) (parts : List QString)
    (root : SessionFolder) :
    (ss.map sessionText).foldl Reader.line ⟨modifyAt c parts root, parts⟩ =
      ⟨modifyAt (fun f => addSessions (ss.map g) (c f)) parts root, parts⟩ := by
  induction ss generalizing c with
  | nil =>
    have hnil : (fun f => addSessions [] (c f)) = c := by
      funext f
      cases hf : c f
      simp [addSessions]
    rw [List.map_nil, List.map_nil, hnil]
    rfl
  | cons s ss ih =>
    have hline : Reader.line ⟨modifyAt c parts root, parts⟩ (sessionText s) =
        ⟨modifyAt (fun f => (c f).addSession (g s)) parts root, parts⟩ := by
      simp only [Reader.line, hread s List.mem_cons_self, modifyAt_modifyAt hc]
    have hmore : ∀ f, addSessions (ss.map g) ((c f).addSession (g s)) =
        addSessions ((s :: ss).map g) (c f) := by
      intro f
      simp [addSessions, addSession]
    rw [List.map_cons, List.foldl_cons, hline, ih (c := fun f => (c f).addSession (g s))
      (fun x hx => hread x (List.mem_cons_of_mem _ hx)) hc, funext hmore]

mutual

theorem folderLines_run {g : Session → Session} : ∀ (f : SessionFolder) {header : QString}
    {parts : List QString} {r : Reader}, PathTo header parts → Tidy f →
    AllSessions (fun s => readLine (sessionText s) = .session (g s)) f →
    r.root.name = "Sessions".toList →
    ((folderLines header f).foldl Reader.line r).root = modifyAt (merge g f) parts r.root
  | ⟨name, folders, sessions⟩, header, parts, r, hpath, ⟨_, hfolders⟩, ⟨hread, hreads⟩, hr => by
    rw [folderLines, List.cons_append, List.foldl_cons, List.foldl_append, line_header hpath hr,
      sessions_run (c := id) hread fun _ => rfl,
      subLines_run folders hpath hfolders hreads
        (c := fun f => addSessions (sessions.map g) (id f)) (fun _ => rfl) hr]
    rfl

theorem subLines_run {g : Session → Session} : ∀ (fs : List SessionFolder) {header : QString}
    {parts cur : List QString} {c : SessionFolder → SessionFolder} {root : SessionFolder},
    PathTo header parts → TidyFolders fs →
    AllInFolders (fun s => readLine (sessionText s) = .session (g s)) fs →
    (∀ f, (c f).name = f.name) → root.name = "Sessions".toList →
    ((subLines header fs).foldl Reader.line ⟨modifyAt c parts root, cur⟩).root =
      modifyAt (fun f => mergeFolders g fs (c f)) parts root
  | [], _, _, _, _, _, _, _, _, _, _ => rfl
  | sub :: rest, header, parts, cur, c, root, hpath, ⟨hname, hsub, hrest⟩, ⟨hread, hreads⟩, hc,
      hroot => by
    have hkeep : (modifyAt c parts root).name = "Sessions".toList :=
      (modifyAt_name hc parts root).trans hroot
    have hfirst := folderLines_run sub (r := ⟨modifyAt c parts root, cur⟩) (pathTo_sub hpath hname)
      hsub hread hkeep
    rw [modifyAt_append, modifyAt_modifyAt hc] at hfirst
    rw [subLines, List.foldl_append]
    generalize (folderLines (header ++ '/' :: sub.name) sub).foldl Reader.line
      ⟨modifyAt c parts root, cur⟩ = r at hfirst ⊢
    obtain ⟨rroot, rcur⟩ := r
    simp only at hfirst
    rw [hfirst, subLines_run rest hpath hrest hreads
      (c := fun f => { c f with folders := updateChild sub.name (merge g sub) (c f).folders }) hc
      hroot]
    rfl

end

def NoBreak (s : Session) : Prop :=
  '\n' ∉ s.name ∧ ∀ e ∈ s.params.entries, '\n' ∉ e.1 ∧ '\n' ∉ e.2

theorem readLine_noBreak {l : QString} (hl : '\n' ∉ l) {s : Session}
    (h : readLine l = .session s) : NoBreak s := by
  obtain ⟨rest, type, fields, ht, -, -, -, -, hsplit, hs⟩ := readLine_session h
  have hname : '\n' ∉ s.name := fun hm =>
    hl (trimmed_subset _ (ht ▸ List.mem_append_left _ hm))
  have hrest : '\n' ∉ rest := fun hm =>
    hl (trimmed_subset _ (ht ▸ List.mem_append_right _ (List.mem_cons_of_mem _ hm)))
  refine ⟨hname, ?_⟩
  rw [congrArg Session.params hs]
  refine readFields_all (fun f hf e he => ?_) nofun
  have hf' : '\n' ∉ f := fun hm =>
    hrest ((mem_splitOn (hsplit ▸ List.mem_cons_of_mem _ hf)).2 hm)
  obtain ⟨-, -, rfl⟩ := mem_cutAtEquals he
  exact ⟨fun hm => hf' (List.mem_append_left _ hm),
    fun hm => hf' (List.mem_append_right _ (List.mem_cons_of_mem _ hm))⟩

theorem validName_pathParts {rootName path : QString} (h : '\n' ∉ path) :
    ∀ p ∈ pathParts rootName path, ValidName p := by
  have hparts : ∀ p ∈ (path.splitOn '/').filter (· ≠ []), ValidName p := by
    intro p hp
    obtain ⟨hp, hne⟩ := List.mem_filter.mp hp
    exact ⟨by simpa using hne, (mem_splitOn hp).1, fun hm => h ((mem_splitOn hp).2 hm)⟩
  intro p hp
  simp only [pathParts] at hp
  split at hp
  · exact hparts p (List.mem_of_mem_tail hp)
  · exact hparts p hp

theorem mem_path_of_readLine {l path : QString} (h : readLine l = .folder path) :
    ∀ c ∈ path, c ∈ l := by
  simp only [readLine] at h
  split at h
  · cases h
  · split at h
    · obtain rfl := Line.folder.inj h
      intro c hc
      exact trimmed_subset _ (List.mem_of_mem_drop (List.mem_of_mem_take hc))
    · split at h
      · cases h
      · split at h <;> cases h

-- What every reader keeps, whatever lines it is given.
structure Kept (r : Reader) : Prop where
  tidy : Tidy r.root
  unbroken : AllSessions NoBreak r.root
  path : ∀ p ∈ r.cur, ValidName p

theorem line_keeps {r : Reader} (h : Kept r) {l : QString} (hl : '\n' ∉ l) : Kept (r.line l) := by
  unfold Reader.line
  split
  · exact h
  · rename_i path hread
    have hparts := @validName_pathParts r.root.name path
      fun hm => hl (mem_path_of_readLine hread _ hm)
    exact ⟨modifyAt_tidy (fun _ => rfl) (fun _ => id) hparts h.tidy,
      modifyAt_allSessions (fun _ => id) _ h.unbroken, hparts⟩
  · rename_i s hread
    refine ⟨modifyAt_tidy (c := (·.addSession s)) (fun _ => rfl) (fun f hf => ?_) h.path h.tidy,
      modifyAt_allSessions (c := (·.addSession s)) (fun f hf => ?_) _ h.unbroken, h.path⟩
    · obtain ⟨name, folders, sessions⟩ := f
      exact hf
    · obtain ⟨name, folders, sessions⟩ := f
      obtain ⟨hsessions, hfolders⟩ := hf
      refine ⟨fun x hx => ?_, hfolders⟩
      rcases List.mem_append.mp hx with hx | hx
      · exact hsessions x hx
      · exact List.mem_singleton.mp hx ▸ readLine_noBreak hl hread

theorem lines_keep {r : Reader} (h : Kept r) {lines : List QString} (hl : ∀ l ∈ lines, '\n' ∉ l) :
    Kept (lines.foldl Reader.line r) := by
  induction lines generalizing r with
  | nil => exact h
  | cons l lines ih =>
    exact ih (line_keeps h (hl l List.mem_cons_self)) fun x hx => hl x (List.mem_cons_of_mem _ hx)

theorem deserialize_keeps (data : QByteArray) :
    Tidy (deserialize data) ∧ AllSessions NoBreak (deserialize data) := by
  have hnew : Kept newReader := ⟨⟨List.nodup_nil, trivial⟩, ⟨nofun, trivial⟩, nofun⟩
  have h := lines_keep hnew (not_mem_splitOn '\n' (fromUtf8 data))
  exact ⟨h.tidy, h.unbroken⟩

theorem notMem_body {type : QString} (htype : '\n' ∉ type) {es : List (QString × QString)}
    (h : ∀ e ∈ es, '\n' ∉ e.1 ∧ '\n' ∉ e.2) : '\n' ∉ body type es := by
  induction es generalizing type with
  | nil => simpa [body, joinFields] using htype
  | cons e es ih =>
    obtain ⟨hkey, hvalue⟩ := h e List.mem_cons_self
    have hrest := @ih (fieldText e) (by simp [fieldText, hkey, hvalue])
      fun d hd => h d (List.mem_cons_of_mem _ hd)
    rw [body_cons]
    simp [htype, hrest]

theorem notMem_sessionText {s : Session} (h : NoBreak s) : '\n' ∉ sessionText s := by
  have htype : '\n' ∉ sessionTypeToString s.type := by
    cases s.type <;> decide
  have hbody : '\n' ∉ joinFields (fieldTexts s) := notMem_body htype h.2
  simp [sessionText, h.1, hbody]

theorem notMem_headerText {header : QString} (h : '\n' ∉ header) : '\n' ∉ headerText header := by
  have hopen : '\n' ∉ "[Folder=".toList := by decide
  rw [headerText_concat, List.mem_append, List.mem_append, not_or, not_or]
  exact ⟨⟨hopen, h⟩, by decide⟩

mutual

theorem folderLines_noBreak : ∀ (f : SessionFolder) {header : QString}, '\n' ∉ header → Tidy f →
    AllSessions NoBreak f → ∀ l ∈ folderLines header f, '\n' ∉ l
  | ⟨_, folders, sessions⟩, header, hheader, ⟨_, hfolders⟩, ⟨hsessions, hmore⟩, l, hl => by
    rw [folderLines, List.cons_append] at hl
    rcases List.mem_cons.mp hl with rfl | hl
    · exact notMem_headerText hheader
    · rcases List.mem_append.mp hl with hl | hl
      · obtain ⟨s, hs, rfl⟩ := List.mem_map.mp hl
        exact notMem_sessionText (hsessions s hs)
      · exact subLines_noBreak folders hheader hfolders hmore l hl

theorem subLines_noBreak : ∀ (fs : List SessionFolder) {header : QString}, '\n' ∉ header →
    TidyFolders fs → AllInFolders NoBreak fs → ∀ l ∈ subLines header fs, '\n' ∉ l
  | [], _, _, _, _, _, hl => nomatch hl
  | sub :: rest, header, hheader, ⟨hname, hsub, hrest⟩, ⟨hb, hbs⟩, l, hl => by
    rcases List.mem_append.mp hl with hl | hl
    · exact folderLines_noBreak sub (by simp [hheader, hname.2.2]) hsub hb l hl
    · exact subLines_noBreak rest hheader hrest hbs l hl

end

def readsSession (l : QString) : Bool :=
  match readLine l with
  | .session _ => true
  | _ => false

theorem totalSessions_line (r : Reader) (l : QString) :
    totalSessions (r.line l).root =
      totalSessions r.root + if readsSession l = true then 1 else 0 := by
  unfold Reader.line readsSession
  cases readLine l with
  | skip => rfl
  | folder path => exact totalSessions_modifyAt (k := 0) (fun _ => rfl) _ _
  | session s =>
    refine totalSessions_modifyAt (c := (·.addSession s)) (k := 1) (fun f => ?_) _ _
    obtain ⟨name, folders, sessions⟩ := f
    change totalSessions ⟨name, folders, sessions ++ [s]⟩ = _
    rw [totalSessions, totalSessions, List.length_append, List.length_singleton]
    omega

theorem totalSessions_lines (r : Reader) (lines : List QString) :
    totalSessions (lines.foldl Reader.line r).root =
      totalSessions r.root + lines.countP readsSession := by
  induction lines generalizing r with
  | nil => rfl
  | cons l lines ih =>
    rw [List.foldl_cons, ih, totalSessions_line, List.countP_cons]
    omega

mutual

-- No more lines are read as sessions than there are sessions, and as many only if each one is.
theorem folderLines_counted : ∀ (f : SessionFolder) (header : QString),
    (folderLines header f).countP readsSession ≤ totalSessions f ∧
      (totalSessions f ≤ (folderLines header f).countP readsSession →
        AllSessions (fun s => readsSession (sessionText s) = true) f)
  | ⟨_, folders, sessions⟩, header => by
    have hheader : readsSession (headerText header) = false := by
      simp only [readsSession, readLine_headerText]
    have hle : (sessions.map sessionText).countP readsSession ≤ sessions.length := by
      simpa using List.countP_le_length (p := readsSession) (l := sessions.map sessionText)
    obtain ⟨hsub, hall⟩ := subLines_counted folders header
    rw [folderLines, List.cons_append, List.countP_cons_of_neg (by simp [hheader]),
      List.countP_append, totalSessions]
    refine ⟨by omega, fun h => ⟨fun s hs => ?_, hall (by omega)⟩⟩
    have heq : (sessions.map sessionText).countP readsSession =
        (sessions.map sessionText).length := by
      rw [List.length_map]
      omega
    exact List.countP_eq_length.mp heq _ (List.mem_map_of_mem hs)

theorem subLines_counted : ∀ (fs : List SessionFolder) (header : QString),
    (subLines header fs).countP readsSession ≤ totalInFolders fs ∧
      (totalInFolders fs ≤ (subLines header fs).countP readsSession →
        AllInFolders (fun s => readsSession (sessionText s) = true) fs)
  | [], _ => ⟨Nat.le_refl _, fun _ => trivial⟩
  | sub :: rest, header => by
    obtain ⟨hfirst, hall⟩ := folderLines_counted sub (header ++ '/' :: sub.name)
    obtain ⟨hmore, halls⟩ := subLines_counted rest header
    rw [subLines, List.countP_append, totalInFolders]
    exact ⟨by omega, fun h => ⟨hall (by omega), halls (by omega)⟩⟩

end

def readBack (s : Session) : Session :=
  match readLine (sessionText s) with
  | .session r => r
  | _ => s

theorem readLine_readBack {s : Session} (h : readsSession (sessionText s) = true) :
    readLine (sessionText s) = .session (readBack s) := by
  unfold readsSession readBack at *
  cases hr : readLine (sessionText s) with
  | skip => simp [hr] at h
  | folder path => simp [hr] at h
  | session r => rfl

structure Exportable (t : SessionFolder) : Prop where
  tidy : Tidy t
  sessions : AllSessions (fun s => Writable s ∧ NoBreak s) t

theorem deserialize_readBack {t : SessionFolder} (hname : t.name = "Sessions".toList)
    (htidy : Tidy t) (hbreak : AllSessions NoBreak t)
    (hread : AllSessions (fun s => readsSession (sessionText s) = true) t) :
    deserialize (serialize t) = mapSessions readBack t := by
  have hheader : '\n' ∉ t.name := by
    rw [hname]
    decide
  have hreads : AllSessions (fun s => readLine (sessionText s) = .session (readBack s)) t :=
    allSessions_both (fun _ hs _ => readLine_readBack hs) t hread hread
  have hpath : PathTo t.name [] := hname ▸ pathTo_root
  rw [deserialize_eq t (folderLines_noBreak t hheader htidy hbreak),
    folderLines_run t hpath htidy hreads rfl, ← merge_new readBack t htidy, hname]
  rfl

theorem exportable_of_round_trip {t : SessionFolder} (hname : t.name = "Sessions".toList)
    (h : deserialize (serialize t) = t) : Exportable t := by
  obtain ⟨htidy, hbreak⟩ := deserialize_keeps (serialize t)
  rw [h] at htidy hbreak
  have hheader : '\n' ∉ t.name := by
    rw [hname]
    decide
  have hcount := totalSessions_lines newReader (folderLines t.name t)
  rw [← deserialize_eq t (folderLines_noBreak t hheader htidy hbreak), h] at hcount
  have hempty : totalSessions newReader.root = 0 := rfl
  have hread := (folderLines_counted t t.name).2 (by omega)
  have hmap := deserialize_readBack hname htidy hbreak hread
  rw [h] at hmap
  have hback := (mapSessions_eq_iff readBack t).mp hmap.symm
  have hwritable : AllSessions Writable t :=
    allSessions_both (fun s hs he => writable_of_readLine ((readLine_readBack hs).trans
      (congrArg Line.session he))) t hread hback
  exact ⟨htidy, allSessions_both (fun _ hw hb => ⟨hw, hb⟩) t hwritable hbreak⟩

theorem round_trip_of_exportable {t : SessionFolder} (hname : t.name = "Sessions".toList)
    (h : Exportable t) : deserialize (serialize t) = t := by
  have hread : AllSessions (fun s => readsSession (sessionText s) = true) t :=
    allSessions_both (fun s hs _ => by simp [readsSession, readLine_writable hs.1]) t h.sessions
      h.sessions
  have hback : AllSessions (fun s => readBack s = s) t :=
    allSessions_both (fun s hs _ => by simp [readBack, readLine_writable hs.1]) t h.sessions
      h.sessions
  have hbreak : AllSessions NoBreak t :=
    allSessions_both (fun _ hs _ => hs.2) t h.sessions h.sessions
  rw [deserialize_readBack hname h.tidy hbreak hread]
  exact (mapSessions_eq_iff readBack t).mpr hback

theorem ini_round_trip_iff (folders : List SessionFolder) (sessions : List Session) :
    deserialize (serialize ⟨"Sessions", folders, sessions⟩) = ⟨"Sessions", folders, sessions⟩ ↔
      Exportable ⟨"Sessions", folders, sessions⟩ :=
  ⟨exportable_of_round_trip rfl, round_trip_of_exportable rfl⟩

def twoCommands : Session := ⟨"web", .ssh, QMap.empty.insert "remotecommand" "cd /srv; ls"⟩

theorem ini_command_cut :
    deserialize (serialize ⟨"Sessions", [], [twoCommands]⟩) ≠ ⟨"Sessions", [], [twoCommands]⟩ := by
  intro h
  have hsession := (exportable_of_round_trip rfl h).sessions.1 _ (List.mem_singleton.mpr rfl)
  have hclean := hsession.1.fields ("remotecommand".toList, "cd /srv; ls".toList)
    (by decide +kernel)
  exact hclean.2.2.2 (by decide)

end Core
