import MacXterm.Lib.Mealy
import MacXterm.Qt.Map
import MacXterm.Qt.Path
import MacXterm.Sftp.PathLaws
import MacXterm.Sftp.RemoteTransfer

namespace Ui.SftpPanel

open Qt Qt.QDir Sftp Sftp.RemotePath

-- QFileInfo::fileName.
def fileName (path : QString) : QString := path.drop (lastIndexOf path '/' + 1).toNat

structure Item where
  target : QString
  name : QString
  isDir : Bool

-- What holds the panel up in a loop of its own, with what it took from the panel when it began.
inductive Dialog where
  | menu (item : Option Item)
  | download (item : Item)
  | upload
  | uploadFolder
  | storing
  | dropping (urls : List (Option QString)) (ok : Nat)

def Dialog.item? : Dialog → Option Item
  | .menu item => item
  | .download item => some item
  | _ => none

structure View where
  ready : Bool
  cwd : QString
  home : QString
  rows : List SftpEntry

structure Panel extends View where
  current : Option SftpEntry
  follow : Bool
  dialog : Option Dialog
  editing : QHash QString QString

def fresh : Panel where
  ready := false
  cwd := ['.']
  home := []
  rows := []
  current := none
  follow := true
  dialog := none
  editing := []

-- The calls that the backend gets, with its answers, and what is done to the panel beside them.
inductive Exchange where
  | backend (ready : Bool)
  | connect (cwd : QString)
  | disconnect
  | opened
  | list (path : QString) (entries : Option (List SftpEntry))
  | edit (remote localPath : QString) (ok : Bool)
  | saveBack (localPath remote : QString) (ok : Bool)
  | closed (localPath : QString)
  | fetch (remote localPath : QString) (ok : Bool)
  | fetchTree (remote localPath : QString) (isDir : Bool)
  | scpDownload (remote localPath : QString) (ok : Bool)
  | store (localPath remote : QString) (ok : Bool)
  | storeTree (localPath remote : QString)
  | stored (ok : Bool)
  | makeDir (path : QString) (ok : Bool)
  | removeFile (path : QString) (ok : Bool)
  | removeDir (path : QString) (ok : Bool)
  | rename (source target : QString) (ok : Bool)
  | chmod (path : QString) (mode : UInt32) (ok : Bool)

-- What the user does, what the backend answers to it, and what the terminal and the editors say.
inductive Event where
  | backend (ready : Bool)
  | openFor (realpath : QString) (answer : Option (List SftpEntry))
  | openFailed (ready : Bool)
  | closeSession
  | returnPressed (text : QString) (answer : Option (List SftpEntry))
  | refresh (answer : Option (List SftpEntry))
  | goUp (answer : Option (List SftpEntry))
  | goHome (answer : Option (List SftpEntry))
  | toggleFollow (checked : Bool)
  | setRemoteCwd (absPath : QString) (answer : Option (List SftpEntry))
  | setCurrent (row : Option Nat)
  | itemActivated (uuid : QString) (ok : Bool) (answer : Option (List SftpEntry))
  | fileSaved (localPath : QString) (ok : Bool)
  | finished (localPath : QString)
  | showContextMenu
  | menuEdit (uuid : QString) (ok : Bool)
  | menuScp (localPath : QString) (ok : Bool)
  | menuChmod (mode : Option UInt32) (ok : Bool) (answer : Option (List SftpEntry))
  | menuRename (nn : Option QString) (ok : Bool) (answer : Option (List SftpEntry))
  | menuDelete (yes ok : Bool) (answer : Option (List SftpEntry))
  | menuNewFolder (nn : Option QString) (ok : Bool) (answer : Option (List SftpEntry))
  | download
  | downloadInto (chosen : QString)
  | upload
  | uploadChosen (localPath : QString) (ok : Bool) (answer : Option (List SftpEntry))
  | uploadFolder
  | folderChosen (localPath : QString)
  | folderStored (ok : Bool) (answer : Option (List SftpEntry))
  | drop (urls : List (Option QString))
  | dropNext (canceled ok : Bool) (answer : Option (List SftpEntry))
  | dragOut (ok : Bool)

variable (tmpDir : QString)

def navigateTo (p : Panel) (path : QString) (answer : Option (List SftpEntry)) :
    Panel × List Exchange :=
  if p.ready then
    match answer with
    | none => (p, [.list path none])
    | some entries =>
        ({ p with cwd := path, rows := entries, current := none }, [.list path (some entries)])
  else (p, [])

-- A call, and the refresh where it succeeded.
def refreshing (p : Panel) (call : Exchange) (ok : Bool) (answer : Option (List SftpEntry)) :
    Panel × List Exchange :=
  if ok then
    let shown := navigateTo p p.cwd answer
    (shown.1, call :: shown.2)
  else (p, [call])

def selected (p : Panel) : Option Item :=
  p.current.bind fun e =>
    if e.name = [] then none else some ⟨join p.cwd e.name, e.name, e.isDir⟩

def editName (remote uuid : QString) : QString :=
  "macxterm-".toList ++ uuid ++ '-' :: fileName remote

def editRemote (p : Panel) (remote uuid : QString) (ok : Bool) : Panel × List Exchange :=
  if p.ready then
    let localPath := filePath tmpDir (editName remote uuid)
    if ok then
      ({ p with editing := p.editing.insert localPath remote }, [.edit remote localPath true])
    else (p, [.edit remote localPath false])
  else (p, [])

-- An action of the context menu on the item that it was opened on.
def onItem (p : Panel) (act : Panel → Item → Panel × List Exchange) : Panel × List Exchange :=
  match p.dialog with
  | some (.menu (some item)) => act { p with dialog := none } item
  | _ => (p, [])

def ask (p : Panel) (dialog : Dialog) : Panel × List Exchange :=
  if p.ready then ({ p with dialog := some dialog }, [.opened]) else (p, [])

def step (p : Panel) : Event → Panel × List Exchange
  | .backend ready => ({ p with ready := ready }, [.backend ready])
  | .openFor realpath answer =>
      let cwd := if realpath = [] then ['.'] else realpath
      let shown := navigateTo { p with ready := true, cwd := cwd, home := cwd } cwd answer
      (shown.1, .connect cwd :: shown.2)
  | .openFailed ready => ({ p with ready := ready }, [.backend ready])
  | .closeSession =>
      ({ p with ready := false, cwd := ['.'], rows := [], current := none }, [.disconnect])
  | .returnPressed text answer => navigateTo p text answer
  | .refresh answer => navigateTo p p.cwd answer
  | .goUp answer => navigateTo p (parent p.cwd) answer
  | .goHome answer => if p.home = [] then (p, []) else navigateTo p p.home answer
  | .toggleFollow checked => ({ p with follow := checked }, [])
  | .setRemoteCwd absPath answer =>
      if ¬p.follow then (p, [])
      else if absPath = [] ∨ absPath = p.cwd then (p, [])
      else navigateTo p absPath answer
  | .setCurrent row => ({ p with current := row.bind fun k => p.rows[k]? }, [])
  | .itemActivated uuid ok answer =>
      match selected p with
      | none => (p, [])
      | some item =>
          if item.name = ['.'] then (p, [])
          else if item.isDir then navigateTo p item.target answer
          else editRemote tmpDir p item.target uuid ok
  | .fileSaved localPath ok =>
      let remote := p.editing.value localPath []
      if remote = [] then (p, []) else (p, [.saveBack localPath remote ok])
  | .finished localPath =>
      ({ p with editing := p.editing.erase localPath }, [.closed localPath])
  | .showContextMenu => ask p (.menu ((selected p).filter fun item => item.name ≠ ['.']))
  | .menuEdit uuid ok =>
      onItem p fun p item =>
        if item.isDir then (p, []) else editRemote tmpDir p item.target uuid ok
  | .menuScp localPath ok =>
      onItem p fun p item =>
        if item.isDir ∨ localPath = [] then (p, [])
        else (p, [.scpDownload item.target localPath ok])
  | .menuChmod mode ok answer =>
      onItem p fun p item =>
        match mode with
        | none => (p, [])
        | some m => refreshing p (.chmod item.target m ok) ok answer
  | .menuRename nn ok answer =>
      onItem p fun p item =>
        match nn with
        | none => (p, [])
        | some nn =>
            if nn = [] then (p, [])
            else refreshing p (.rename item.target (join p.cwd nn) ok) ok answer
  | .menuDelete yes ok answer =>
      onItem p fun p item =>
        if ¬yes then (p, [])
        else if item.isDir then refreshing p (.removeDir item.target ok) ok answer
        else refreshing p (.removeFile item.target ok) ok answer
  | .menuNewFolder nn ok answer =>
      match p.dialog, nn with
      | some (.menu _), some nn =>
          if nn = [] then ({ p with dialog := none }, [])
          else refreshing { p with dialog := none } (.makeDir (join p.cwd nn) ok) ok answer
      | some (.menu _), none => ({ p with dialog := none }, [])
      | _, _ => (p, [])
  | .download =>
      match selected p with
      | none => (p, [])
      | some item => ask p (.download item)
  | .downloadInto chosen =>
      match p.dialog with
      | some (.download item) =>
          if chosen = [] then ({ p with dialog := none }, [])
          else
            let localPath := if item.isDir then filePath chosen item.name else chosen
            ({ p with dialog := none }, [.fetchTree item.target localPath item.isDir])
      | _ => (p, [])
  | .upload => ask p .upload
  | .uploadChosen localPath ok answer =>
      match p.dialog with
      | some .upload =>
          if localPath = [] then ({ p with dialog := none }, [])
          else
            refreshing { p with dialog := none }
              (.store localPath (join p.cwd (fileName localPath)) ok) ok answer
      | _ => (p, [])
  | .uploadFolder => ask p .uploadFolder
  | .folderChosen localPath =>
      match p.dialog with
      | some .uploadFolder =>
          if localPath = [] then ({ p with dialog := none }, [])
          else
            ({ p with dialog := some .storing },
              [.storeTree localPath (join p.cwd (fileName localPath))])
      | _ => (p, [])
  | .folderStored ok answer =>
      match p.dialog with
      | some .storing => refreshing { p with dialog := none } (.stored ok) ok answer
      | _ => (p, [])
  | .drop urls => ask p (.dropping urls 0)
  | .dropNext canceled ok answer =>
      match p.dialog with
      | some (.dropping [] done) =>
          refreshing { p with dialog := none } (.stored (0 < done)) (0 < done) answer
      | some (.dropping (none :: urls) done) =>
          ({ p with dialog := some (.dropping urls done) }, [])
      | some (.dropping (some localPath :: urls) done) =>
          if canceled then ({ p with dialog := some (.dropping urls done) }, [])
          else
            ({ p with dialog := some (.dropping urls (if ok then done + 1 else done)) },
              [.storeTree localPath (join p.cwd (fileName localPath))])
      | _ => (p, [])
  | .dragOut ok =>
      match selected p with
      | none => (p, [])
      | some item =>
          if item.isDir ∨ ¬p.ready then (p, [])
          else (p, [.fetch item.target (filePath tmpDir item.name) ok])

-- What is shown can be read off the exchanges.
def View.after (v : View) : Exchange → View
  | .backend ready => { v with ready := ready }
  | .connect cwd => { v with ready := true, cwd := cwd, home := cwd }
  | .disconnect => { v with ready := false, cwd := ['.'], rows := [] }
  | .list path (some entries) => { v with cwd := path, rows := entries }
  | _ => v

def viewed (log : List Exchange) : View := log.foldl View.after fresh.toView

-- The remote file that an editor of a local one was opened on.
def editedAfter (remoteOf : QString → Option QString) : Exchange → QString → Option QString
  | .edit remote localPath true => Function.update remoteOf localPath (some remote)
  | .closed localPath => Function.update remoteOf localPath none
  | _ => remoteOf

def edited (log : List Exchange) : QString → Option QString := log.foldl editedAfter fun _ => none

def Exchange.modifies : Exchange → Bool
  | .store _ _ ok => ok
  | .stored ok => ok
  | .makeDir _ ok => ok
  | .removeFile _ ok => ok
  | .removeDir _ ok => ok
  | .rename _ _ ok => ok
  | .chmod _ _ ok => ok
  | _ => false

-- The last exchange changed what is shown, which can be listed again.
def Pending (log : List Exchange) : Prop :=
  (∃ call, log.getLast? = some call ∧ call.modifies = true) ∧ (viewed log).ready = true

structure Shows (v : View) (item : Item) : Prop where
  row : ∃ e ∈ v.rows, e.name = item.name ∧ e.isDir = item.isDir
  named : item.name ≠ []
  target : item.target = join v.cwd item.name

-- The item was shown when the dialog that is open last was opened.
def Held (log : List Exchange) (item : Item) : Prop :=
  ∃ early late, log = early ++ .opened :: late ∧ .opened ∉ late ∧ Shows (viewed early) item

def Grounded (log : List Exchange) : Exchange → Prop
  | .edit remote localPath _ =>
      (∃ uuid, localPath = filePath tmpDir (editName remote uuid)) ∧
        ∃ item, item.target = remote ∧ item.isDir = false ∧
          (Shows (viewed log) item ∨ Held log item)
  | .saveBack localPath remote _ => edited log localPath = some remote
  | .fetch remote localPath _ =>
      ∃ item, item.target = remote ∧ item.isDir = false ∧ Shows (viewed log) item ∧
        localPath = filePath tmpDir item.name
  | .fetchTree remote localPath isDir =>
      ∃ item, item.target = remote ∧ item.isDir = isDir ∧ Held log item ∧
        (isDir = true → ∃ chosen, localPath = filePath chosen item.name)
  | .scpDownload remote _ _ => ∃ item, item.target = remote ∧ item.isDir = false ∧ Held log item
  | .store localPath remote _ => remote = join (viewed log).cwd (fileName localPath)
  | .storeTree localPath remote => remote = join (viewed log).cwd (fileName localPath)
  | .makeDir path _ => ∃ nn, nn ≠ [] ∧ path = join (viewed log).cwd nn
  | .removeFile path _ => ∃ item, item.target = path ∧ item.isDir = false ∧ Held log item
  | .removeDir path _ => ∃ item, item.target = path ∧ item.isDir = true ∧ Held log item
  | .rename source target _ =>
      (∃ item, item.target = source ∧ Held log item) ∧
        ∃ nn, nn ≠ [] ∧ target = join (viewed log).cwd nn
  | .chmod path _ _ => ∃ item, item.target = path ∧ Held log item
  | _ => True

structure Tracks (p : Panel) (log : List Exchange) : Prop where
  view : p.toView = viewed log
  current : ∀ e, p.current = some e → e ∈ p.rows
  held : ∀ item, p.dialog.bind Dialog.item? = some item → Held log item
  editing : ∀ localPath, p.editing.find localPath = edited log localPath
  named : ∀ localPath remote, edited log localPath = some remote → remote ≠ []

-- What the calls of a log have to keep to, one after the other.
def Sound (log : List Exchange) (call : Exchange) : Prop :=
  Grounded tmpDir log call ∧ (Pending log → ∃ answer, call = .list (viewed log).cwd answer)

def Guarded (log calls : List Exchange) : Prop :=
  ∀ before call rest, calls = before ++ call :: rest → Sound tmpDir (log ++ before) call

def Kept (log : List Exchange) (r : Panel × List Exchange) : Prop :=
  (Tracks r.1 (log ++ r.2) ∧ ¬Pending (log ++ r.2)) ∧ Guarded tmpDir log r.2

-- An exchange that leaves the panel as it is.
def Exchange.isCall : Exchange → Bool
  | .backend _ => false
  | .connect _ => false
  | .disconnect => false
  | .opened => false
  | .list _ entries => entries.isNone
  | .edit _ _ ok => !ok
  | .closed _ => false
  | _ => true

variable {tmpDir} {p : Panel} {log calls : List Exchange} {call : Exchange} {item : Item}
  {answer : Option (List SftpEntry)}

theorem viewed_append : viewed (log ++ calls) = calls.foldl View.after (viewed log) :=
  List.foldl_append

theorem edited_append : edited (log ++ calls) = calls.foldl editedAfter (edited log) :=
  List.foldl_append

theorem after_isCall (h : call.isCall = true) (v : View) : v.after call = v := by
  cases call with
  | list path entries =>
    cases entries with
    | none => rfl
    | some entries => cases h
  | backend | connect | disconnect => cases h
  | _ => rfl

theorem isCall_of_modifies (h : call.modifies = true) : call.isCall = true := by
  cases call with
  | store | stored | makeDir | removeFile | removeDir | rename | chmod => rfl
  | _ => cases h

theorem editedAfter_isCall (h : call.isCall = true) (remoteOf : QString → Option QString) :
    editedAfter remoteOf call = remoteOf := by
  cases call with
  | edit remote localPath ok =>
    cases ok with
    | false => rfl
    | true => cases h
  | closed => cases h
  | _ => rfl

theorem Held.append (h : Held log item) (hcalls : .opened ∉ calls) : Held (log ++ calls) item := by
  obtain ⟨early, late, rfl, hlate, hshows⟩ := h
  refine ⟨early, late ++ calls, by simp, ?_, hshows⟩
  simpa using ⟨hlate, hcalls⟩

theorem not_pending_concat (h : call.modifies = false) : ¬Pending (log ++ [call]) := by
  rintro ⟨⟨last, hlast, hmodifies⟩, -⟩
  rw [List.getLast?_concat] at hlast
  cases hlast
  simp [h] at hmodifies

theorem not_pending_nil : ¬Pending [] := by
  rintro ⟨⟨last, hlast, -⟩, -⟩
  cases hlast

theorem selected_shows (h : Tracks p log) (hitem : selected p = some item) :
    Shows (viewed log) item := by
  rw [selected, Option.bind_eq_some_iff] at hitem
  obtain ⟨e, he, hitem⟩ := hitem
  split at hitem
  · cases hitem
  · rename_i hname
    cases hitem
    rw [← h.view]
    exact ⟨⟨e, h.current e he, rfl, rfl⟩, hname, rfl⟩

theorem tracks_fresh : Tracks fresh [] where
  view := rfl
  current := nofun
  held := nofun
  editing _ := rfl
  named := nofun

-- An exchange that changes what is shown, and neither the dialog nor the editors.
theorem Tracks.next {q : Panel} (h : Tracks p log) (hview : q.toView = p.toView.after call)
    (hcurrent : ∀ e, q.current = some e → e ∈ q.rows) (hdialog : q.dialog = p.dialog)
    (hediting : q.editing = p.editing) (hedited : ∀ remoteOf, editedAfter remoteOf call = remoteOf)
    (hopened : call ≠ .opened) : Tracks q (log ++ [call]) := by
  have hsame : edited (log ++ [call]) = edited log := by
    rw [edited_append]
    exact hedited _
  refine ⟨?_, hcurrent, fun item hitem => ?_, ?_, ?_⟩
  · rw [viewed_append, ← h.view]
    exact hview
  · refine (h.held item (hdialog ▸ hitem)).append fun hmem => ?_
    exact hopened (List.mem_singleton.mp hmem).symm
  · rw [hsame, hediting]
    exact h.editing
  · rw [hsame]
    exact h.named

theorem Tracks.called (h : Tracks p log) (hcall : call.isCall = true) :
    Tracks p (log ++ [call]) := by
  refine h.next (after_isCall hcall _).symm h.current rfl rfl (editedAfter_isCall hcall) ?_
  rintro rfl
  cases hcall

theorem Tracks.same {q : Panel} (h : Tracks p log) (hview : q.toView = p.toView)
    (hcurrent : ∀ e, q.current = some e → e ∈ q.rows) (hdialog : q.dialog = p.dialog)
    (hediting : q.editing = p.editing) : Tracks q log where
  view := hview.trans h.view
  current := hcurrent
  held item hitem := h.held item (hdialog ▸ hitem)
  editing := hediting ▸ h.editing
  named := h.named

theorem find_of_value {remoteOf : QHash QString QString} {localPath : QString}
    (h : remoteOf.value localPath [] ≠ []) :
    remoteOf.find localPath = some (remoteOf.value localPath []) := by
  change (remoteOf.find localPath).getD [] ≠ [] at h
  change remoteOf.find localPath = some ((remoteOf.find localPath).getD [])
  cases hfind : remoteOf.find localPath with
  | none => simp [hfind] at h
  | some remote => rfl

theorem Tracks.release (h : Tracks p log) {dialog : Option Dialog}
    (hdialog : dialog.bind Dialog.item? = none) : Tracks { p with dialog := dialog } log where
  view := h.view
  current := h.current
  held item hitem := by simp [hdialog] at hitem
  editing := h.editing
  named := h.named

theorem tracks_navigateTo (h : Tracks p log) (path : QString) :
    Tracks (navigateTo p path answer).1 (log ++ (navigateTo p path answer).2) := by
  unfold navigateTo
  split
  · split
    · exact h.called rfl
    · exact h.next rfl nofun rfl rfl (fun _ => rfl) nofun
  · simpa using h

theorem tracks_ask (h : Tracks p log) (dialog : Dialog)
    (hitem : ∀ item, dialog.item? = some item → selected p = some item) :
    Tracks (ask p dialog).1 (log ++ (ask p dialog).2) := by
  unfold ask
  split
  · exact {
      view := by rw [viewed_append, ← h.view]; rfl
      current := h.current
      held := fun item hheld => ⟨log, [], rfl, nofun, selected_shows h (hitem item hheld)⟩
      editing := by rw [edited_append]; exact h.editing
      named := by rw [edited_append]; exact h.named }
  · simpa using h

theorem normalize_ne_nil (path : QString) : normalize path ≠ [] := by
  by_cases hp : path = []
  · subst hp
    exact List.cons_ne_nil _ _
  · rw [normalize_eq hp, cleanPath, if_neg hp]
    exact render_ne_nil _ _ (segmentStack_canonical path)

theorem join_ne_nil (base child : QString) : join base child ≠ [] := by
  unfold join
  split <;> exact normalize_ne_nil _

theorem Shows.target_ne_nil {v : View} (h : Shows v item) : item.target ≠ [] := by
  rw [h.target]
  exact join_ne_nil _ _

theorem Held.target_ne_nil (h : Held log item) : item.target ≠ [] := by
  obtain ⟨early, late, -, -, hshows⟩ := h
  exact hshows.target_ne_nil

theorem edited_edit (remote localPath other : QString) :
    edited (log ++ [.edit remote localPath true]) other =
      if other = localPath then some remote else edited log other := by
  rw [edited_append]
  exact Function.update_apply ..

theorem edited_closed (localPath other : QString) :
    edited (log ++ [.closed localPath]) other =
      if other = localPath then none else edited log other := by
  rw [edited_append]
  exact Function.update_apply ..

theorem Tracks.edit (h : Tracks p log) {remote : QString} (hremote : remote ≠ [])
    (localPath : QString) :
    Tracks { p with editing := p.editing.insert localPath remote }
      (log ++ [.edit remote localPath true]) where
  view := by rw [viewed_append, ← h.view]; rfl
  current := h.current
  held item hitem := (h.held item hitem).append (by simp)
  editing other := by rw [edited_edit, QHash.find_insert, h.editing]
  named other target htarget := by
    rw [edited_edit] at htarget
    split at htarget
    · exact Option.some.inj htarget ▸ hremote
    · exact h.named other target htarget

theorem Tracks.closed (h : Tracks p log) (localPath : QString) :
    Tracks { p with editing := p.editing.erase localPath } (log ++ [.closed localPath]) where
  view := by rw [viewed_append, ← h.view]; rfl
  current := h.current
  held item hitem := (h.held item hitem).append (by simp)
  editing other := by rw [edited_closed, QHash.find_erase, h.editing]
  named other target htarget := by
    rw [edited_closed] at htarget
    split at htarget
    · cases htarget
    · exact h.named other target htarget

theorem tracks_editRemote (h : Tracks p log) {remote : QString} (hremote : remote ≠ [])
    (uuid : QString) (ok : Bool) :
    Tracks (editRemote tmpDir p remote uuid ok).1
      (log ++ (editRemote tmpDir p remote uuid ok).2) := by
  unfold editRemote
  split
  · cases ok with
    | false => exact h.called rfl
    | true => exact h.edit hremote _
  · simpa using h

section Guard

theorem guarded_nil : Guarded tmpDir log [] := by
  intro before call rest h
  exact absurd h.symm (List.append_ne_nil_of_right_ne_nil before (List.cons_ne_nil call rest))

theorem guarded_cons (hcall : Sound tmpDir log call)
    (hcalls : Guarded tmpDir (log ++ [call]) calls) : Guarded tmpDir log (call :: calls) := by
  intro before next rest h
  cases before with
  | nil =>
    obtain ⟨rfl, -⟩ := List.cons.inj h
    simpa using hcall
  | cons first before =>
    obtain ⟨rfl, hrest⟩ := List.cons.inj h
    simpa using hcalls before next rest hrest

theorem guarded_one (hcall : Sound tmpDir log call) : Guarded tmpDir log [call] :=
  guarded_cons hcall guarded_nil

theorem sound_of_settled (hs : ¬Pending log) (hcall : Grounded tmpDir log call) :
    Sound tmpDir log call := ⟨hcall, fun hp => absurd hp hs⟩

theorem guarded_navigateTo {path : QString}
    (hpath : Pending log → path = (viewed log).cwd) :
    Guarded tmpDir log (navigateTo p path answer).2 := by
  unfold navigateTo
  split
  · split
    · exact guarded_one ⟨trivial, fun hp => ⟨none, by rw [hpath hp]⟩⟩
    · exact guarded_one ⟨trivial, fun hp => ⟨some _, by rw [hpath hp]⟩⟩
  · exact guarded_nil

theorem settled_navigateTo (h : Tracks p log) (path : QString) :
    ¬Pending (log ++ (navigateTo p path answer).2) := by
  unfold navigateTo
  split
  · split <;> exact not_pending_concat rfl
  · rename_i hready
    rw [List.append_nil]
    rintro ⟨-, hshown⟩
    rw [← h.view] at hshown
    exact hready hshown

theorem guarded_editRemote (hs : ¬Pending log) (hdir : item.isDir = false)
    (hitem : Shows (viewed log) item ∨ Held log item) (uuid : QString) (ok : Bool) :
    Guarded tmpDir log (editRemote tmpDir p item.target uuid ok).2 := by
  have hsound (ok : Bool) : Sound tmpDir log
      (.edit item.target (filePath tmpDir (editName item.target uuid)) ok) :=
    sound_of_settled hs ⟨⟨uuid, rfl⟩, item, rfl, hdir, hitem⟩
  unfold editRemote
  split
  · split <;> exact guarded_one (hsound _)
  · exact guarded_nil

theorem settled_editRemote (hs : ¬Pending log) (remote uuid : QString) (ok : Bool) :
    ¬Pending (log ++ (editRemote tmpDir p remote uuid ok).2) := by
  unfold editRemote
  split
  · split <;> exact not_pending_concat rfl
  · rwa [List.append_nil]

end Guard

section Steps

variable (h : Tracks p log) (hs : ¬Pending log)

include h hs

theorem kept_quiet : Kept tmpDir log (p, []) := by
  refine ⟨⟨?_, ?_⟩, guarded_nil⟩ <;> simpa

theorem kept_next {q : Panel} (hview : q.toView = p.toView.after call)
    (hcurrent : ∀ e, q.current = some e → e ∈ q.rows) (hdialog : q.dialog = p.dialog)
    (hediting : q.editing = p.editing) (hedited : ∀ remoteOf, editedAfter remoteOf call = remoteOf)
    (hopened : call ≠ .opened) (hmodifies : call.modifies = false)
    (hground : Grounded tmpDir log call) : Kept tmpDir log (q, [call]) :=
  ⟨⟨h.next hview hcurrent hdialog hediting hedited hopened, not_pending_concat hmodifies⟩,
    guarded_one (sound_of_settled hs hground)⟩

theorem kept_navigateTo (path : QString) : Kept tmpDir log (navigateTo p path answer) :=
  ⟨⟨tracks_navigateTo h path, settled_navigateTo h path⟩, guarded_navigateTo fun hp => absurd hp hs⟩

theorem kept_call (hcall : call.isCall = true) (hmodifies : call.modifies = false)
    (hground : Grounded tmpDir log call) : Kept tmpDir log (p, [call]) :=
  ⟨⟨h.called hcall, not_pending_concat hmodifies⟩, guarded_one (sound_of_settled hs hground)⟩

theorem kept_refreshing (hcall : call.isCall = true) {ok : Bool} (hok : call.modifies = ok)
    (hground : Grounded tmpDir log call) : Kept tmpDir log (refreshing p call ok answer) := by
  cases ok with
  | false => exact kept_call h hs hcall hok hground
  | true =>
    have hcalled := h.called hcall
    refine ⟨?_, guarded_cons (sound_of_settled hs hground) ?_⟩
    · simp only [refreshing, if_true]
      rw [List.append_cons]
      exact ⟨tracks_navigateTo hcalled p.cwd, settled_navigateTo hcalled p.cwd⟩
    · exact guarded_navigateTo fun _ => by rw [← hcalled.view]

theorem kept_editRemote (hdir : item.isDir = false)
    (hitem : Shows (viewed log) item ∨ Held log item) (uuid : QString) (ok : Bool) :
    Kept tmpDir log (editRemote tmpDir p item.target uuid ok) := by
  have htarget : item.target ≠ [] := hitem.elim Shows.target_ne_nil Held.target_ne_nil
  exact ⟨⟨tracks_editRemote h htarget uuid ok, settled_editRemote hs _ uuid ok⟩,
    guarded_editRemote hs hdir hitem uuid ok⟩

theorem kept_ask {dialog : Dialog}
    (hitem : ∀ item, dialog.item? = some item → selected p = some item) :
    Kept tmpDir log (ask p dialog) := by
  refine ⟨⟨tracks_ask h dialog hitem, ?_⟩, ?_⟩
  · unfold ask
    split
    · exact not_pending_concat rfl
    · simpa using hs
  · unfold ask
    split
    · exact guarded_one (sound_of_settled hs trivial)
    · exact guarded_nil

theorem kept_onItem {act : Panel → Item → Panel × List Exchange}
    (hact : ∀ p item, Tracks p log → Held log item → Kept tmpDir log (act p item)) :
    Kept tmpDir log (onItem p act) := by
  unfold onItem
  split
  · rename_i item hdialog
    exact hact _ item (h.release rfl) (h.held item (by rw [hdialog]; rfl))
  · exact kept_quiet h hs

end Steps

section Run

variable (h : Tracks p log) (hs : ¬Pending log)

include h hs

theorem kept_openFor (realpath : QString) (answer : Option (List SftpEntry)) :
    Kept tmpDir log (step tmpDir p (.openFor realpath answer)) := by
  simp only [step]
  generalize (if realpath = [] then ['.'] else realpath) = cwd
  have hopened : Tracks { p with ready := true, cwd := cwd, home := cwd }
      (log ++ [.connect cwd]) := h.next rfl h.current rfl rfl (fun _ => rfl) nofun
  have hshown : Kept tmpDir _ (navigateTo _ cwd answer) :=
    kept_navigateTo hopened (not_pending_concat rfl) cwd
  rw [Kept, List.append_assoc] at hshown
  exact ⟨hshown.1, guarded_cons (sound_of_settled hs trivial) hshown.2⟩

theorem kept_itemActivated (uuid : QString) (ok : Bool) (answer : Option (List SftpEntry)) :
    Kept tmpDir log (step tmpDir p (.itemActivated uuid ok answer)) := by
  simp only [step]
  split
  · exact kept_quiet h hs
  · rename_i item hitem
    split
    · exact kept_quiet h hs
    · split
      · exact kept_navigateTo h hs _
      · rename_i hdir
        exact kept_editRemote h hs (Bool.eq_false_iff.mpr hdir) (.inl (selected_shows h hitem)) ..

theorem kept_dropNext (canceled ok : Bool) (answer : Option (List SftpEntry)) :
    Kept tmpDir log (step tmpDir p (.dropNext canceled ok answer)) := by
  simp only [step]
  split
  · exact kept_refreshing (h.release rfl) hs rfl rfl trivial
  · exact kept_quiet (h.release rfl) hs
  · split
    · exact kept_quiet (h.release rfl) hs
    · exact kept_call (h.release rfl) hs rfl rfl (by rw [Grounded, ← h.view])
  · exact kept_quiet h hs

theorem kept_step (e : Event) : Kept tmpDir log (step tmpDir p e) := by
  cases e with
  | backend ready => exact kept_next h hs rfl h.current rfl rfl (fun _ => rfl) nofun rfl trivial
  | openFor realpath answer => exact kept_openFor h hs realpath answer
  | openFailed ready => exact kept_next h hs rfl h.current rfl rfl (fun _ => rfl) nofun rfl trivial
  | closeSession => exact kept_next h hs rfl nofun rfl rfl (fun _ => rfl) nofun rfl trivial
  | returnPressed text answer => exact kept_navigateTo h hs text
  | refresh answer => exact kept_navigateTo h hs _
  | goUp answer => exact kept_navigateTo h hs _
  | goHome answer =>
    simp only [step]
    split
    · exact kept_quiet h hs
    · exact kept_navigateTo h hs _
  | toggleFollow checked => exact kept_quiet (h.same rfl h.current rfl rfl) hs
  | setRemoteCwd absPath answer =>
    simp only [step]
    split
    · exact kept_quiet h hs
    · split
      · exact kept_quiet h hs
      · exact kept_navigateTo h hs absPath
  | setCurrent row =>
    refine kept_quiet (h.same rfl (fun e he => ?_) rfl rfl) hs
    obtain ⟨k, -, hk⟩ := Option.bind_eq_some_iff.mp he
    exact List.mem_of_getElem? hk
  | itemActivated uuid ok answer => exact kept_itemActivated h hs uuid ok answer
  | fileSaved localPath ok =>
    simp only [step]
    split
    · exact kept_quiet h hs
    · rename_i hremote
      refine kept_call h hs rfl rfl ?_
      rw [Grounded, ← h.editing]
      exact find_of_value hremote
  | finished localPath =>
    exact ⟨⟨h.closed localPath, not_pending_concat rfl⟩,
      guarded_one (sound_of_settled hs trivial)⟩
  | showContextMenu =>
    refine kept_ask h hs fun item hitem => ?_
    exact (Option.filter_eq_some_iff.mp hitem).1
  | menuEdit uuid ok =>
    refine kept_onItem h hs fun p item h hheld => ?_
    split
    · exact kept_quiet h hs
    · rename_i hdir
      exact kept_editRemote h hs (Bool.eq_false_iff.mpr hdir) (.inr hheld) uuid ok
  | menuScp localPath ok =>
    refine kept_onItem h hs fun p item h hheld => ?_
    split
    · exact kept_quiet h hs
    · rename_i hchosen
      refine kept_call h hs rfl rfl ⟨item, rfl, ?_, hheld⟩
      exact Bool.eq_false_iff.mpr (not_or.mp hchosen).1
  | menuChmod mode ok answer =>
    refine kept_onItem h hs fun p item h hheld => ?_
    split
    · exact kept_quiet h hs
    · exact kept_refreshing h hs rfl rfl ⟨item, rfl, hheld⟩
  | menuRename nn ok answer =>
    refine kept_onItem h hs fun p item h hheld => ?_
    split
    · exact kept_quiet h hs
    · rename_i nn
      split
      · exact kept_quiet h hs
      · rename_i hnn
        exact kept_refreshing h hs rfl rfl ⟨⟨item, rfl, hheld⟩, nn, hnn, by rw [← h.view]⟩
  | menuDelete yes ok answer =>
    refine kept_onItem h hs fun p item h hheld => ?_
    split
    · exact kept_quiet h hs
    · split
      · rename_i hdir
        exact kept_refreshing h hs rfl rfl ⟨item, rfl, hdir, hheld⟩
      · rename_i hdir
        exact kept_refreshing h hs rfl rfl ⟨item, rfl, Bool.eq_false_iff.mpr hdir, hheld⟩
  | menuNewFolder nn ok answer =>
    simp only [step]
    split
    · rename_i nn _
      split
      · exact kept_quiet (h.release rfl) hs
      · rename_i hnn
        exact kept_refreshing (h.release rfl) hs rfl rfl ⟨nn, hnn, by rw [← h.view]⟩
    · exact kept_quiet (h.release rfl) hs
    · exact kept_quiet h hs
  | download =>
    simp only [step]
    split
    · exact kept_quiet h hs
    · rename_i item hitem
      refine kept_ask h hs fun other hother => ?_
      rw [← hother]
      exact hitem
  | downloadInto chosen =>
    simp only [step]
    split
    · rename_i item hdialog
      split
      · exact kept_quiet (h.release rfl) hs
      · refine kept_call (h.release rfl) hs rfl rfl ⟨item, rfl, rfl, ?_, fun hdir => ?_⟩
        · exact h.held item (by rw [hdialog]; rfl)
        · exact ⟨chosen, by rw [if_pos hdir]⟩
    · exact kept_quiet h hs
  | upload => exact kept_ask h hs nofun
  | uploadChosen localPath ok answer =>
    simp only [step]
    split
    · split
      · exact kept_quiet (h.release rfl) hs
      · exact kept_refreshing (h.release rfl) hs rfl rfl (by rw [Grounded, ← h.view])
    · exact kept_quiet h hs
  | uploadFolder => exact kept_ask h hs nofun
  | folderChosen localPath =>
    simp only [step]
    split
    · split
      · exact kept_quiet (h.release rfl) hs
      · exact kept_call (h.release rfl) hs rfl rfl (by rw [Grounded, ← h.view])
    · exact kept_quiet h hs
  | folderStored ok answer =>
    simp only [step]
    split
    · exact kept_refreshing (h.release rfl) hs rfl rfl trivial
    · exact kept_quiet h hs
  | drop urls => exact kept_ask h hs nofun
  | dropNext canceled ok answer => exact kept_dropNext h hs canceled ok answer
  | dragOut ok =>
    simp only [step]
    split
    · exact kept_quiet h hs
    · rename_i item hitem
      split
      · exact kept_quiet h hs
      · rename_i hdrag
        refine kept_call h hs rfl rfl ⟨item, rfl, ?_, selected_shows h hitem, rfl⟩
        exact Bool.eq_false_iff.mpr (not_or.mp hdrag).1

end Run

variable (tmpDir)

theorem kept_run (events : List Event) :
    (Tracks (Mealy.after (step tmpDir) fresh events)
        (Mealy.outputs (step tmpDir) fresh events) ∧
      ¬Pending (Mealy.outputs (step tmpDir) fresh events)) ∧
    Guarded tmpDir [] (Mealy.outputs (step tmpDir) fresh events) := by
  have hstep (p : Panel) (log : List Exchange) (e : Event) (h : Tracks p log ∧ ¬Pending log) :
      Kept tmpDir log (step tmpDir p e) := kept_step h.1 h.2 e
  exact Mealy.outputs_guarded hstep ⟨tracks_fresh, not_pending_nil⟩

def readme : SftpEntry := ⟨"readme".toList, 5, false, 0o644, 0⟩

-- The terminal moves on while the question whether to delete is open.
def deletion : List Event :=
  [.openFor "/home".toList (some [readme]), .setCurrent (some 0), .showContextMenu,
    .setRemoteCwd "/tmp".toList (some []), .menuDelete true true none]

end Ui.SftpPanel
