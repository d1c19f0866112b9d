import MacXterm.Sftp.RemotePath

namespace Sftp

open Qt

structure SftpEntry where
  name : QString
  size : UInt64
  isDir : Bool
  permissions : UInt32
  mtime : Int64
deriving DecidableEq

-- The remote file system, the local one and the user, all of which may change with every call.
structure World (σ : Type) where
  canceled : σ → σ × Bool
  list : σ → QString → σ × Option (List SftpEntry)
  download : σ → QString → QString → σ × Int
  upload : σ → QString → QString → σ × Int
  makeDir : σ → QString → σ × Bool
  mkpath : σ → QString → σ × Bool
  isDir : σ → QString → Bool
  localEntries : σ → QString → List QString
  -- Whether a directory is there, whatever `makeDir` returned.
  remoteDir : σ → QString → Bool
  download_ret : ∀ s p q, -1 ≤ (download s p q).2
  upload_ret : ∀ s p q, -1 ≤ (upload s p q).2

inductive Event
  | join (dir name : QString)
  | item (path : QString)
  | mkpath (path : QString) (ok : Bool)
  | list (path : QString) (entries : Option (List SftpEntry))
  | download (remotePath localPath : QString) (n : Int)
  | makeDir (path : QString) (ok present : Bool)
  | localEntries (path : QString) (names : List QString)
  | upload (localPath remotePath : QString) (n : Int)
  | canceled
deriving DecidableEq

-- `result` is none while the recursion has not come to its end.
structure Run (σ : Type) where
  state : σ
  events : List Event
  result : Option Int

variable {σ : Type}

def Run.after (r : Run σ) (before : List Event) : Run σ := { r with events := before ++ r.events }

-- The loop over the entries of a directory: `visit` is the recursive call.
def transferEach {α : Type} (w : World σ) (visit : σ → α → Run σ) : σ → List α → Int → Run σ
  | s, [], total => ⟨s, [], some total⟩
  | s, e :: es, total =>
      let (s, stop) := w.canceled s
      if stop then ⟨s, [.canceled], some (-1)⟩
      else
        let r := visit s e
        match r.result with
        | none => r
        | some n =>
            if n < 0 then { r with result := some (-1) }
            else (transferEach w visit r.state es (total + n)).after r.events

def isDots (name : QString) : Bool := name == ['.'] || name == ['.', '.']

def downloadTree (w : World σ) : Nat → σ → QString → QString → Bool → Run σ
  | 0, s, _, _, _ => ⟨s, [], none⟩
  | fuel + 1, s, remote, localPath, isDir =>
      let (s, stop) := w.canceled s
      if stop then ⟨s, [.canceled], some (-1)⟩
      else if ¬isDir then
        let (s, n) := w.download s remote localPath
        ⟨s, [.item remote, .download remote localPath n], some n⟩
      else
        match w.mkpath s localPath with
        | (s, false) => ⟨s, [.mkpath localPath false], some (-1)⟩
        | (s, true) =>
            match w.list s remote with
            | (s, none) => ⟨s, [.mkpath localPath true, .list remote none], some (-1)⟩
            | (s, some entries) =>
                let visit := fun s (e : SftpEntry) =>
                  (downloadTree w fuel s (RemotePath.join remote e.name)
                    (QDir.filePath localPath e.name) e.isDir).after [.join localPath e.name]
                (transferEach w visit s (entries.filter fun e => !isDots e.name) 0).after
                  [.mkpath localPath true, .list remote (some entries)]

def uploadTree (w : World σ) : Nat → σ → QString → QString → Run σ
  | 0, s, _, _ => ⟨s, [], none⟩
  | fuel + 1, s, localPath, remote =>
      let (s, stop) := w.canceled s
      if stop then ⟨s, [.canceled], some (-1)⟩
      else if ¬w.isDir s localPath then
        let (s, n) := w.upload s localPath remote
        ⟨s, [.item localPath, .upload localPath remote n], some n⟩
      else
        -- What `makeDir` returns is not looked at.
        let (s, ok) := w.makeDir s remote
        let names := w.localEntries s localPath
        let visit := fun s (name : QString) =>
          uploadTree w fuel s (QDir.filePath localPath name) (RemotePath.join remote name)
        (transferEach w visit s names 0).after
          [.makeDir remote ok (w.remoteDir s remote), .localEntries localPath names]

section Cases

variable (w : World σ) (fuel : Nat)

theorem transferEach_cases {α : Type} (visit : σ → α → Run σ) (s : σ) (e : α) (es : List α)
    (total : Int) :
    (∃ t, transferEach w visit s (e :: es) total = ⟨t, [.canceled], some (-1)⟩) ∨
    (∃ t, (visit t e).result = none ∧ transferEach w visit s (e :: es) total = visit t e) ∨
    (∃ t n, (visit t e).result = some n ∧ n < 0 ∧
      transferEach w visit s (e :: es) total = { visit t e with result := some (-1) }) ∨
    ∃ t n, (visit t e).result = some n ∧ 0 ≤ n ∧
      transferEach w visit s (e :: es) total =
        (transferEach w visit (visit t e).state es (total + n)).after (visit t e).events := by
  simp only [transferEach]
  split
  · exact .inl ⟨_, rfl⟩
  · split
    · rename_i hr
      exact .inr (.inl ⟨_, hr, rfl⟩)
    · rename_i n hr
      split
      · rename_i hn
        exact .inr (.inr (.inl ⟨_, n, hr, hn, rfl⟩))
      · rename_i hn
        exact .inr (.inr (.inr ⟨_, n, hr, Int.not_lt.mp hn, rfl⟩))

def downloadEntry (remote localPath : QString) (s : σ) (e : SftpEntry) : Run σ :=
  (downloadTree w fuel s (RemotePath.join remote e.name) (QDir.filePath localPath e.name)
    e.isDir).after [.join localPath e.name]

def uploadEntry (localPath remote : QString) (s : σ) (name : QString) : Run σ :=
  uploadTree w fuel s (QDir.filePath localPath name) (RemotePath.join remote name)

theorem downloadTree_cases (s : σ) (remote localPath : QString) (isDir : Bool) :
    ((downloadTree w (fuel + 1) s remote localPath isDir).events = [.canceled] ∧
      (downloadTree w (fuel + 1) s remote localPath isDir).result = some (-1)) ∨
    (isDir = false ∧ ∃ t,
      downloadTree w (fuel + 1) s remote localPath isDir =
        ⟨(w.download t remote localPath).1,
          [.item remote, .download remote localPath (w.download t remote localPath).2],
          some (w.download t remote localPath).2⟩) ∨
    (isDir = true ∧ ∃ t,
      (downloadTree w (fuel + 1) s remote localPath isDir =
        ⟨t, [.mkpath localPath false], some (-1)⟩ ∨
      downloadTree w (fuel + 1) s remote localPath isDir =
        ⟨t, [.mkpath localPath true, .list remote none], some (-1)⟩ ∨
      ∃ u entries, w.list u remote = (t, some entries) ∧
        downloadTree w (fuel + 1) s remote localPath isDir =
        (transferEach w (downloadEntry w fuel remote localPath) t
          (entries.filter fun e => !isDots e.name) 0).after
          [.mkpath localPath true, .list remote (some entries)])) := by
  simp only [downloadTree]
  split
  · exact .inl ⟨rfl, rfl⟩
  · cases isDir with
    | false => exact .inr (.inl ⟨rfl, _, rfl⟩)
    | true =>
      refine .inr (.inr ⟨rfl, ?_⟩)
      simp only [not_true_eq_false, if_false]
      split
      · exact ⟨_, .inl rfl⟩
      · split
        · exact ⟨_, .inr (.inl rfl)⟩
        · rename_i hlist
          exact ⟨_, .inr (.inr ⟨_, _, hlist, rfl⟩)⟩

theorem uploadTree_cases (s : σ) (localPath remote : QString) :
    ((uploadTree w (fuel + 1) s localPath remote).events = [.canceled] ∧
      (uploadTree w (fuel + 1) s localPath remote).result = some (-1)) ∨
    (∃ t, w.isDir t localPath = false ∧
      uploadTree w (fuel + 1) s localPath remote =
        ⟨(w.upload t localPath remote).1,
          [.item localPath, .upload localPath remote (w.upload t localPath remote).2],
          some (w.upload t localPath remote).2⟩) ∨
    (∃ t, w.isDir t localPath = true ∧
      uploadTree w (fuel + 1) s localPath remote =
        (transferEach w (uploadEntry w fuel localPath remote) (w.makeDir t remote).1
          (w.localEntries (w.makeDir t remote).1 localPath) 0).after
          [.makeDir remote (w.makeDir t remote).2 (w.remoteDir (w.makeDir t remote).1 remote),
            .localEntries localPath (w.localEntries (w.makeDir t remote).1 localPath)]) := by
  simp only [uploadTree]
  split
  · exact .inl ⟨rfl, rfl⟩
  · split
    · rename_i hdir
      exact .inr (.inl ⟨_, Bool.not_eq_true _ ▸ hdir, rfl⟩)
    · rename_i hdir
      exact .inr (.inr ⟨_, not_not.mp hdir, rfl⟩)

end Cases

end Sftp
