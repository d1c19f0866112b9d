import MacXterm.Qt.PathGuard
import MacXterm.Tools.Ftp.Server
import MacXterm.Tools.Nfs.Server
import MacXterm.Tools.SshServer

namespace Tools

open Qt QDir Nfs Ftp

-- No path belongs to a handle that the server does not know; its directory is empty.
def childPath (dir name : QString) : Option QString :=
  if dir = [] then none else some (cleanPath (filePath dir name))

def rootedPath (root : QString) (path : QByteArray) : QString :=
  let p := fromUtf8 path
  cleanPath (root ++ if p.head? = some '/' then p else '/' :: p)

theorem cleanPath_ne_nil {p : QString} (h : p ≠ []) : cleanPath p ≠ [] := by
  rw [cleanPath, if_neg h]
  exact render_ne_nil _ _ (segmentStack_canonical p)

theorem childWithin_eq (s : NfsServer) {dir : QString} (hdir : dir ≠ []) (name : QString) :
    s.childWithin dir name =
      if Inside s.exportDir (cleanPath (filePath dir name)) then cleanPath (filePath dir name)
      else [] := if_neg hdir

theorem resolveRooted_eq (root : QString) (path : QByteArray) :
    SshServer.resolveRooted root path =
      if Inside root (rootedPath root path) then rootedPath root path else [] := by
  by_cases hin : Inside root (rootedPath root path)
  · rw [if_pos hin]
    exact if_neg fun h => hin.elim h.1 h.2
  · rw [if_neg hin]
    exact if_pos (not_or.mp hin)

theorem rootedPath_ne_nil (root : QString) (path : QByteArray) : rootedPath root path ≠ [] := by
  refine cleanPath_ne_nil (List.append_ne_nil_of_right_ne_nil root ?_)
  split
  · rename_i h
    rintro hnil
    rw [hnil] at h
    cases h
  · exact List.cons_ne_nil _ _

theorem nfs_guard_iff (s : NfsServer) (hroot : cleanPath s.exportDir = s.exportDir)
    (dir name : QString) :
    GuardExact s.exportDir (childPath dir name) (s.childWithin dir name) [] ↔
      ∀ p, childPath dir name = some p → ¬ Blind s.exportDir p := by
  by_cases hdir : dir = []
  · subst hdir
    exact iff_of_true ⟨nofun, fun _ => rfl⟩ nofun
  · have hchild : childPath dir name = some (cleanPath (filePath dir name)) := if_neg hdir
    rw [hchild, childWithin_eq s hdir, guard_exact_iff hroot (cleanPath_ne_nil filePath_ne_nil)
      (cleanPath_cleanPath _) (.inl rfl)]
    simp

theorem ssh_guard_iff {root : QString} (hroot : cleanPath root = root) (path : QByteArray) :
    GuardExact root (some (rootedPath root path)) (SshServer.resolveRooted root path) [] ↔
      ¬ Blind root (rootedPath root path) := by
  rw [resolveRooted_eq]
  exact guard_exact_iff hroot (rootedPath_ne_nil root path) (cleanPath_cleanPath _) (.inl rfl)

theorem ftp_guard_iff (s : FtpServer) (conn : Conn) (arg : QString) :
    GuardExact s.rootAbs (some (s.absolute conn arg)) (s.resolve conn arg) s.rootAbs ↔
      ¬ Blind s.rootAbs (s.absolute conn arg) := by
  have hne : s.absolute conn arg ≠ [] := by
    refine cleanPath_ne_nil (List.append_ne_nil_of_right_ne_nil _ (List.cons_ne_nil _ _))
  exact guard_exact_iff (cleanPath_cleanPath _) hne (cleanPath_cleanPath _) (.inr rfl)

theorem path_guards_exact_iff (root : QString) (nfs : NfsServer) (dir name : QString)
    (path : QByteArray) (ftp : FtpServer) (conn : Conn) (arg : QString) :
    (GuardExact (cleanPath root) (childPath dir name)
        ({ nfs with exportDir := cleanPath root }.childWithin dir name) [] ↔
      ∀ p, childPath dir name = some p → ¬ Blind (cleanPath root) p) ∧
    (GuardExact (cleanPath root) (some (rootedPath (cleanPath root) path))
        (SshServer.resolveRooted (cleanPath root) path) [] ↔
      ¬ Blind (cleanPath root) (rootedPath (cleanPath root) path)) ∧
    (GuardExact ftp.rootAbs (some (ftp.absolute conn arg)) (ftp.resolve conn arg) ftp.rootAbs ↔
      ¬ Blind ftp.rootAbs (ftp.absolute conn arg)) :=
  ⟨nfs_guard_iff { nfs with exportDir := cleanPath root } (cleanPath_cleanPath root) dir name,
    ssh_guard_iff (cleanPath_cleanPath root) path, ftp_guard_iff ftp conn arg⟩

theorem slash_root_serves_nothing :
    ¬ GuardExact ['/'] (childPath ['/'] "etc")
      ((NfsServer.start ['/'] 2049).childWithin ['/'] "etc") [] ∧
    ¬ GuardExact ['/'] (some (rootedPath ['/'] (toUtf8 "/etc")))
      (SshServer.resolveRooted ['/'] (toUtf8 "/etc")) [] ∧
    ¬ GuardExact ['/'] (some (FtpServer.absolute ⟨['/'], [], []⟩ .initial "etc"))
      (FtpServer.resolve ⟨['/'], [], []⟩ .initial "etc") ['/'] := by
  have hplain : Plain "etc" := ⟨by decide, by decide, by decide, by decide⟩
  have hbelow : AtOrBelow ['/'] "/etc" :=
    ⟨by decide, ["etc"], by decide, fun s hs => List.mem_singleton.mp hs ▸ hplain⟩
  refine ⟨?_, ?_, ?_⟩
  · intro h
    exact absurd (h.accepts "/etc" (by decide) hbelow) (by decide)
  · intro h
    exact absurd (h.accepts "/etc" (by decide) hbelow) (by decide)
  · intro h
    exact absurd (h.accepts "/etc" (by decide) hbelow) (by decide)

end Tools
