import MacXterm.Qt.ByteArray
import MacXterm.Sftp.RemotePath

namespace Http

open Qt QDir Sftp

def isSpaceByte (b : UInt8) : Bool := b == 0x20 || (0x09 ≤ b && b ≤ 0x0D)

def trimmedBytes (b : QByteArray) : QByteArray :=
  ((b.dropWhile isSpaceByte).reverse.dropWhile isSpaceByte).reverse

def parseRequestPath (requestLine : QByteArray) : QString :=
  match (trimmedBytes requestLine).splitOn 0x20 with
  | verb :: target :: _ =>
      if verb ≠ toUtf8 "GET" then []
      else
        let path := fromUtf8 target
        match path.findIdx? (· == '?') with
        | some q => path.take q
        | none => path
  | _ => []

structure Response where
  code : Nat
  status : QString
  body : QByteArray
  type : QByteArray := toUtf8 "application/octet-stream"
deriving DecidableEq

def Response.bytes (r : Response) : QByteArray :=
  toUtf8 "HTTP/1.1 " ++ toUtf8 (number r.code) ++ toUtf8 " " ++ toUtf8 r.status ++
    toUtf8 "\r\n" ++ toUtf8 "Content-Type: " ++ r.type ++ toUtf8 "\r\n" ++
    toUtf8 "Content-Length: " ++ toUtf8 (number r.body.length) ++ toUtf8 "\r\n" ++
    toUtf8 "Connection: close\r\n\r\n" ++ r.body

structure Files where
  isFile : QString → Bool
  openRead : QString → Option QByteArray

structure HttpServer where
  root : QString

def start (cwd : WorkingDir) (rootDir : QString) : HttpServer := ⟨absoluteFilePath cwd rootDir⟩

structure Answer where
  response : Response
  file : Option QString

def HttpServer.full (s : HttpServer) (cwd : WorkingDir) (path : QString) : QString :=
  absoluteFilePath cwd (s.root ++ '/' :: RemotePath.normalize path)

def HttpServer.handle (s : HttpServer) (cwd : WorkingDir) (files : Files) (req : QByteArray) :
    Answer :=
  let path := parseRequestPath req
  if path = [] then ⟨{ code := 400, status := "Bad Request", body := toUtf8 "bad request" }, none⟩
  else
    let full := s.full cwd path
    if ¬ s.root <+: full ∨ files.isFile full = false then
      ⟨{ code := 404, status := "Not Found", body := toUtf8 "not found",
         type := toUtf8 "text/plain" }, none⟩
    else
      match files.openRead full with
      | none => ⟨{ code := 403, status := "Forbidden", body := toUtf8 "forbidden",
                   type := toUtf8 "text/plain" }, none⟩
      | some body => ⟨{ code := 200, status := "OK", body }, some full⟩

def Served (files : Files) (p : QString) : Prop :=
  files.isFile p = true ∧ (files.openRead p).isSome

-- The target climbs out of the root and comes down again beside it: through the last names of
-- the root, with the very last one extended.
def ClimbsBeside (root path : QString) : Prop :=
  isRooted path = false ∧ ∃ k init last ext rest, 0 < k ∧ segments root = init ++ [last] ∧
    ext ≠ [] ∧ segments path = List.replicate k dotDot ++
      (init.drop (init.length + 1 - k) ++ (last ++ ext) :: rest)

section Resolve

variable {root : List QString} {path : QString} (cwd : WorkingDir)

theorem full_eq (hroot : ∀ s ∈ root, Plain s) (hpath : path ≠ []) :
    HttpServer.full ⟨absolute root⟩ cwd path =
      render true ((segments path).foldl (pushSegment true) root.reverse) := by
  have hne : absolute root ≠ [] := by simp [absolute, render]
  have hrooted : isRooted (absolute root ++ '/' :: RemotePath.normalize path) = true := rfl
  rw [HttpServer.full, absoluteFilePath, if_pos hrooted, cleanPath_append _ _ hne,
    segmentStack_absolute hroot, RemotePath.normalize_eq hpath, cleanPath, if_neg hpath,
    show isRooted (absolute root) = true from rfl,
    foldl_render _ _ _ (segmentStack_canonical path)]
  rfl

theorem full_names (hroot : ∀ s ∈ root, Plain s) (hpath : path ≠ []) :
    ∃ k names, (∀ s ∈ names, Plain s) ∧ (isRooted path = true → k = 0) ∧
      segments path = List.replicate k dotDot ++ names ∧
      HttpServer.full ⟨absolute root⟩ cwd path =
        absolute (root.take (root.length - k) ++ names) := by
  have hrev : ∀ s ∈ root.reverse, Plain s := fun s hs => hroot s (List.mem_reverse.mp hs)
  obtain ⟨hseg, hk, hplain⟩ := segments_climb path
  refine ⟨climb path, descent path, hplain, hk, hseg, ?_⟩
  rw [full_eq cwd hroot hpath, hseg, List.foldl_append, foldl_climb _ _ hrev,
    foldl_plain _ _ _ hplain, absolute, List.reverse_append, List.drop_reverse]

end Resolve

theorem take_climbed {init : List QString} {last : QString} {k : Nat} (hk : 0 < k) :
    (init ++ [last]).take ((init ++ [last]).length - k) = init.take (init.length + 1 - k) := by
  rw [List.length_append, List.length_singleton, List.take_append_of_le_length (by omega)]

theorem beside_iff {root names : List QString} {k : Nat} :
    Beside root (root.take (root.length - k) ++ names) ↔
      0 < k ∧ ∃ init last ext rest, root = init ++ [last] ∧ ext ≠ [] ∧
        names = init.drop (init.length + 1 - k) ++ (last ++ ext) :: rest := by
  constructor
  · rintro ⟨init, last, ext, rest, rfl, hext, hn⟩
    have hk : 0 < k := by
      rcases Nat.eq_zero_or_pos k with rfl | hk
      · rw [Nat.sub_zero, List.take_length, List.append_assoc] at hn
        have hlast : last = last ++ ext := (List.cons.inj (List.append_cancel_left hn)).1
        exact absurd (List.append_right_eq_self.mp hlast.symm) hext
      · exact hk
    refine ⟨hk, init, last, ext, rest, rfl, hext, ?_⟩
    have hinit := List.take_append_drop (init.length + 1 - k) init
    refine (List.append_right_inj (init.take (init.length + 1 - k))).mp ?_
    rw [← take_climbed hk, hn, take_climbed hk, ← List.append_assoc, hinit]
  · rintro ⟨hk, init, last, ext, rest, rfl, hext, rfl⟩
    refine ⟨init, last, ext, rest, rfl, hext, ?_⟩
    rw [take_climbed hk, ← List.append_assoc, List.take_append_drop]

theorem extended_plain {last ext : QString} (h : Plain last) : last ++ ext ≠ dotDot := by
  obtain ⟨-, hne, hdot, hdd⟩ := h
  intro he
  rcases last with _ | ⟨a, _ | ⟨b, last⟩⟩
  · exact hne rfl
  · exact hdot (by rw [(List.cons.inj he).1])
  · simp only [dotDot, List.cons_append, List.cons.injEq, List.append_eq_nil_iff] at he
    obtain ⟨rfl, rfl, rfl, -⟩ := he
    exact hdd rfl

theorem climbsBeside_iff {root names : List QString} {path : QString} {k : Nat}
    (hroot : ∀ s ∈ root, Plain s) (hnames : ∀ s ∈ names, Plain s)
    (hk : isRooted path = true → k = 0) (hseg : segments path = List.replicate k dotDot ++ names) :
    ClimbsBeside (absolute root) path ↔ Beside root (root.take (root.length - k) ++ names) := by
  rw [beside_iff, ClimbsBeside, segments_absolute hroot, hseg]
  constructor
  · rintro ⟨-, j, init, last, ext, rest, hj, rfl, hext, he⟩
    have hhead : (init.drop (init.length + 1 - j) ++ (last ++ ext) :: rest).head? ≠
        some dotDot := by
      cases hd : init.drop (init.length + 1 - j) with
      | nil =>
        intro h
        exact extended_plain (hroot last (by simp)) (Option.some.inj h)
      | cons n more =>
        have hn : n ∈ init := List.mem_of_mem_drop (hd ▸ List.mem_cons_self)
        intro h
        exact (hroot n (by simp [hn])).2.2.2 (Option.some.inj h)
    obtain ⟨rfl, rfl⟩ := climb_unique (head_plain hnames) hhead he
    exact ⟨hj, init, last, ext, rest, rfl, hext, rfl⟩
  · rintro ⟨hpos, init, last, ext, rest, hr, hext, rfl⟩
    refine ⟨?_, k, init, last, ext, rest, hpos, hr, hext, rfl⟩
    cases h : isRooted path with
    | true => exact absurd (hk h) (Nat.ne_of_gt hpos)
    | false => rfl

theorem handle_served {s : HttpServer} {cwd : WorkingDir} {files : Files} {req : QByteArray}
    (hpath : parseRequestPath req ≠ []) (hpre : s.root <+: s.full cwd (parseRequestPath req))
    (h : Served files (s.full cwd (parseRequestPath req))) :
    (s.handle cwd files req).response.code = 200 ∧
      (s.handle cwd files req).file = some (s.full cwd (parseRequestPath req)) := by
  obtain ⟨hfile, hread⟩ := h
  obtain ⟨body, hbody⟩ := Option.isSome_iff_exists.mp hread
  simp [HttpServer.handle, hpath, hpre, hfile, hbody]

theorem handle_ok {s : HttpServer} {cwd : WorkingDir} {files : Files} {req : QByteArray}
    (h : (s.handle cwd files req).response.code = 200) :
    parseRequestPath req ≠ [] ∧ s.root <+: s.full cwd (parseRequestPath req) ∧
      Served files (s.full cwd (parseRequestPath req)) := by
  unfold HttpServer.handle at h
  by_cases hpath : parseRequestPath req = []
  · simp [hpath] at h
  by_cases hpre : s.root <+: s.full cwd (parseRequestPath req)
  · cases hfile : files.isFile (s.full cwd (parseRequestPath req)) with
    | false => simp [hpath, hfile] at h
    | true =>
      cases hread : files.openRead (s.full cwd (parseRequestPath req)) with
      | none => simp [hpath, hpre, hfile, hread] at h
      | some body => exact ⟨hpath, hpre, hfile, by rw [hread]; rfl⟩
  · simp [hpath, hpre] at h

def Confined (s : HttpServer) (cwd : WorkingDir) (files : Files) (req : QByteArray) : Prop :=
  (s.handle cwd files req).response.code = 200 →
    ∃ p, (s.handle cwd files req).file = some p ∧ Below s.root p

theorem confined_iff (cwd now : WorkingDir) (rootDir : QString) (files : Files)
    (hdir : files.isFile (start cwd rootDir).root = false) (req : QByteArray) :
    Confined (start cwd rootDir) now files req ↔
      ¬ (ClimbsBeside (start cwd rootDir).root (parseRequestPath req) ∧
        Served files ((start cwd rootDir).full now (parseRequestPath req))) := by
  obtain ⟨root, hstart, hroot⟩ := absoluteFilePath_eq cwd rootDir
  have hs : start cwd rootDir = ⟨absolute root⟩ := congrArg HttpServer.mk hstart
  rw [hs] at hdir ⊢
  have beside (hpath : parseRequestPath req ≠ []) :
      ∃ names, (∀ s ∈ names, Plain s) ∧
        HttpServer.full ⟨absolute root⟩ now (parseRequestPath req) = absolute names ∧
        (ClimbsBeside (absolute root) (parseRequestPath req) ↔ Beside root names) := by
    obtain ⟨k, names, hnames, hk, hseg, hfull⟩ := full_names now hroot hpath
    refine ⟨root.take (root.length - k) ++ names, ?_, hfull,
      climbsBeside_iff hroot hnames hk hseg⟩
    intro s hs
    rcases List.mem_append.mp hs with hs | hs
    · exact hroot s (List.mem_of_mem_take hs)
    · exact hnames s hs
  constructor
  · rintro hconf ⟨hclimb, hserved⟩
    have hpath : parseRequestPath req ≠ [] := by
      intro hnil
      obtain ⟨-, k, init, last, ext, rest, hpos, -, -, hseg⟩ := hclimb
      rw [hnil, show segments [] = [] from rfl] at hseg
      have hlength : 0 = k + ((init.drop (init.length + 1 - k)).length + (rest.length + 1)) := by
        simpa using congrArg List.length hseg
      omega
    obtain ⟨names, hnames, hfull, hiff⟩ := beside hpath
    have hbeside := hiff.mp hclimb
    have hpre := (prefix_cases hroot hnames).mpr (.inr (.inr hbeside))
    rw [← hfull] at hpre
    obtain ⟨hcode, hfile⟩ := handle_served (s := ⟨absolute root⟩) hpath hpre hserved
    obtain ⟨p, hp, hbelow⟩ := hconf hcode
    rw [hfile] at hp
    obtain rfl := Option.some.inj hp
    rw [hfull] at hbelow
    exact beside_not_below hroot hnames hbeside hbelow
  · intro hno hcode
    obtain ⟨hpath, hpre, hserved⟩ := handle_ok hcode
    obtain ⟨names, hnames, hfull, hiff⟩ := beside hpath
    refine ⟨_, (handle_served hpath hpre hserved).2, ?_⟩
    rw [hfull] at hpre hserved ⊢
    rcases (prefix_cases hroot hnames).mp hpre with rfl | h | h
    · exact absurd (hserved.1.symm.trans hdir) (by decide)
    · exact h
    · exact absurd ⟨hiff.mpr h, hfull ▸ hserved⟩ hno

def servedFile (path : QString) : Files := ⟨fun p => p == path, fun _ => some [1]⟩

def srv : HttpServer := start ⟨"/".toList, rfl⟩ "/srv"

theorem confined_subdirectory :
    (srv.handle ⟨"/".toList, rfl⟩ (servedFile "/srv/a.txt")
      (toUtf8 "GET /a.txt HTTP/1.1\r\n")).response.code = 200 ∧
    Confined srv ⟨"/".toList, rfl⟩ (servedFile "/srv/a.txt")
      (toUtf8 "GET /a.txt HTTP/1.1\r\n") :=
  ⟨by decide +kernel, (confined_iff _ _ _ _ (by decide +kernel) _).mpr fun h =>
    absurd h.1.1 (by decide +kernel)⟩

theorem sibling_served :
    ¬ Confined srv ⟨"/".toList, rfl⟩ (servedFile "/srv-old/key")
      (toUtf8 "GET ../srv-old/key HTTP/1.1\r\n") := by
  intro h
  have hfile : (srv.handle ⟨"/".toList, rfl⟩ (servedFile "/srv-old/key")
      (toUtf8 "GET ../srv-old/key HTTP/1.1\r\n")).file = some "/srv-old/key".toList := by
    decide +kernel
  obtain ⟨p, hp, -, hbelow⟩ := h (by decide +kernel)
  rw [hfile] at hp
  obtain rfl := Option.some.inj hp
  exact absurd hbelow (by decide +kernel)

end Http
