import Mathlib.Data.List.TakeWhile
import MacXterm.Core.LoadTree

namespace Core

open Qt

-- The keys of a QMap are in the order that `keys.sort()` gives.
def fieldTexts (s : Session) : List QString :=
  sessionTypeToString s.type :: s.params.entries.map fun e => e.1 ++ '=' :: e.2

def joinFields (kv : List QString) : QString := [';'].intercalate kv

mutual

def collect (path : QString) : SessionFolder → QByteArray
  | ⟨name, folders, sessions⟩ =>
      let header := if path = [] then name else path
      toUtf8 "[Folder=" ++ toUtf8 header ++ toUtf8 "]\n" ++
        (sessions.flatMap fun s =>
          toUtf8 s.name ++ toUtf8 "=" ++ toUtf8 (joinFields (fieldTexts s)) ++ toUtf8 "\n") ++
        collectAll header folders

def collectAll (header : QString) : List SessionFolder → QByteArray
  | [] => []
  | sub :: rest => collect (header ++ '/' :: sub.name) sub ++ collectAll header rest

end

def serialize (root : SessionFolder) : QByteArray := collect [] root

-- The first folder of the name is changed; where there is none, a new one is added.
def updateChild (name : QString) (change : SessionFolder → SessionFolder) :
    List SessionFolder → List SessionFolder
  | [] => [change ⟨name, [], []⟩]
  | f :: fs => if f.name = name then change f :: fs else f :: updateChild name change fs

def modifyAt (change : SessionFolder → SessionFolder) : List QString → SessionFolder → SessionFolder
  | [], f => change f
  | part :: parts, f => { f with folders := updateChild part (modifyAt change parts) f.folders }

def pathParts (rootName fullPath : QString) : List QString :=
  let parts := (fullPath.splitOn '/').filter (· ≠ [])
  if parts.head? = some rootName then parts.tail else parts

def ensurePath (root : SessionFolder) (parts : List QString) : SessionFolder :=
  modifyAt id parts root

-- What is before and after the first '='; none where nothing is before it.
def cutAtEquals (s : QString) : Option (QString × QString) :=
  match s.dropWhile (· != '=') with
  | [] => none
  | _ :: rest =>
      if s.takeWhile (· != '=') = [] then none else some (s.takeWhile (· != '='), rest)

def readField (s : Session) (field : QString) : Session :=
  match cutAtEquals field with
  | some (key, value) => s.setParam key value
  | none => s

inductive Line
  | skip
  | folder (path : QString)
  | session (s : Session)

def readLine (line : QString) : Line :=
  let line := trimmed line
  if line = [] ∨ line.head? = some '#' then .skip
  else if "[Folder=".toList.isPrefixOf line ∧ line.getLast? = some ']' then
    .folder ((line.drop 8).take (line.length - 9))
  else
    match cutAtEquals line with
    | none => .skip
    | some (name, rest) =>
        match rest.splitOn ';' with
        | [] => .skip
        | type :: fields =>
            .session (fields.foldl readField ⟨name, sessionTypeFromString type, .empty⟩)

-- `cur` is the path of the folder that the pointer of the source points to.
structure Reader where
  root : SessionFolder
  cur : List QString

def Reader.line (r : Reader) (line : QString) : Reader :=
  match readLine line with
  | .skip => r
  | .folder path =>
      let parts := pathParts r.root.name path
      ⟨ensurePath r.root parts, parts⟩
  | .session s => { r with root := modifyAt (·.addSession s) r.cur r.root }

def deserialize (data : QByteArray) : SessionFolder :=
  (((fromUtf8 data).splitOn '\n').foldl Reader.line ⟨⟨"Sessions", [], []⟩, []⟩).root

def sessionText (s : Session) : QString := s.name ++ '=' :: joinFields (fieldTexts s)

def headerText (header : QString) : QString := "[Folder=" ++ header ++ "]".toList

theorem span_equals {key : QString} (h : '=' ∉ key) (value : QString) :
    (key ++ '=' :: value).takeWhile (· != '=') = key ∧
      (key ++ '=' :: value).dropWhile (· != '=') = '=' :: value := by
  have hall : ∀ c ∈ key, (c != '=') = true := by
    intro c hc
    rw [bne_iff_ne]
    rintro rfl
    exact h hc
  rw [List.takeWhile_append_of_pos hall, List.dropWhile_append_of_pos hall]
  simp

theorem cutAtEquals_text {key : QString} (hne : key ≠ []) (h : '=' ∉ key) (value : QString) :
    cutAtEquals (key ++ '=' :: value) = some (key, value) := by
  obtain ⟨htake, hdrop⟩ := span_equals h value
  simp [cutAtEquals, htake, hdrop, hne]

theorem mem_cutAtEquals {s key value : QString} (h : cutAtEquals s = some (key, value)) :
    key ≠ [] ∧ '=' ∉ key ∧ s = key ++ '=' :: value := by
  have happ := List.takeWhile_append_dropWhile (p := (· != '=')) (l := s)
  simp only [cutAtEquals] at h
  split at h
  · cases h
  · rename_i c rest hd
    split at h
    · cases h
    · rename_i hne
      obtain ⟨rfl, rfl⟩ := Prod.mk.inj (Option.some.inj h)
      have hc : c = '=' := by
        have := List.head?_dropWhile_not (· != '=') s
        rw [hd] at this
        simpa using this
      rw [hd, hc] at happ
      refine ⟨hne, fun hmem => ?_, happ.symm⟩
      simpa using List.mem_takeWhile_imp hmem

end Core
