import MacXterm.Core.Session
import MacXterm.Qt.Number

namespace Core

open Qt

inductive Reading where
  | text (t : QString)
  | words (ws : List QString)
  | flag (b : Bool)
  | number (n : Int)
  | override (n : Option Int)
  | size (wh : Option (Int × Int))
  deriving DecidableEq

-- How the code that consumes a parameter reads it; text carries the default of the param call.
inductive Use where
  | text (fallback : QString)
  | words
  | on
  | off
  | keepalive
  | fontSize
  | scrollback
  | backspace
  | baud
  | dataBits
  | parity
  | stopBits
  | flow
  deriving DecidableEq

namespace SerialConnection

-- The characters whose full lower case holds an ASCII letter, beside the ASCII ones.
def lowerChar (c : Char) : QString :=
  match c with
  | 'İ' => ['i', '\u0307']
  | '\u212A' => ['k']
  | c => [c.toLower]

def toLower (s : QString) : QString := s.flatMap lowerChar

def baud (param : QString) : Int :=
  match toInt param with
  | some b => if 0 < b then b else 9600
  | none => 9600

def dataBits (param : QString) : Int :=
  match (toInt param).getD 0 with
  | 5 => 5
  | 6 => 6
  | 7 => 7
  | _ => 8

def parity (param : QString) : QString :=
  if toLower param = "even".toList then "Even"
  else if toLower param = "odd".toList then "Odd"
  else "No"

def flow (param : QString) : QString :=
  if toLower param = "hardware".toList ∨ toLower param = "rtscts".toList then "Hardware"
  else if toLower param = "software".toList ∨ toLower param = "xonxoff".toList then "Software"
  else "No"

end SerialConnection

def Use.read : Use → Option QString → Reading
  | text fallback, v => .text (v.getD fallback)
  | words, v => .words (((v.getD []).splitOn ' ').filter (· ≠ []))
  | on, v => .flag (v.getD "1" ≠ "0".toList)
  | off, v => .flag (v.getD [] = "1".toList)
  | keepalive, v => .override ((toInt (v.getD [])).filter (0 < ·))
  | fontSize, v => .override ((variantToInt (v.getD [])).filter (0 < ·))
  | scrollback, v => .override ((variantToInt (v.getD [])).filter (0 ≤ ·))
  | backspace, v => .flag (v.getD [] = "ctrl-h".toList)
  | baud, v => .number (SerialConnection.baud (v.getD []))
  | dataBits, v => .number (SerialConnection.dataBits (v.getD "8"))
  | parity, v => .text (SerialConnection.parity (v.getD "none"))
  | stopBits, v => .flag (v.getD "1" = "2".toList)
  | flow, v => .text (SerialConnection.flow (v.getD "none"))

def uses : QHash QString Use :=
  [("x11", .on), ("redirect_clipboard", .on), ("nla", .on), ("clipboard", .on), ("loginshell", .on),
    ("compression", .off), ("agent", .off), ("agentforward", .off), ("stayopen", .off),
    ("redirect_drives", .off), ("redirect_audio", .off), ("ignorecert", .off),
    ("viewonly", .off), ("admin", .off), ("drives", .off), ("redirect_printers", .off),
    ("redirect_smartcard", .off), ("remotefx", .off), ("keepalive", .keepalive),
    ("term.fontSize", .fontSize), ("term.scrollback", .scrollback),
    ("term.backspace", .backspace), ("baud", .baud), ("databits", .dataBits),
    ("parity", .parity), ("stopbits", .stopBits), ("flow", .flow), ("shellargs", .words),
    ("region", .text "us-east-1")]

def defaultPort (t : SessionType) : Int := (⟨[], t, .empty⟩ : Session).port

theorem defaultPort_bounds (t : SessionType) : 0 ≤ defaultPort t ∧ defaultPort t < 65535 := by
  cases t <;> decide

def useOf (k : QString) : Use := uses.value k (.text [])

namespace Session

def desktopSize (s : Session) : Option (Int × Int) :=
  let w := (toInt (s.param "width")).getD 0
  let h := (toInt (s.param "height")).getD 0
  if 0 < w ∧ 0 < h then some (w, h) else none

def reading (s : Session) (k : QString) : Reading :=
  if k = "port".toList then if s.type = .serial then .text (s.param "port") else .number s.port
  else if k = "width".toList ∨ k = "height".toList then .size s.desktopSize
  else if k = "localuser".toList then .text (s.params.value "localuser" s.username)
  else (useOf k).read (s.params.find k)

def without (s : Session) (k : QString) : Session := { s with params := s.params.remove k }

def ReadsAbsent (s : Session) (k : QString) : Prop := s.reading k = (s.without k).reading k

structure Same (s t : Session) : Prop where
  name : s.name = t.name
  type : s.type = t.type
  params : ∀ k, s.reading k = t.reading k

theorem port_eq (s : Session) : s.port = (toInt (s.param "port")).getD (defaultPort s.type) := by
  obtain ⟨name, type, params⟩ := s
  unfold Session.port
  split
  · rename_i h
    rw [h]
    rfl
  · rename_i h
    rw [h]
    rfl

theorem reading_of_use (s : Session) {k : QString} (hport : k ≠ "port".toList)
    (hsize : ¬(k = "width".toList ∨ k = "height".toList)) (huser : k ≠ "localuser".toList) :
    s.reading k = (useOf k).read (s.params.find k) := by
  rw [Session.reading, if_neg hport, if_neg hsize, if_neg huser]

theorem reading_port (s : Session) : s.reading "port" =
    if s.type = .serial then .text (s.param "port") else .number s.port := if_pos rfl

theorem reading_size (s : Session) {k : QString} (h : k = "width".toList ∨ k = "height".toList) :
    s.reading k = .size s.desktopSize := by
  have hport : k ≠ "port".toList := by rcases h with rfl | rfl <;> decide
  rw [Session.reading, if_neg hport, if_pos h]

theorem reading_username (s : Session) : s.reading "username" = .text s.username := by
  have huse : useOf "username" = .text [] := by decide
  rw [reading_of_use s (by decide) (by decide) (by decide), huse]
  rfl

theorem username_eq_iff (s t : Session) :
    t.username = s.username ↔ t.reading "username" = s.reading "username" := by
  rw [reading_username, reading_username, Reading.text.injEq]

theorem desktopSize_empty {s : Session} (h : ¬(s.param "width" ≠ [] ∧ s.param "height" ≠ [])) :
    s.desktopSize = none := by
  rw [Session.desktopSize, if_neg]
  rintro ⟨hwidth, hheight⟩
  refine h ⟨?_, ?_⟩ <;> intro hnil
  · rw [hnil, toInt_nil] at hwidth
    exact absurd hwidth (by decide)
  · rw [hnil, toInt_nil] at hheight
    exact absurd hheight (by decide)

theorem desktopSize_of_find {t : Session} {k : QString}
    (h : k = "width".toList ∨ k = "height".toList)
    (hnone : t.params.find k = none) : t.desktopSize = none := by
  refine desktopSize_empty fun hfull => ?_
  rcases h with rfl | rfl
  · exact hfull.1 (by rw [Session.param_eq, hnone]; rfl)
  · exact hfull.2 (by rw [Session.param_eq, hnone]; rfl)

theorem reading_absent {s t : Session} {k : QString} (hport : k ≠ "port".toList)
    (huser : t.username = s.username) (hnone : t.params.find k = none) :
    t.reading k = (s.without k).reading k := by
  have hwithout : (s.without k).params.find k = none := by simp [Session.without]
  by_cases hsize : k = "width".toList ∨ k = "height".toList
  · rw [reading_size _ hsize, reading_size _ hsize, desktopSize_of_find hsize hnone,
      desktopSize_of_find hsize hwithout]
  · by_cases hlocal : k = "localuser".toList
    · subst hlocal
      have hname : (s.without "localuser").username = s.username := by
        rw [Session.username, Session.param_eq, Session.without, QMap.find_remove,
          if_neg (by decide)]
        rfl
      rw [Session.reading, Session.reading, if_neg hport, if_neg hport, if_neg hsize, if_neg hsize,
        if_pos rfl, if_pos rfl, QMap.value, QMap.value, hnone, hwithout, huser, hname]
    · rw [reading_of_use _ hport hsize hlocal, reading_of_use _ hport hsize hlocal, hnone, hwithout]

end Session

end Core
