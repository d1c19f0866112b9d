import MacXterm.Lib.Lines
import MacXterm.Qt.Number

namespace Sftp

open Qt

-- Bytes that came in, and what QFile::write returned for them.
structure Chunk where
  bytes : QByteArray
  written : Int
deriving DecidableEq

def Chunk.kept (c : Chunk) : QByteArray := c.bytes.take c.written.toNat

structure Transfer where
  ret : Int
  dest : Option QByteArray
deriving DecidableEq

def Transfer.failed : Transfer := ⟨-1, none⟩

namespace FtpClient

structure DownloadResults where
  ready : Bool
  pasv : Bool
  retr : Nat
  opened : Bool
  -- One entry a turn of the loop, none where waitForReadyRead times out; the connection is closed
  -- after the last.
  turns : List (Option Chunk)
  tail : Chunk
  reply : Nat
  -- How many of the accepted bytes are on the disk once the file is closed.
  onDisk : Nat

def readLoop : List (Option Chunk) → Int → QByteArray → Int × QByteArray
  | [], total, file => (total, file)
  | none :: _, total, file => (total, file)
  | some chunk :: turns, total, file =>
      readLoop turns (total + chunk.bytes.length) (file ++ chunk.kept)

-- Neither what `write` returns nor the last reply is looked at.
def download (r : DownloadResults) : Transfer :=
  if ¬r.ready then .failed
  else if ¬r.pasv then .failed
  else if r.retr / 100 ≠ 1 then .failed
  else if ¬r.opened then .failed
  else
    let (total, file) := readLoop r.turns 0 []
    ⟨total + r.tail.bytes.length, some ((file ++ r.tail.kept).take r.onDisk)⟩

structure UploadResults where
  ready : Bool
  opened : Bool
  pasv : Bool
  stor : Nat
  body : QByteArray
  -- How many bytes of the body the server has stored.
  stored : Nat
  reply : Nat

def upload (r : UploadResults) : Transfer :=
  if ¬r.ready then .failed
  else if ¬r.opened then .failed
  else if ¬r.pasv then .failed
  else if r.stor / 100 ≠ 1 then .failed
  else ⟨r.body.length, some (r.body.take r.stored)⟩

-- QChar::isDigit; which characters beyond ASCII are digits is left open.
def isDigit (wide : Char → Bool) (c : Char) : Bool := c.isDigit || (0x80 ≤ c.toNat && wide c)

def lineFeed : UInt8 := 10

-- The text so far and the code captured; a reply once a line ends the block.
def replyLine (wide : Char → Bool) (s : QString × Int) (raw : QByteArray) :
    (QString × Int) ⊕ (Int × QString) :=
  let line := fromUtf8 raw
  let acc := s.1 ++ line
  let hasCode := 3 ≤ line.length ∧ (line.take 3).all (isDigit wide) = true
  let n := (toInt (line.take 3)).getD 0
  let code := if hasCode ∧ s.2 = 0 then n else s.2
  if hasCode ∧ (line)[3]? = some ' ' ∧ n = code then .inr (code, trimmed acc) else .inl (acc, code)

def readReply (wide : Char → Bool) (ctrl : Lines.Source UInt8) :
    (Int × QString) × Lines.Source UInt8 :=
  match Lines.read lineFeed (replyLine wide) ([], 0) ctrl.buffer ctrl.arrivals with
  | (.inr r, ctrl) => (r, ctrl)
  | (.inl (acc, code), ctrl) => ((code, trimmed acc), ctrl)

-- What sendCmd writes before it reads the reply.
def command (verb arg : QString) : QByteArray :=
  toUtf8 verb ++ (if arg = [] then [] else toUtf8 (' ' :: arg)) ++ toUtf8 ['\r', '\n']

end FtpClient

end Sftp
