import MacXterm.Lib.MachineInt
import MacXterm.Sftp.FtpClient

namespace Sftp.SftpConnection

open Qt

structure DownloadResults where
  session : Bool
  handle : Bool
  opened : Bool
  reads : List Chunk
  -- The result of libssh2_sftp_read after those: 0 at the end of the file, negative for an error.
  last : Int
  onDisk : Nat

def readLoop (last : Int) : List Chunk → Int → QByteArray → Option (Int × QByteArray)
  | [], total, file => if last < 0 then none else some (total, file)
  | chunk :: reads, total, file =>
      if chunk.written ≠ chunk.bytes.length then none
      else readLoop last reads (total + chunk.bytes.length) (file ++ chunk.kept)

def download (r : DownloadResults) : Transfer :=
  if ¬r.session then .failed
  else if ¬r.handle then .failed
  else if ¬r.opened then .failed
  else
    match readLoop r.last r.reads 0 [] with
    | none => .failed
    | some (total, file) => ⟨total, some (file.take r.onDisk)⟩

structure UploadResults where
  session : Bool
  opened : Bool
  data : QByteArray
  handle : Bool
  -- What libssh2_sftp_write returns, call by call; an error after the last.
  writes : List Int

-- The loop of an upload goes on while bytes are left and the last result meets `go`.
def sendLoop (go : Int → Bool) (size : Nat) : List Int → Int → Int → Int × Int
  | [], off, total => (off, total)
  | n :: writes, off, total =>
      if off < size ∧ go n then sendLoop go size writes (int32 (off + n)) (total + n)
      else (off, total)

def writeLoop (size : Nat) (writes : List Int) : Int × Int :=
  sendLoop (fun n => decide (0 < n)) size writes 0 0

def upload (r : UploadResults) : Transfer :=
  if ¬r.session then .failed
  else if ¬r.opened then .failed
  else if ¬r.handle then .failed
  else
    let (off, total) := writeLoop r.data.length r.writes
    if off < r.data.length then .failed else ⟨total, some (r.data.take off.toNat)⟩

structure ScpDownloadResults where
  session : Bool
  channel : Bool
  size : Int
  opened : Bool
  reads : List Chunk
  onDisk : Nat

def scpReadLoop : List Chunk → Int → Int → QByteArray → Int × Int × QByteArray
  | [], remaining, total, file => (remaining, total, file)
  | chunk :: reads, remaining, total, file =>
      if remaining ≤ 0 ∨ chunk.bytes = [] then (remaining, total, file)
      else scpReadLoop reads (remaining - chunk.bytes.length) (total + chunk.bytes.length)
        (file ++ chunk.kept)

def scpDownload (r : ScpDownloadResults) : Transfer :=
  if ¬r.session then .failed
  else if ¬r.channel then .failed
  else if ¬r.opened then .failed
  else
    let (remaining, total, file) := scpReadLoop r.reads r.size 0 []
    if 0 < remaining then .failed else ⟨total, some (file.take r.onDisk)⟩

structure ScpUploadResults where
  session : Bool
  opened : Bool
  data : QByteArray
  channel : Bool
  writes : List Int
  stored : Nat

def scpWriteLoop (size : Nat) (writes : List Int) : Int × Int :=
  sendLoop (fun n => decide (0 ≤ n)) size writes 0 0

def scpUpload (r : ScpUploadResults) : Transfer :=
  if ¬r.session then .failed
  else if ¬r.opened then .failed
  else if ¬r.channel then .failed
  else
    let (off, total) := scpWriteLoop r.data.length r.writes
    if off < r.data.length then .failed else ⟨total, some (r.data.take r.stored)⟩

end Sftp.SftpConnection
