import MacXterm.Sftp.RemoteTransfer
import Mathlib.Data.List.Perm.Basic

namespace Sftp

open Qt

-- `nameLess` is QString::compare without regard to case.
variable (nameLess : QString → QString → Bool)

def entryLess (a b : SftpEntry) : Bool :=
  if a.name = ['.', '.'] then b.name ≠ ['.', '.']
  else if b.name = ['.', '.'] then false
  else if a.isDir ≠ b.isDir then a.isDir
  else nameLess a.name b.name

def sortListing (entries : List SftpEntry) : List SftpEntry :=
  entries.mergeSort fun a b => !entryLess nameLess b a

theorem sortListing_perm (entries : List SftpEntry) :
    (sortListing nameLess entries).Perm entries := List.mergeSort_perm _ _

namespace SftpConnection

structure Attributes where
  flags : UInt32
  filesize : UInt64
  permissions : UInt32
  mtime : UInt32

-- The name and the attributes that one libssh2_sftp_readdir gives.
structure Record where
  name : QByteArray
  attrs : Attributes

def attrSize : UInt32 := 1
def attrPermissions : UInt32 := 4
def attrAcmodtime : UInt32 := 8

def entry (r : Record) : SftpEntry where
  name := fromUtf8 r.name
  size := if r.attrs.flags &&& attrSize ≠ 0 then r.attrs.filesize else 0
  isDir := r.attrs.flags &&& attrPermissions ≠ 0 && r.attrs.permissions &&& 0o170000 == 0o040000
  permissions :=
    if r.attrs.flags &&& attrPermissions ≠ 0 then r.attrs.permissions &&& 0o777 else 0
  mtime := if r.attrs.flags &&& attrAcmodtime ≠ 0 then r.attrs.mtime.toUInt64.toInt64 else 0

structure ListResults where
  session : Bool
  handle : Bool
  reads : List Record
  -- The result of libssh2_sftp_readdir after those: 0 at the end, negative for an error.
  last : Int

-- The result that ended the loop is not looked at.
def list (r : ListResults) : Option (List SftpEntry) :=
  if ¬r.session then none
  else if ¬r.handle then none
  else some (sortListing nameLess ((r.reads.map entry).filter fun e => e.name != ['.']))

end SftpConnection

namespace FtpClient

-- What `\s` of QRegularExpression matches.
def regexSpace (c : Char) : Bool :=
  c == ' ' || c == '\t' || c == '\n' || c == '\x0b' || c == '\x0c' || c == '\r'

def fields (line : QString) : List QString := (line.splitOnP regexSpace).filter (· ≠ [])

-- What follows the eighth run of blanks.
def afterFields (field : Nat) (blank : Bool) : QString → Option QString
  | [] => none
  | c :: cs =>
      if c = ' ' ∧ ¬blank then
        if field + 1 = 8 then some cs else afterFields (field + 1) true cs
      else afterFields field (c == ' ') cs

def modeBits (perms : QString) : UInt32 :=
  (List.range 9).foldl (fun mode i =>
    if (units perms)[i + 1]? = some '-'.toNat then mode else mode ||| (1 <<< (8 - i.toUInt32))) 0

def parseLine (raw : QByteArray) : Option SftpEntry :=
  let line := trimmed (fromUtf8 raw)
  let f := fields line
  let perms := f.headD []
  if f.length < 9 then none
  else if (units perms).length < 10 then none
  else
    let name := trimmed ((afterFields 0 false line).getD line)
    if name = [] ∨ name = ['.'] ∨ name = ['.', '.'] then none
    else some ⟨name, toULongLong (f.getD 4 []), perms.head? == some 'd', modeBits perms, 0⟩

def parseFtpList (listing : QByteArray) : List SftpEntry :=
  sortListing nameLess ((listing.splitOn 0x0A).filterMap parseLine)

structure ListResults where
  ready : Bool
  pasv : Bool
  list : Nat
  -- As in a download: none where waitForReadyRead times out.
  turns : List (Option QByteArray)
  tail : QByteArray
  reply : Nat

def listBody : List (Option QByteArray) → QByteArray → QByteArray
  | [], body => body
  | none :: _, body => body
  | some chunk :: turns, body => listBody turns (body ++ chunk)

def list (r : ListResults) : Option (List SftpEntry) :=
  if ¬r.ready then none
  else if ¬r.pasv then none
  else if r.list ≠ 150 ∧ r.list ≠ 125 then none
  else some (parseFtpList nameLess (listBody r.turns [] ++ r.tail))

end FtpClient

end Sftp
