import MacXterm.Qt.ByteArray

namespace Connect

open Qt

namespace Xdmcp

def Query : UInt16 := 2
def Willing : UInt16 := 5
def Request : UInt16 := 7
def Accept : UInt16 := 8
def Decline : UInt16 := 9
def Refuse : UInt16 := 11
def Failed : UInt16 := 12

def kVersion : UInt16 := 1

structure Header where
  version : UInt16 := 0
  opcode : UInt16 := 0
  length : UInt16 := 0
  valid : Bool := false

def putArray8 (a : QByteArray) : QByteArray := UInt8.ofNat a.length :: a

def parseHeader (buf : QByteArray) : Header :=
  if buf.length < 6 then {}
  else ⟨rd16be buf 0, rd16be buf 2, rd16be buf 4, true⟩

def packet (opcode : UInt16) (body : QByteArray) : QByteArray :=
  BigEndian.bytes16 kVersion ++ BigEndian.bytes16 opcode ++
    BigEndian.bytes16 (UInt16.ofNat body.length) ++ body

def encodeQuery (authNames : List QByteArray) : QByteArray :=
  packet Query (UInt8.ofNat authNames.length :: authNames.flatMap putArray8)

structure RequestParams where
  displayNumber : UInt16 := 0
  connectionTypes : List UInt16 := []
  connectionAddresses : List QByteArray := []
  authenticationName : QByteArray := []
  authenticationData : QByteArray := []
  authorizationNames : List QByteArray := []
  manufacturerDisplayID : QByteArray := []

def encodeRequest (p : RequestParams) : QByteArray :=
  packet Request <|
    BigEndian.bytes16 p.displayNumber ++
      UInt8.ofNat p.connectionTypes.length :: p.connectionTypes.flatMap BigEndian.bytes16 ++
      UInt8.ofNat p.connectionAddresses.length :: p.connectionAddresses.flatMap putArray8 ++
      putArray8 p.authenticationName ++ putArray8 p.authenticationData ++
      UInt8.ofNat p.authorizationNames.length :: p.authorizationNames.flatMap putArray8 ++
      putArray8 p.manufacturerDisplayID

-- The field at off and the offset behind it.
def readArray8 (buf : QByteArray) (off : Nat) : Option (QByteArray × Nat) :=
  if buf.length < off + 1 then none
  else
    let len := (byteAt buf off).toNat
    if buf.length < off + 1 + len then none
    else some (mid buf (off + 1 : Nat) len, off + 1 + len)

structure WillingInfo where
  authenticationName : QByteArray := []
  hostname : QByteArray := []
  status : QByteArray := []
  valid : Bool := false

def parseWilling (buf : QByteArray) : WillingInfo :=
  let h := parseHeader buf
  if !h.valid || h.opcode != Willing then {}
  else
    match readArray8 buf 6 with
    | none => {}
    | some (authenticationName, off) =>
        match readArray8 buf off with
        | none => { authenticationName }
        | some (hostname, off) =>
            match readArray8 buf off with
            | none => { authenticationName, hostname }
            | some (status, _) => ⟨authenticationName, hostname, status, true⟩

structure AcceptInfo where
  sessionId : UInt32 := 0
  authenticationName : QByteArray := []
  authenticationData : QByteArray := []
  authorizationName : QByteArray := []
  authorizationData : QByteArray := []
  valid : Bool := false

def parseAccept (buf : QByteArray) : AcceptInfo :=
  let h := parseHeader buf
  if !h.valid || h.opcode != Accept then {}
  else if buf.length < 6 + 4 then {}
  else
    let sessionId := rd32be buf 6
    match readArray8 buf 10 with
    | none => { sessionId }
    | some (authenticationName, off) =>
        match readArray8 buf off with
        | none => { sessionId, authenticationName }
        | some (authenticationData, off) =>
            match readArray8 buf off with
            | none => { sessionId, authenticationName, authenticationData }
            | some (authorizationName, off) =>
                match readArray8 buf off with
                | none =>
                    { sessionId, authenticationName, authenticationData, authorizationName }
                | some (authorizationData, _) =>
                    ⟨sessionId, authenticationName, authenticationData, authorizationName,
                      authorizationData, true⟩

def isRejection (opcode : UInt16) : Bool :=
  opcode == Decline || opcode == Refuse || opcode == Failed

theorem parseHeader_packet (opcode : UInt16) (body : QByteArray) :
    parseHeader (packet opcode body) =
      ⟨kVersion, opcode, UInt16.ofNat body.length, true⟩ := by
  have hlength : ¬ (packet opcode body).length < 6 := by
    simp only [packet, List.length_append, BigEndian.length_bytes16]
    omega
  have hversion : rd16be (packet opcode body) 0 = kVersion := by
    simp only [packet, List.append_assoc]
    exact rd16be_bytes16 kVersion _
  have hopcode : rd16be (packet opcode body) 2 = opcode := by
    simp only [packet, List.append_assoc]
    exact (rd16be_append_right (BigEndian.bytes16 kVersion) _ 0).trans (rd16be_bytes16 opcode _)
  have hcount : rd16be (packet opcode body) 4 = UInt16.ofNat body.length := by
    rw [packet, List.append_assoc]
    exact (rd16be_append_right (BigEndian.bytes16 kVersion ++ BigEndian.bytes16 opcode) _ 0).trans
      (rd16be_bytes16 _ body)
  rw [parseHeader, if_neg hlength, hversion, hopcode, hcount]

theorem header_of_willing {buf : QByteArray} (h : (parseWilling buf).valid = true) :
    (parseHeader buf).valid = true ∧ (parseHeader buf).opcode = Willing := by
  by_contra hno
  have hreject : (!(parseHeader buf).valid || (parseHeader buf).opcode != Willing) = true := by
    cases hvalid : (parseHeader buf).valid
    · rfl
    · simpa [hvalid] using hno
  rw [parseWilling, if_pos hreject] at h
  cases h

theorem header_of_accept {buf : QByteArray} (h : (parseAccept buf).valid = true) :
    (parseHeader buf).valid = true ∧ (parseHeader buf).opcode = Accept := by
  by_contra hno
  have hreject : (!(parseHeader buf).valid || (parseHeader buf).opcode != Accept) = true := by
    cases hvalid : (parseHeader buf).valid
    · rfl
    · simpa [hvalid] using hno
  rw [parseAccept, if_pos hreject] at h
  cases h

end Xdmcp

end Connect
