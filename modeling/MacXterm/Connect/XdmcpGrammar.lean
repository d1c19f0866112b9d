import MacXterm.Connect.XdmcpProtocol
import MacXterm.Lib.Counted

namespace Connect.Xdmcp

open Qt

abbrev Array8 : Type := {a : QByteArray // a.length < 256}

abbrev Array16 : Type := {ts : List UInt16 // ts.length < 256}

abbrev ArrayOfArray8 : Type := {as : List Array8 // as.length < 256}

def array8 : Codec Array8 := Codec.byte.counted

def array16 : Codec Array16 := Codec.half.counted

def arrayOfArray8 : Codec ArrayOfArray8 := array8.counted

def header : Codec (UInt16 × UInt16 × UInt16) := Codec.half.pair (Codec.half.pair Codec.half)

def queryBody : Codec ArrayOfArray8 := arrayOfArray8

abbrev RequestBody : Type :=
  UInt16 × Array16 × ArrayOfArray8 × Array8 × Array8 × ArrayOfArray8 × Array8

def requestBody : Codec RequestBody :=
  Codec.half.pair (array16.pair (arrayOfArray8.pair (array8.pair (array8.pair
    (arrayOfArray8.pair array8)))))

def willingBody : Codec (Array8 × Array8 × Array8) := array8.pair (array8.pair array8)

def acceptBody : Codec (UInt32 × Array8 × Array8 × Array8 × Array8) :=
  Codec.word.pair (array8.pair (array8.pair (array8.pair array8)))

-- The body of a packet of this opcode, where its length is the length the header gives.
def bodyOf (opcode : UInt16) (bytes : QByteArray) : Option QByteArray :=
  match header.decode bytes with
  | none => none
  | some ((version, op, length), body) =>
      if version = kVersion ∧ op = opcode ∧ length.toNat = body.length then some body else none

def decodeWhole {α : Type} (c : Codec α) (body : QByteArray) : Option α :=
  match c.decode body with
  | none => none
  | some (a, rest) => if rest = [] then some a else none

def ArrayOfArray8.names (as : ArrayOfArray8) : List QByteArray := as.val.map Subtype.val

def RequestParams.ofBody : RequestBody → RequestParams
  | (displayNumber, types, addresses, name, data, authorizations, manufacturer) =>
      { displayNumber
        connectionTypes := types.val
        connectionAddresses := addresses.names
        authenticationName := name.val
        authenticationData := data.val
        authorizationNames := authorizations.names
        manufacturerDisplayID := manufacturer.val }

def decodeQuery (bytes : QByteArray) : Option (List QByteArray) :=
  (bodyOf Query bytes).bind fun body => (decodeWhole queryBody body).map ArrayOfArray8.names

def decodeRequest (bytes : QByteArray) : Option RequestParams :=
  (bodyOf Request bytes).bind fun body => (decodeWhole requestBody body).map RequestParams.ofBody

theorem array8_encode (a : Array8) : array8.encode a = putArray8 a.val := by
  have hbytes : a.val.flatMap Codec.byte.encode = a.val := List.flatMap_singleton' a.val
  rw [array8, Codec.encode_counted, hbytes, putArray8]

theorem arrayOfArray8_encode (as : ArrayOfArray8) :
    arrayOfArray8.encode as = UInt8.ofNat as.names.length :: as.names.flatMap putArray8 := by
  have hitems : as.val.flatMap array8.encode = as.names.flatMap putArray8 := by
    rw [ArrayOfArray8.names, List.flatMap_map]
    exact List.flatMap_congr fun a _ => array8_encode a
  rw [arrayOfArray8, Codec.encode_counted, hitems, ArrayOfArray8.names, List.length_map]

theorem exists_names {names : List QByteArray} (hcount : names.length < 256)
    (hnames : ∀ a ∈ names, a.length < 256) : ∃ as : ArrayOfArray8, as.names = names := by
  refine ⟨⟨names.pmap Subtype.mk hnames, by rwa [List.length_pmap]⟩, ?_⟩
  rw [ArrayOfArray8.names, List.map_pmap]
  simp

theorem fits_names (as : ArrayOfArray8) :
    as.names.length < 256 ∧ ∀ a ∈ as.names, a.length < 256 := by
  constructor
  · rw [ArrayOfArray8.names, List.length_map]
    exact as.property
  · intro a ha
    obtain ⟨b, -, rfl⟩ := List.mem_map.mp ha
    exact b.property

theorem decodeWhole_encode {α : Type} (c : Codec α) (a : α) :
    decodeWhole c (c.encode a) = some a := by
  have h := c.decode_encode a []
  rw [List.append_nil] at h
  rw [decodeWhole, h]
  rfl

theorem bodyOf_packet (opcode : UInt16) (body : QByteArray) :
    bodyOf opcode (packet opcode body) = if body.length < 65536 then some body else none := by
  have hdecode : header.decode (packet opcode body) =
      some ((kVersion, opcode, UInt16.ofNat body.length), body) := by
    have h := header.decode_encode (kVersion, opcode, UInt16.ofNat body.length) body
    rw [← h, packet]
    simp only [header, Codec.encode_pair, Codec.half, List.append_assoc]
  rw [bodyOf, hdecode]
  refine if_congr ?_ rfl rfl
  rw [UInt16.toNat_ofNat', eq_self, eq_self, true_and, true_and]
  omega

theorem encodeQuery_names (as : ArrayOfArray8) :
    encodeQuery as.names = packet Query (queryBody.encode as) := by
  rw [encodeQuery, queryBody, arrayOfArray8_encode]

theorem encodeRequest_ofBody (v : RequestBody) :
    encodeRequest (RequestParams.ofBody v) = packet Request (requestBody.encode v) := by
  obtain ⟨displayNumber, types, addresses, name, data, authorizations, manufacturer⟩ := v
  have htypes : array16.encode types =
      UInt8.ofNat types.val.length :: types.val.flatMap BigEndian.bytes16 := rfl
  have hdisplay : Codec.half.encode displayNumber = BigEndian.bytes16 displayNumber := rfl
  simp only [requestBody, Codec.encode_pair, array8_encode, arrayOfArray8_encode, htypes, hdisplay,
    encodeRequest, RequestParams.ofBody, List.append_assoc, List.cons_append]

def sizes : List QByteArray → Nat
  | [] => 0
  | a :: names => 1 + a.length + sizes names

def requestSize (p : RequestParams) : Nat :=
  2 + (1 + 2 * p.connectionTypes.length) + (1 + sizes p.connectionAddresses) +
    (1 + p.authenticationName.length) + (1 + p.authenticationData.length) +
    (1 + sizes p.authorizationNames) + (1 + p.manufacturerDisplayID.length)

def FitsNames (names : List QByteArray) : Prop := names.length < 256 ∧ ∀ a ∈ names, a.length < 256

structure FitsQuery (names : List QByteArray) : Prop where
  arrays : FitsNames names
  total : 1 + sizes names < 65536

structure FitsRequest (p : RequestParams) : Prop where
  types : p.connectionTypes.length < 256
  addresses : FitsNames p.connectionAddresses
  name : p.authenticationName.length < 256
  data : p.authenticationData.length < 256
  authorizations : FitsNames p.authorizationNames
  manufacturer : p.manufacturerDisplayID.length < 256
  total : requestSize p < 65536

theorem length_putArray8 (a : QByteArray) : (putArray8 a).length = 1 + a.length := by
  rw [putArray8, List.length_cons, Nat.add_comm]

theorem length_names (names : List QByteArray) :
    (names.flatMap putArray8).length = sizes names := by
  induction names with
  | nil => rfl
  | cons a names ih => rw [List.flatMap_cons, List.length_append, length_putArray8, ih, sizes]

theorem length_queryBody (as : ArrayOfArray8) :
    (queryBody.encode as).length = 1 + sizes as.names := by
  rw [queryBody, arrayOfArray8_encode, List.length_cons, length_names, Nat.add_comm]

theorem length_requestBody (v : RequestBody) :
    (requestBody.encode v).length = requestSize (RequestParams.ofBody v) := by
  obtain ⟨displayNumber, types, addresses, name, data, authorizations, manufacturer⟩ := v
  have htypes : (array16.encode types).length = 1 + 2 * types.val.length := by
    have hconst := length_flatMap_const BigEndian.length_bytes16 types.val
    rw [array16, Codec.encode_counted, List.length_cons]
    exact (congrArg (· + 1) hconst).trans (by omega)
  have hdisplay : (Codec.half.encode displayNumber).length = 2 := rfl
  have harray (a : Array8) : (array8.encode a).length = 1 + a.val.length := by
    rw [array8_encode, length_putArray8]
  have harrays (as : ArrayOfArray8) : (arrayOfArray8.encode as).length = 1 + sizes as.names :=
    length_queryBody as
  simp only [requestBody, Codec.encode_pair, List.length_append, htypes, hdisplay, harray, harrays,
    RequestParams.ofBody, requestSize]
  omega

theorem decodeQuery_names (as : ArrayOfArray8) :
    decodeQuery (encodeQuery as.names) =
      if 1 + sizes as.names < 65536 then some as.names else none := by
  rw [encodeQuery_names, decodeQuery, bodyOf_packet, length_queryBody]
  split_ifs
  · rw [Option.bind_some, decodeWhole_encode]
    rfl
  · rfl

theorem decodeRequest_ofBody (v : RequestBody) :
    decodeRequest (encodeRequest (RequestParams.ofBody v)) =
      if requestSize (RequestParams.ofBody v) < 65536 then some (RequestParams.ofBody v)
      else none := by
  rw [encodeRequest_ofBody, decodeRequest, bodyOf_packet, length_requestBody]
  split_ifs
  · rw [Option.bind_some, decodeWhole_encode]
    rfl
  · rfl

-- What the grammar reads back always fits, whatever the bytes are.
theorem names_of_decodeQuery {bytes : QByteArray} {names : List QByteArray}
    (h : decodeQuery bytes = some names) : ∃ as : ArrayOfArray8, as.names = names := by
  obtain ⟨body, -, h⟩ := Option.bind_eq_some_iff.mp h
  obtain ⟨as, -, rfl⟩ := Option.map_eq_some_iff.mp h
  exact ⟨as, rfl⟩

theorem body_of_decodeRequest {bytes : QByteArray} {p : RequestParams}
    (h : decodeRequest bytes = some p) : ∃ v, RequestParams.ofBody v = p := by
  obtain ⟨body, -, h⟩ := Option.bind_eq_some_iff.mp h
  obtain ⟨v, -, rfl⟩ := Option.map_eq_some_iff.mp h
  exact ⟨v, rfl⟩

theorem query_faithful_iff (names : List QByteArray) :
    decodeQuery (encodeQuery names) = some names ↔ FitsQuery names := by
  constructor
  · intro h
    obtain ⟨as, rfl⟩ := names_of_decodeQuery h
    rw [decodeQuery_names] at h
    split_ifs at h with htotal
    exact ⟨fits_names as, htotal⟩
  · intro h
    obtain ⟨as, rfl⟩ := exists_names h.arrays.1 h.arrays.2
    rw [decodeQuery_names, if_pos h.total]

theorem fits_ofBody (v : RequestBody) (htotal : requestSize (RequestParams.ofBody v) < 65536) :
    FitsRequest (RequestParams.ofBody v) := by
  obtain ⟨displayNumber, types, addresses, name, data, authorizations, manufacturer⟩ := v
  exact ⟨types.property, fits_names addresses, name.property, data.property,
    fits_names authorizations, manufacturer.property, htotal⟩

theorem exists_body {p : RequestParams} (h : FitsRequest p) : ∃ v, RequestParams.ofBody v = p := by
  obtain ⟨addresses, haddresses⟩ := exists_names h.addresses.1 h.addresses.2
  obtain ⟨authorizations, hauthorizations⟩ :=
    exists_names h.authorizations.1 h.authorizations.2
  refine ⟨(p.displayNumber, ⟨p.connectionTypes, h.types⟩, addresses, ⟨p.authenticationName, h.name⟩,
    ⟨p.authenticationData, h.data⟩, authorizations, ⟨p.manufacturerDisplayID, h.manufacturer⟩), ?_⟩
  rw [RequestParams.ofBody, haddresses, hauthorizations]

theorem request_faithful_iff (p : RequestParams) :
    decodeRequest (encodeRequest p) = some p ↔ FitsRequest p := by
  constructor
  · intro h
    obtain ⟨v, rfl⟩ := body_of_decodeRequest h
    rw [decodeRequest_ofBody] at h
    split_ifs at h with htotal
    exact fits_ofBody v htotal
  · intro h
    obtain ⟨v, rfl⟩ := exists_body h
    rw [decodeRequest_ofBody, if_pos h.total]

structure Faithful (p : RequestParams) (names : List QByteArray) : Prop where
  request : decodeRequest (encodeRequest p) = some p
  query : decodeQuery (encodeQuery names) = some names

theorem encoding_faithful_iff (p : RequestParams) (names : List QByteArray) :
    Faithful p names ↔ FitsRequest p ∧ FitsQuery names := by
  rw [← request_faithful_iff, ← query_faithful_iff]
  exact ⟨fun h => ⟨h.request, h.query⟩, fun h => ⟨h.1, h.2⟩⟩

def longName : QByteArray := List.replicate 256 0x41

theorem long_name_lost : ¬Faithful { authenticationName := longName } [] := by
  intro h
  have hfits := ((request_faithful_iff _).mp h.request).name
  exact absurd hfits (by rw [longName, List.length_replicate]; exact Nat.lt_irrefl 256)

end Connect.Xdmcp
