import MacXterm.Qt.ByteArray

namespace Tftp

open Qt

inductive Op where
  | rrq | wrq | data | ack | error | invalid
deriving DecidableEq

structure Packet where
  op : Op := .invalid
  filename : QString := []
  mode : QString := []
  block : UInt16 := 0
  data : QByteArray := []
  errorCode : UInt16 := 0
  errorMsg : QString := []
  valid : Bool := false
deriving DecidableEq

def indexOf (b : QByteArray) (c : UInt8) (start : Nat) : Option Nat :=
  ((b.drop start).findIdx? (· == c)).map (start + ·)

def decodeRequest (op : Op) (b : QByteArray) : Packet :=
  match indexOf b 0 2 with
  | none => { op }
  | some fnEnd =>
      let filename := fromUtf8 (mid b 2 (fnEnd - 2))
      match indexOf b 0 (fnEnd + 1) with
      | none => { op, filename }
      | some mEnd =>
          { op, filename, mode := fromUtf8 (mid b (fnEnd + 1) (mEnd - fnEnd - 1)), valid := true }

def decode (b : QByteArray) : Packet :=
  if b.length < 2 then {}
  else
    match (rd16be b 0).toNat with
    | 1 => decodeRequest .rrq b
    | 2 => decodeRequest .wrq b
    | 3 =>
        if b.length < 4 then {}
        else { op := .data, block := rd16be b 2, data := mid b 4 (-1), valid := true }
    | 4 =>
        if b.length < 4 then {}
        else { op := .ack, block := rd16be b 2, valid := true }
    | 5 =>
        if b.length < 4 then {}
        else
          let len : Int := match indexOf b 0 4 with
            | none => -1
            | some last => last - 4
          { op := .error, errorCode := rd16be b 2, errorMsg := fromUtf8 (mid b 4 len),
            valid := true }
    | _ => {}

def encodeAck (block : UInt16) : QByteArray := BigEndian.bytes16 4 ++ BigEndian.bytes16 block

def encodeData (block : UInt16) (data : QByteArray) : QByteArray :=
  BigEndian.bytes16 3 ++ BigEndian.bytes16 block ++ data

def encodeError (code : UInt16) (msg : QString) : QByteArray :=
  BigEndian.bytes16 5 ++ BigEndian.bytes16 code ++ toUtf8 msg ++ [0]

theorem rd16be_header (op block : UInt16) (rest : QByteArray) :
    rd16be (BigEndian.bytes16 op ++ (BigEndian.bytes16 block ++ rest)) 0 = op ∧
      rd16be (BigEndian.bytes16 op ++ (BigEndian.bytes16 block ++ rest)) 2 = block := by
  refine ⟨rd16be_bytes16 op _, ?_⟩
  have h := rd16be_append_right (BigEndian.bytes16 op) (BigEndian.bytes16 block ++ rest) 0
  exact h.trans (rd16be_bytes16 block rest)

theorem decode_encodeData (block : UInt16) (data : QByteArray) :
    decode (encodeData block data) = { op := .data, block, data, valid := true } := by
  obtain ⟨hop, hblock⟩ := rd16be_header 3 block data
  rw [← List.append_assoc] at hop hblock
  have hlength : (encodeData block data).length = 4 + data.length := by
    simp [encodeData]
    omega
  have hmid : mid (encodeData block data) 4 (-1) = data := by
    have hle : ¬((encodeData block data).length : Int) < 4 := by omega
    rw [mid, if_neg hle, if_neg (by decide), if_pos (by decide)]
    rfl
  rw [decode, if_neg (by omega)]
  simp only [encodeData] at hmid hlength ⊢
  simp only [hop, hblock, hmid]
  simp only [hlength]
  simp

theorem decode_encodeAck (block : UInt16) :
    decode (encodeAck block) = { op := .ack, block, valid := true } := by
  obtain ⟨hop, hblock⟩ := rd16be_header 4 block []
  rw [List.append_nil] at hop hblock
  rw [decode, if_neg (by simp [encodeAck])]
  simp only [encodeAck, hop, hblock]
  simp

end Tftp
