import MacXterm.Lib.Codec
import MacXterm.Qt.Text

namespace Xdr

open Qt

def padding (n : Nat) : Nat := (4 - n % 4) % 4

structure XdrWriter where
  data : QByteArray
  deriving DecidableEq

namespace XdrWriter

def u32 (w : XdrWriter) (v : UInt32) : XdrWriter := ⟨w.data ++ BigEndian.bytes32 v⟩

def u64 (w : XdrWriter) (v : UInt64) : XdrWriter := (w.u32 (v >>> 32).toUInt32).u32 v.toUInt32

def opaqueFixed (w : XdrWriter) (b : QByteArray) : XdrWriter :=
  ⟨w.data ++ b ++ List.replicate (padding (w.data ++ b).length) 0⟩

def opaqueVar (w : XdrWriter) (b : QByteArray) : XdrWriter :=
  (w.u32 (.ofNat b.length)).opaqueFixed b

def str (w : XdrWriter) (s : QString) : XdrWriter := w.opaqueVar (toUtf8 s)

end XdrWriter

structure XdrReader where
  buf : QByteArray
  pos : Nat
  deriving DecidableEq

namespace XdrReader

def u32 (r : XdrReader) : UInt32 × Bool × XdrReader :=
  match r.buf.drop r.pos with
  | b0 :: b1 :: b2 :: b3 :: _ => (BigEndian.word32 b0 b1 b2 b3, true, { r with pos := r.pos + 4 })
  | _ => (0, false, r)

def u64 (r : XdrReader) : UInt64 × Bool × XdrReader :=
  let (hi, a, r) := r.u32
  let (lo, b, r) := r.u32
  (hi.toUInt64 <<< 32 ||| lo.toUInt64, a && b, r)

def opaqueFixed (r : XdrReader) (n : Nat) : QByteArray × Bool × XdrReader :=
  let padded := n + padding n
  if r.pos + padded > r.buf.length then ([], false, r)
  else ((r.buf.drop r.pos).take n, true, { r with pos := r.pos + padded })

def opaqueVar (r : XdrReader) : QByteArray × Bool × XdrReader :=
  let (n, a, r) := r.u32
  if !a || n.toNat > r.buf.length then ([], false, r) else r.opaqueFixed n.toNat

def str (r : XdrReader) : QString × Bool × XdrReader :=
  let (b, ok, r) := r.opaqueVar
  (fromUtf8 b, ok, r)

end XdrReader

end Xdr
