import Mathlib.Logic.Equiv.Prod
import MacXterm.Tools.Nfs.Server

namespace Nfs

namespace Grammar

def enum (n : Nat) : Codec { v : UInt32 // v.toNat < n } := Codec.word.restrict _

def padded (n : Nat) : Codec { b : List UInt8 // b.length = n } :=
  ((Codec.bytes n).pair (Codec.const (List.replicate (Xdr.padding n) 0))).equiv (Equiv.prodPUnit _)

abbrev OpaqueValue (max : Nat) :=
  Σ n : { v : UInt32 // v.toNat ≤ max }, { b : List UInt8 // b.length = n.val.toNat }

def opaqueVar (max : Nat) : Codec (OpaqueValue max) :=
  (Codec.word.restrict fun v => v.toNat ≤ max).sigma fun n => padded n.val.toNat

def optional {α : Type} (c : Codec α) :=
  (enum 2).sigma fun follows => c.when (follows.val = 1)

def uint64 := Codec.word.pair Codec.word

def nfstime3 := Codec.word.pair Codec.word

def setTime := (enum 3).sigma fun how => nfstime3.when (how.val = 2)

def sattr3 :=
  (optional .word).pair <| (optional .word).pair <| (optional .word).pair <|
    (optional uint64).pair <| setTime.pair setTime

def createhow3 :=
  (enum 3).sigma fun mode => (sattr3.when (mode.val ≠ 2)).pair ((Codec.bytes 8).when (mode.val = 2))

def nfsFh3 := opaqueVar 64

def filename3 := opaqueVar (2 ^ 32 - 1)

def diropargs3 := nfsFh3.pair filename3

def opaqueAuth := Codec.word.pair (opaqueVar 400)

end Grammar

inductive Procedure where
  | setattr
  | write
  | create
  | mkdir
  | remove
  | rmdir
  | rename
  deriving DecidableEq

namespace Procedure

open Grammar

def number : Procedure → UInt32
  | setattr => 2
  | write => 7
  | create => 8
  | mkdir => 9
  | remove => 12
  | rmdir => 13
  | rename => 14

def args : Procedure → Σ α : Type, Codec α
  | setattr => ⟨_, nfsFh3.pair (sattr3.pair (optional nfstime3))⟩
  | write => ⟨_, nfsFh3.pair (uint64.pair (Codec.word.pair ((enum 3).pair (opaqueVar (2 ^ 32 - 1)))))⟩
  | create => ⟨_, diropargs3.pair createhow3⟩
  | mkdir => ⟨_, diropargs3.pair sattr3⟩
  | remove => ⟨_, diropargs3⟩
  | rmdir => ⟨_, diropargs3⟩
  | rename => ⟨_, diropargs3.pair diropargs3⟩

def header (p : Procedure) :=
  Codec.word.pair
    ((Codec.const ([0, 2, PROG_NFS, 3, p.number].flatMap BigEndian.bytes32)).pair
      (opaqueAuth.pair opaqueAuth))

def call (p : Procedure) := p.header.pair p.args.2

end Procedure

def Malformed (request : List UInt8) : Prop := ∀ p : Procedure, ¬ p.call.Encodes request

theorem Procedure.number_of_encodes {p : Procedure} {request : List UInt8}
    (h : p.call.Encodes request) : (request.drop 20).take 4 = BigEndian.bytes32 p.number := by
  obtain ⟨⟨⟨xid, _, auth⟩, args⟩, rfl⟩ := h
  rfl

theorem Procedure.eq_of_bytes {p q : Procedure}
    (h : BigEndian.bytes32 p.number = BigEndian.bytes32 q.number) : p = q := by
  cases p <;> cases q <;> first | rfl | exact absurd h (by decide)

theorem malformed_of_prefix {p : Procedure} {request rest : List UInt8} (hr : rest ≠ [])
    (h : p.call.Encodes (request ++ rest)) : Malformed request := by
  intro q hq
  have hq' := Procedure.number_of_encodes hq
  have hl : 24 ≤ request.length := by
    have := congrArg List.length hq'
    simp only [List.length_take, List.length_drop, BigEndian.bytes32, List.length_cons,
      List.length_nil] at this
    omega
  have hp := Procedure.number_of_encodes h
  rw [List.drop_append_of_le_length (by omega),
    List.take_append_of_le_length (by rw [List.length_drop]; omega), hq'] at hp
  obtain rfl := Procedure.eq_of_bytes hp
  obtain ⟨a, ha⟩ := h
  exact q.call.not_encodes_prefix hr ha hq

end Nfs
