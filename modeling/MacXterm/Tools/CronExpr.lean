import MacXterm.Lib.Mask
import MacXterm.Qt.Words

namespace Tools

open Qt

-- parse returns false on a malformed expression; past the end of int there is no result at all.
inductive Stop where
  | malformed
  | overflow
  deriving DecidableEq

namespace Cron

def readInt (s : QString) : Except Stop Int :=
  match toInt s with
  | some n => .ok n
  | none => .error .malformed

def addInt (x y : Int) : Except Stop Int :=
  if -2 ^ 31 ≤ x + y ∧ x + y < 2 ^ 31 then .ok (x + y) else .error .overflow

-- An item of a field: a, a + step, ... up to b.
structure Span where
  a : Int
  b : Int
  step : Int
  deriving DecidableEq

def readStep (part : QString) : Except Stop (QString × Int) :=
  match cutAt '/' part with
  | some (left, right) => do
      let step ← readInt right
      if step ≤ 0 then .error .malformed else pure (left, step)
  | none => pure (part, 1)

def readEnds (lo hi : Int) (part : QString) : Except Stop (Int × Int) :=
  if part = ['*'] then pure (lo, hi)
  else
    match cutAt '-' part with
    | some (left, right) => do
        let a ← readInt left
        let b ← readInt right
        pure (a, b)
    | none => do
        let a ← readInt part
        pure (a, a)

def parsePart (lo hi : Int) (partIn : QString) : Except Stop Span := do
  let (part, step) ← readStep partIn
  let (a, b) ← readEnds lo hi part
  if a < lo ∨ hi < b ∨ b < a then .error .malformed else pure ⟨a, b, step⟩

-- The loop over v; it is left before the turns given here run out.
def setEvery (b step : Int) : Nat → Int → BitVec 64 → Except Stop (BitVec 64)
  | 0, _, mask => .ok mask
  | turns + 1, v, mask =>
      if v ≤ b then do
        let next ← addInt v step
        setEvery b step turns next (mask ||| 1#64 <<< v.toNat)
      else .ok mask

def addPart (lo hi : Int) (mask : BitVec 64) (part : QString) : Except Stop (BitVec 64) := do
  let s ← parsePart lo hi part
  setEvery s.b s.step ((s.b - s.a).toNat + 1) s.a mask

def parseField (field : QString) (lo hi : Int) : Except Stop (BitVec 64) :=
  let parts := splitSkip ',' field
  if parts = [] then .error .malformed else parts.foldlM (addPart lo hi) 0#64

def fullMask (lo hi : Nat) : BitVec 64 :=
  (List.range (hi + 1 - lo)).foldl (fun m i => m ||| 1#64 <<< (lo + i)) 0#64

end Cron

open Cron

structure CronExpr where
  valid : Bool
  min : BitVec 64
  hour : BitVec 32
  dom : BitVec 32
  month : BitVec 16
  dow : BitVec 8
  deriving DecidableEq

-- A valid QDateTime as its accessors give it.
structure DateTime where
  minute : Nat
  hour : Nat
  day : Nat
  month : Nat
  dayOfWeek : Nat
  minute_lt : minute < 60
  hour_lt : hour < 24
  day_pos : 1 ≤ day
  day_le : day ≤ 31
  month_pos : 1 ≤ month
  month_le : month ≤ 12
  dayOfWeek_pos : 1 ≤ dayOfWeek
  dayOfWeek_le : dayOfWeek ≤ 7

namespace CronExpr

def invalid : CronExpr := ⟨false, 0, 0, 0, 0, 0⟩

-- Day 7 of the week is Sunday as well.
def foldSunday (d : BitVec 64) : BitVec 64 :=
  (if d &&& 1#64 <<< 7 ≠ 0#64 then d ||| 1#64 else d) &&& 0x7F#64

def parse (expr : QString) : Except Stop CronExpr :=
  match splitSkip ' ' (simplified expr) with
  | [f0, f1, f2, f3, f4] => do
      let m ← parseField f0 0 59
      let h ← parseField f1 0 23
      let dom ← parseField f2 1 31
      let mon ← parseField f3 1 12
      let d ← parseField f4 0 7
      pure ⟨true, m, h.setWidth 32, dom.setWidth 32, mon.setWidth 16, (foldSunday d).setWidth 8⟩
  | _ => .error .malformed

-- The constructor; none where parsing it has no defined result.
def ofString (expr : QString) : Option CronExpr :=
  match parse expr with
  | .ok c => some c
  | .error .malformed => some invalid
  | .error .overflow => none

def «matches» (c : CronExpr) (when : DateTime) : Bool :=
  if !c.valid then false
  else if c.min &&& 1#64 <<< when.minute = 0#64 then false
  else if c.hour &&& 1#32 <<< when.hour = 0#32 then false
  else if c.month &&& 1#16 <<< when.month = 0#16 then false
  else
    let cronDow := when.dayOfWeek % 7
    let domMatch := decide (c.dom &&& 1#32 <<< when.day ≠ 0#32)
    let dowMatch := decide (c.dow &&& 1#8 <<< cronDow ≠ 0#8)
    let domRestricted := decide (c.dom.setWidth 64 ≠ fullMask 1 31)
    let dowRestricted := decide (c.dow ≠ 0x7F#8)
    if domRestricted && dowRestricted then domMatch || dowMatch else domMatch && dowMatch

end CronExpr

end Tools
