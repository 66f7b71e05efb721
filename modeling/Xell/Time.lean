/-
Measuring time with the timebase, from `time.c` and `processor.h`.

The timebase counts at `TB_CLOCK`.  `mftb` was written for a machine of 32 bits, on which it reads
the two halves of the count.  This is a build of 64 bits: the instruction `mftb` reads all of the
count, so that `l` is the count and `u` is its upper half.

A clock is the sequence of counts that the readings of a loop find, one after the other.
-/
import Mathlib.Data.PFun
import Mathlib.Tactic

namespace Xell.Time

/-- `tb_t`. -/
structure Tb where
  l : BitVec 64
  u : BitVec 64

/-- What `mftb` stores when the count is `t`. -/
def mftb (t : BitVec 64) : Tb := { l := t, u := t >>> 32 }

/-- `TB_CLOCK`. -/
def tbClock : BitVec 64 := 45000000

/-- The time between two readings, in units of which `perUpper` are taken to be in a unit of `u`
and which have `perLower` ticks each. -/
def tbDiff (perUpper perLower : BitVec 64) (last start : Tb) : BitVec 64 :=
  let upper := last.u - start.u
  let upper := if last.l < start.l then upper - 1 else upper
  let lower := last.l - start.l
  upper * perUpper + lower / perLower

def tbDiffSec : Tb → Tb → BitVec 64 := tbDiff (0x80000000 / (tbClock / 2)) tbClock

def tbDiffMsec : Tb → Tb → BitVec 64 := tbDiff (0x80000000 / (tbClock / 2000)) (tbClock / 1000)

def tbDiffUsec : Tb → Tb → BitVec 64 :=
  tbDiff (0x80000000 / (tbClock / 2000000)) (tbClock / 1000000)

/-! ### Delays -/

/-- A turn of the loop of a delay, with reading `k`. -/
def delayTurn (diff : Tb → Tb → BitVec 64) (clock : Nat → BitVec 64) (start : Tb)
    (amount : BitVec 64) (k : Nat) : Part (Nat ⊕ Nat) :=
  if diff (mftb (clock k)) start ≥ amount then Part.some (.inl k) else Part.some (.inr (k + 1))

/-- The loop of a delay from reading `k` on: the number of the reading at which it ends. -/
def delayLoop (diff : Tb → Tb → BitVec 64) (clock : Nat → BitVec 64) (start : Tb)
    (amount : BitVec 64) (k : Nat) : Part Nat :=
  PFun.fix (delayTurn diff clock start amount) k

def delayBy (diff : Tb → Tb → BitVec 64) (clock : Nat → BitVec 64) (amount : BitVec 32) :
    Part Nat :=
  delayLoop diff clock (mftb (clock 0)) (amount.setWidth 64) 1

def udelay : (Nat → BitVec 64) → BitVec 32 → Part Nat := delayBy tbDiffUsec

def mdelay : (Nat → BitVec 64) → BitVec 32 → Part Nat := delayBy tbDiffMsec

def delay : (Nat → BitVec 64) → BitVec 32 → Part Nat := delayBy tbDiffSec

end Xell.Time
