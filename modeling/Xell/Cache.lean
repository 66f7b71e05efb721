/-
The cache routines of `cache.S`.

`dcache_flush`, `dcache_inv` and `flush_code` take an address in `r3` and a length in `r4` and
go through the lines of that range.  They differ in the instructions they give for an address.
What an instruction does to the cache is left out: the routines here return the instructions in
the order they are given, each with its address.
-/
import Mathlib.Tactic

namespace Xell.Cache

/-! ### Instructions -/

/-- `lis`: the value in the upper half of a word, which fills the register with its sign. -/
def lis (value : BitVec 16) : BitVec 64 := (value ++ 0#16).signExtend 64

def ori (r : BitVec 64) (value : BitVec 16) : BitVec 64 := r ||| value.setWidth 64

/-- `subf rD, rA, rB` is `rB - rA`. -/
def subf (a b : BitVec 64) : BitVec 64 := b - a

/-- `CACHE_SIZE`. -/
def cacheSize : BitVec 64 := 0x80

/-- The instructions that are given an address. -/
inductive CacheOp where
  | dcbst
  | dcbf
  | icbi
  deriving DecidableEq

/-! ### Routines -/

theorem slt_zero_iff (r : BitVec 64) : r.slt 0 = true ↔ 2 ^ 63 ≤ r.toNat := by
  have hmsb := BitVec.slt_zero_eq_msb (x := r)
  rw [BitVec.msb_eq_decide] at hmsb
  have hdec : r.slt 0 = decide (2 ^ 63 ≤ r.toNat) := hmsb
  rw [hdec, decide_eq_true_iff]

theorem loop_decreases {r4 : BitVec 64} (h : ¬ (r4 - cacheSize).slt 0 = true) :
    (r4 - cacheSize).toNat < r4.toNat := by
  rw [slt_zero_iff] at h
  have hsub : (r4 - cacheSize).toNat = (2 ^ 64 - 128 + r4.toNat) % 2 ^ 64 := BitVec.toNat_sub ..
  have hlt := r4.isLt
  omega

/-- From label `1` on: `subic.` compares what is left with zero, and `bge` goes back. -/
def loop (ops : List CacheOp) (r4 r5 : BitVec 64) : List (CacheOp × BitVec 64) :=
  let given := ops.map fun op => (op, r5)
  if (r4 - cacheSize).slt 0 then given
  else given ++ loop ops (r4 - cacheSize) (r5 + cacheSize)
termination_by r4.toNat
decreasing_by exact loop_decreases (by assumption)

/-- The mask in `r5`. -/
def mask : BitVec 64 := ori (lis 0xFFFF) 0xFFF1

/-- A routine that gives the instructions `ops` for each address. -/
def routine (ops : List CacheOp) (r3 r4 : BitVec 64) : List (CacheOp × BitVec 64) :=
  let r5 := mask &&& r3
  let r3 := subf r5 r3
  let r4 := r4 + r3
  loop ops r4 r5

def dcacheFlush : BitVec 64 → BitVec 64 → List (CacheOp × BitVec 64) := routine [.dcbst]

def dcacheInv : BitVec 64 → BitVec 64 → List (CacheOp × BitVec 64) := routine [.dcbf]

def flushCode : BitVec 64 → BitVec 64 → List (CacheOp × BitVec 64) := routine [.dcbst, .icbi]

end Xell.Cache
