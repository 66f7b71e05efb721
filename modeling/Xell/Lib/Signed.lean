/-
Signed words.

A word read as a signed number, for the operations where it matters: the division that rounds
towards zero, and the comparisons.
-/
import Mathlib.Tactic

namespace Xell.Signed

variable {w : Nat} {x y : BitVec w}

theorem toInt_ofNat {k : Nat} (hk : k < 2 ^ w) : (BitVec.ofNat (w + 1) k).toInt = k := by
  have hpow : 2 ^ (w + 1) = 2 * 2 ^ w := Nat.pow_succ'
  rw [BitVec.toInt_eq_toNat_cond, BitVec.toNat_ofNat, Nat.mod_eq_of_lt (by omega),
    if_pos (by omega)]

theorem toNat_of_toInt {k : Nat} (h : x.toInt = k) : x.toNat = k := by
  have := x.isLt
  rw [BitVec.toInt_eq_toNat_cond] at h
  split at h <;> omega

theorem toInt_sdiv_of_nonneg (hy : y ≠ -1#w) (hx : 0 ≤ x.toInt) :
    (x.sdiv y).toInt = x.toInt / y.toInt := by
  rw [BitVec.toInt_sdiv_of_ne_or_ne x y (.inr hy), Int.tdiv_eq_ediv_of_nonneg hx]

theorem toInt_sdiv_of_nonpos (hy : y ≠ -1#w) (hx : x.toInt ≤ 0) :
    (x.sdiv y).toInt = -(-x.toInt / y.toInt) := by
  rw [BitVec.toInt_sdiv_of_ne_or_ne x y (.inr hy), ← Int.tdiv_eq_ediv_of_nonneg (by omega),
    Int.neg_tdiv, neg_neg]

end Xell.Signed
