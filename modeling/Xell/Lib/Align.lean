/-
Rounding up to a multiple of a power of two.

`up` is the rounding, on naturals.  A program does it with masks: the low bits are `x & (al - 1)`,
and `x & ~(al - 1)` is `x` without them.
-/
import Mathlib.Tactic

namespace Xell.Align

variable {al x k : Nat}

/-- The next multiple of `al`. -/
def up (al x : Nat) : Nat := if x % al = 0 then x else x + (al - x % al)

theorem le_up (al x : Nat) : x ≤ up al x := by
  unfold up
  split <;> omega

theorem up_eq_self (h : al ∣ x) : up al x = x := if_pos (Nat.mod_eq_zero_of_dvd h)

theorem up_of_mod_ne (h : x % al ≠ 0) : up al x = x + (al - x % al) := if_neg h

theorem dvd_up (hal : 0 < al) (x : Nat) : al ∣ up al x := by
  by_cases h : x % al = 0
  · rw [up_eq_self (Nat.dvd_of_mod_eq_zero h)]
    exact Nat.dvd_of_mod_eq_zero h
  · rw [up_of_mod_ne h]
    have hlt := Nat.mod_lt x hal
    have hdiv := Nat.div_add_mod x al
    have hsum : x + (al - x % al) = al * (x / al + 1) := by
      rw [Nat.mul_add, Nat.mul_one]
      omega
    rw [hsum]
    exact Dvd.intro _ rfl

/-! ### Masks -/

theorem and_high {w : Nat} (hk : k ≤ w) (hx : x < 2 ^ w) :
    x &&& (2 ^ w - 1 - (2 ^ k - 1)) = x / 2 ^ k * 2 ^ k := by
  have hpos := Nat.two_pow_pos k
  have hle := Nat.pow_le_pow_right (show 0 < 2 by omega) hk
  apply Nat.eq_of_testBit_eq
  intro i
  rw [Nat.testBit_and, show 2 ^ w - 1 - (2 ^ k - 1) = 2 ^ w - ((2 ^ k - 1) + 1) by omega,
    Nat.testBit_two_pow_sub_succ (by omega), Nat.testBit_two_pow_sub_one, Nat.testBit_mul_two_pow,
    Nat.testBit_div_two_pow]
  by_cases hi : k ≤ i
  · by_cases hiw : i < w
    · simp [hi, hiw, show ¬i < k by omega]
    · have hhigh : x < 2 ^ i := hx.trans_le (Nat.pow_le_pow_right (by omega) (by omega))
      simp [Nat.testBit_lt_two_pow hhigh, show i - k + k = i by omega]
  · simp [hi, show i < k by omega]

section Words

variable {p y : UInt64}

theorem toNat_pred (h : p.toNat = 2 ^ k) : (p - 1).toNat = 2 ^ k - 1 := by
  have hpos := Nat.two_pow_pos k
  have hone : (1 : UInt64) ≤ p := by
    rw [UInt64.le_iff_toNat_le, h]
    exact hpos
  rw [UInt64.toNat_sub_of_le _ _ hone, h]
  rfl

theorem toNat_low (h : p.toNat = 2 ^ k) : (y &&& (p - 1)).toNat = y.toNat % 2 ^ k := by
  rw [UInt64.toNat_and, toNat_pred h, Nat.and_two_pow_sub_one_eq_mod]

theorem toNat_high (h : p.toNat = 2 ^ k) :
    (y &&& ~~~(p - 1)).toNat = y.toNat / 2 ^ k * 2 ^ k := by
  have hk : k ≤ 64 := by
    by_contra hlt
    have := p.toNat_lt
    have := Nat.pow_le_pow_right (show 0 < 2 by omega) (show 64 ≤ k by omega)
    omega
  rw [UInt64.toNat_and, UInt64.toNat_not, toNat_pred h]
  exact and_high hk y.toNat_lt

/-- Add one `p`, and clear the low bits. -/
theorem toNat_add_high (h : p.toNat = 2 ^ k) (hmod : y.toNat % 2 ^ k ≠ 0)
    (hfits : up (2 ^ k) y.toNat < 2 ^ 64) : ((y + p) &&& ~~~(p - 1)).toNat = up (2 ^ k) y.toNat := by
  have hpos := Nat.two_pow_pos k
  have hmlt := Nat.mod_lt y.toNat hpos
  have hdiv := Nat.div_add_mod y.toNat (2 ^ k)
  rw [up_of_mod_ne hmod] at hfits ⊢
  -- the next multiple fits, so the one after it is at most `2 ^ 64`, and `y + p` lies between them
  have hnext : y.toNat + (2 ^ k - y.toNat % 2 ^ k) = 2 ^ k * (y.toNat / 2 ^ k + 1) := by
    rw [Nat.mul_add, Nat.mul_one]
    omega
  have hk : k ≤ 64 := by
    by_contra hlt
    have := p.toNat_lt
    have := Nat.pow_le_pow_right (show 0 < 2 by omega) (show 64 ≤ k by omega)
    omega
  obtain ⟨c, hc⟩ := pow_dvd_pow 2 hk
  have hlt : y.toNat / 2 ^ k + 1 < c := by
    rw [hnext, hc] at hfits
    exact Nat.lt_of_mul_lt_mul_left hfits
  have hmul : 2 ^ k * (y.toNat / 2 ^ k + 1 + 1) ≤ 2 ^ 64 := by
    rw [hc]
    exact Nat.mul_le_mul_left _ hlt
  have hsum : (y + p).toNat = y.toNat + 2 ^ k := by
    rw [UInt64.toNat_add, h, Nat.mod_eq_of_lt]
    rw [Nat.mul_add, Nat.mul_one] at hmul
    omega
  rw [toNat_high h, hsum, Nat.add_div_right _ hpos, hnext, Nat.mul_comm]

end Words

end Xell.Align
