/-
One's complement sums of sixteen-bit words.

A sum with end-around carries is a number modulo `65535`, except that there are two zeros: a sum
is `0` only if all that was added is zero, and `65535` otherwise.  `norm` is the number that such
a sum ends with, whatever the order in which carries are folded in.

Bytes are added as words, the high byte first, and a last byte without a partner is a high byte.
Where a list of bytes is cut does not matter as long as one keeps count: `256` has the square `1`,
and `sum_append` puts a power of it before the second part.
-/
import Mathlib.Tactic

namespace Xell.Ones

variable {a a' b b' n j k : Nat}

/-- What a sum ends with when all carries are folded in. -/
def norm (n : Nat) : Nat := if n = 0 then 0 else (n - 1) % 65535 + 1

@[simp] theorem norm_zero : norm 0 = 0 := rfl

theorem norm_pos (h : n ≠ 0) : norm n = (n - 1) % 65535 + 1 := if_neg h

theorem norm_le (n : Nat) : norm n ≤ 65535 := by
  unfold norm
  split <;> omega

@[simp] theorem norm_eq_zero : norm n = 0 ↔ n = 0 := by
  unfold norm
  split <;> omega

theorem norm_of_le (h : n ≤ 65535) : norm n = n := by
  unfold norm
  split <;> omega

theorem norm_mod (n : Nat) : norm n % 65535 = n % 65535 := by
  unfold norm
  split <;> omega

/-- The two zeros are all that tells a sum from a number modulo `65535`. -/
theorem norm_eq_iff : norm a = norm b ↔ (a = 0 ↔ b = 0) ∧ a % 65535 = b % 65535 := by
  unfold norm
  split <;> split <;> omega

theorem norm_eq_full : norm n = 65535 ↔ n ≠ 0 ∧ n % 65535 = 0 := by
  unfold norm
  split <;> omega

@[simp] theorem norm_norm (n : Nat) : norm (norm n) = norm n := norm_of_le (norm_le n)

theorem norm_add_congr (h : norm a = norm a') (h' : norm b = norm b') :
    norm (a + b) = norm (a' + b') := by
  rw [norm_eq_iff] at *
  omega

theorem norm_mul_congr (k : Nat) (h : norm a = norm b) : norm (k * a) = norm (k * b) := by
  rw [norm_eq_iff] at *
  obtain ⟨hzero, hmod⟩ := h
  refine ⟨by simp [hzero], ?_⟩
  rw [Nat.mul_mod, hmod, ← Nat.mul_mod]

@[simp] theorem norm_norm_add (a b : Nat) : norm (norm a + b) = norm (a + b) :=
  norm_add_congr (norm_norm a) rfl

/-- Folding the carries in once. -/
theorem norm_fold (n : Nat) : norm (n % 65536 + n / 65536) = norm n := by
  rw [norm_eq_iff]
  omega

/-- A sum and its complement. -/
theorem norm_add_complement (n : Nat) : norm (n + (65535 - norm n)) = 65535 := by
  have hle := norm_le n
  have hmod := norm_mod n
  rw [norm_eq_full]
  by_cases hn : n = 0
  · subst hn
    simp
  · have := (norm_eq_zero (n := n)).not.mpr hn
    omega

/-- A word of a right sum is replaced. -/
theorem mod_eq_zero_replace {s s' w w' : Nat} (hs : s % 65535 = 0) (h : s' + w = s + w') :
    s' % 65535 = 0 ↔ w % 65535 = w' % 65535 := by
  have hmod : (s' + w) % 65535 = w' % 65535 := by
    rw [h, Nat.add_mod, hs, Nat.zero_add, Nat.mod_mod]
  constructor
  · intro hz
    rw [← hmod, Nat.add_mod, hz, Nat.zero_add, Nat.mod_mod]
  · intro hw
    rw [← hmod] at hw
    omega

/-! ### Swapping the bytes of a word -/

theorem norm_square (n : Nat) : norm (256 ^ 2 * n) = norm n := by
  rw [norm_eq_iff]
  omega

/-- Only the parity of the exponent matters. -/
theorem norm_pow (h : j % 2 = k % 2) (n : Nat) : norm (256 ^ j * n) = norm (256 ^ k * n) := by
  have hparity : ∀ j, norm (256 ^ j * n) = norm (256 ^ (j % 2) * n) := by
    intro j
    induction j using Nat.twoStepInduction with
    | zero => rfl
    | one => rfl
    | more j ih _ =>
        rw [show j.succ.succ % 2 = j % 2 by omega, ← ih, pow_add, mul_comm (256 ^ j), mul_assoc]
        exact norm_square _
  rw [hparity j, h, ← hparity k]

/-- A swap of the two bytes multiplies by `256`. -/
theorem norm_swap (h : n ≤ 65535) : n % 256 * 256 + n / 256 = norm (256 * n) := by
  rcases Nat.eq_zero_or_pos n with rfl | hpos
  · rfl
  · rw [norm_pos (by omega)]
    omega

/-! ### Bytes -/

/-- The words that the bytes form, added up. -/
def sum : List UInt8 → Nat
  | [] => 0
  | [x] => 256 * x.toNat
  | x :: y :: bs => 256 * x.toNat + y.toNat + sum bs

@[simp] theorem sum_nil : sum [] = 0 := rfl

@[simp] theorem sum_pair (x y : UInt8) (bs : List UInt8) :
    sum (x :: y :: bs) = 256 * x.toNat + y.toNat + sum bs := rfl

theorem sum_le (bs : List UInt8) : sum bs ≤ 65535 * ((bs.length + 1) / 2) := by
  induction bs using sum.induct with
  | case1 => exact Nat.zero_le _
  | case2 x =>
      have := x.toNat_lt
      simp only [sum, List.length_singleton]
      omega
  | case3 x y bs ih =>
      have := x.toNat_lt
      have := y.toNat_lt
      simp only [sum, List.length_cons]
      omega

/-- A byte in front moves all others on by one place. -/
theorem sum_cons (x : UInt8) (bs : List UInt8) :
    ∃ k, 256 * (x.toNat + sum bs) = sum (x :: bs) + 65535 * k ∧
      (sum (x :: bs) = 0 → x.toNat + sum bs = 0) := by
  induction bs using sum.induct generalizing x with
  | case1 => exact ⟨0, by simp [sum], by simp [sum]⟩
  | case2 y => exact ⟨y.toNat, by simp only [sum]; omega, by simp only [sum]; omega⟩
  | case3 y z bs ih =>
      obtain ⟨k, hk, hzero⟩ := ih z
      exact ⟨k + y.toNat, by rw [sum_pair, sum_pair]; omega, by rw [sum_pair, sum_pair]; omega⟩

theorem norm_sum_cons (x : UInt8) (bs : List UInt8) :
    norm (sum (x :: bs)) = norm (256 * (x.toNat + sum bs)) := by
  obtain ⟨k, hk, hzero⟩ := sum_cons x bs
  rw [norm_eq_iff]
  omega

/-- **The sum of bytes that are cut anywhere.** -/
theorem norm_sum_append (bs cs : List UInt8) :
    norm (sum (bs ++ cs)) = norm (sum bs + 256 ^ bs.length * sum cs) := by
  induction bs with
  | nil => simp
  | cons x bs ih =>
      have htail := norm_add_congr (a := x.toNat) rfl ih
      calc norm (sum (x :: (bs ++ cs)))
          = norm (256 * (x.toNat + sum (bs ++ cs))) := norm_sum_cons x (bs ++ cs)
        _ = norm (256 * (x.toNat + (sum bs + 256 ^ bs.length * sum cs))) := norm_mul_congr 256 htail
        _ = norm (256 * (x.toNat + sum bs) + 256 ^ (bs.length + 1) * sum cs) := by ring_nf
        _ = norm (sum (x :: bs) + 256 ^ (bs.length + 1) * sum cs) :=
            norm_add_congr (norm_sum_cons x bs).symm rfl

theorem sum_append_even {bs : List UInt8} (h : bs.length % 2 = 0) (cs : List UInt8) :
    sum (bs ++ cs) = sum bs + sum cs := by
  induction bs using sum.induct with
  | case1 => simp
  | case2 x => simp at h
  | case3 x y bs ih =>
      simp only [List.length_cons] at h
      simp only [List.cons_append, sum_pair]
      rw [ih (by omega)]
      omega

end Xell.Ones
