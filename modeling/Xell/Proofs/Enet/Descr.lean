/-
Descriptors and buffers.

What both rings need of them: the words come back out of `swap32` as they went in, a word of
one descriptor is no word of another, only word 1 says whose a descriptor is, and the buffers
lie side by side at addresses the chip can reach.
-/
import Xell.Enet
import Xell.Lib.Slots

namespace Xell.Enet

/-! ### Words -/

@[simp] theorem swap32_swap32 (v : BitVec 32) : swap32 (swap32 v) = v := by
  refine BitVec.eq_of_getLsbD_eq fun i hi => ?_
  unfold swap32
  interval_cases i <;> simp

variable {descr : Mem (BitVec 32)} {i j k : Nat} {w : BitVec 32}

/-- Only word 1 says whose a descriptor is. -/
theorem busy_update_other (h : k ≠ 1) (hk : k < 4) (w : BitVec 32) :
    busy (Function.update descr (i * 4 + k) w) j = busy descr j := by
  unfold busy
  rw [Function.update_of_ne (by omega)]

theorem busy_update_ne (h : j ≠ i) (hk : k < 4) (w : BitVec 32) :
    busy (Function.update descr (i * 4 + k) w) j = busy descr j := by
  unfold busy
  rw [Function.update_of_ne (by omega)]

/-- Word 1 with bit 31 set hands a descriptor over. -/
theorem busy_give (h : w &&& 0x80000000 ≠ 0) :
    busy (Function.update descr (i * 4 + 1) (swap32 w)) i = true := by
  unfold busy
  rw [Function.update_self, swap32_swap32]
  exact decide_eq_true h

/-- What the chip writes gives it back. -/
theorem busy_release :
    busy (Function.update descr (i * 4 + 1) (release (descr (i * 4 + 1)))) i = false := by
  unfold busy release
  rw [Function.update_self, swap32_swap32, BitVec.and_assoc]
  simp

/-- A word keeps its value as long as only others are written. -/
theorem word_update_ne {l : Nat} (h : j ≠ i ∨ k ≠ l) (hk : k < 4) (hl : l < 4) (w : BitVec 32) :
    Function.update descr (i * 4 + k) w (j * 4 + l) = descr (j * 4 + l) := by
  rw [Function.update_of_ne (by omega)]

/-! ### Buffers -/

/-- The buffers of a ring lie side by side. -/
theorem buffers_apart {b d k n l : Nat} (h : d ≠ k) (hn : n ≤ mtu) (hl : l ≤ mtu) :
    b + k * mtu + l ≤ b + d * mtu ∨ b + d * mtu + n ≤ b + k * mtu := by
  unfold mtu at *
  rcases Nat.lt_or_gt_of_ne h with hlt | hgt
  · have := Nat.mul_le_mul_right 1528 (Nat.succ_le_of_lt hlt)
    omega
  · have := Nat.mul_le_mul_right 1528 (Nat.succ_le_of_lt hgt)
    omega

end Xell.Enet
