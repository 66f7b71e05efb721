/-
Double-error-correcting codes from a shift register.

A word of `n` bits is read as a polynomial, its first bit the highest coefficient, and its
syndrome at `β` is the value of that polynomial there.  Two words with the same syndromes at
`α` and at `α ^ 3` differ in at least five bits, or not at all, as long as `n` is at most the
order of `α`: the powers of `α` at which they differ are distinct, and in characteristic two
no one to four distinct elements have both sum and sum of cubes zero.

What produces such words is a feedback shift register.  It holds its bits in reflected order,
lowest bit the highest coefficient, and `tick` is one turn.  If the feedback polynomial
vanishes at `β`, a turn multiplies the value of the register at `β` and adds the bit that was
fed in, so that the register holds the syndrome of what it has seen.
-/
import Mathlib.Tactic
import Mathlib.Algebra.CharP.Two

namespace Xell.Bch

open Finset

variable {K : Type*} [Field K]

/-- A bit as a field element. -/
def bit (b : Bool) : K := if b then 1 else 0

@[simp] theorem bit_false : bit false = (0 : K) := rfl

@[simp] theorem bit_true : bit true = (1 : K) := rfl

theorem bit_xor [CharP K 2] (a b : Bool) : bit (a ^^ b) = (bit a + bit b : K) := by
  cases a <;> cases b <;> simp [CharTwo.add_self_eq_zero]

theorem bit_not [CharP K 2] (b : Bool) : bit (!b) = (1 + bit b : K) := by
  cases b <;> simp [CharTwo.add_self_eq_zero]

/-! ### Syndromes -/

/-- The first `n` bits of `c` as a polynomial, evaluated at `β`. -/
def syndrome (β : K) (n : Nat) (c : Nat → Bool) : K :=
  ∑ i ∈ range n, bit (c i) * β ^ (n - 1 - i)

theorem syndrome_zero (β : K) (c : Nat → Bool) : syndrome β 0 c = 0 := by
  simp [syndrome]

/-- Horner's rule. -/
theorem syndrome_succ (β : K) (n : Nat) (c : Nat → Bool) :
    syndrome β (n + 1) c = syndrome β n c * β + bit (c n) := by
  unfold syndrome
  rw [sum_range_succ, sum_mul, Nat.add_sub_cancel, Nat.sub_self, pow_zero, mul_one]
  congr 1
  refine sum_congr rfl fun i hi => ?_
  have hi := mem_range.mp hi
  rw [mul_assoc, ← pow_succ, show n - 1 - i + 1 = n - i by omega]

theorem syndrome_add (β : K) (n k : Nat) (c : Nat → Bool) :
    syndrome β (n + k) c = syndrome β n c * β ^ k + syndrome β k fun i => c (n + i) := by
  induction k with
  | zero => simp [syndrome_zero]
  | succ k ih =>
      rw [← Nat.add_assoc, syndrome_succ, ih, syndrome_succ]
      ring

theorem syndrome_congr (β : K) {n : Nat} {c d : Nat → Bool} (h : ∀ i < n, c i = d i) :
    syndrome β n c = syndrome β n d :=
  sum_congr rfl fun i hi => by rw [h i (mem_range.mp hi)]

/-- Flipping every bit moves the syndrome by one and the same amount. -/
theorem syndrome_not [CharP K 2] (β : K) (n : Nat) (c : Nat → Bool) :
    syndrome β n (fun i => !c i) = syndrome β n (fun _ => true) + syndrome β n c := by
  unfold syndrome
  rw [← sum_add_distrib]
  refine sum_congr rfl fun i _ => ?_
  rw [bit_not, bit_true]
  ring

/-! ### Distance -/

/-- The positions below `n` where two words differ. -/
def differ (n : Nat) (c d : Nat → Bool) : Finset Nat := (range n).filter fun i => c i ≠ d i

/-- The Hamming distance of the first `n` bits. -/
def distance (n : Nat) (c d : Nat → Bool) : Nat := (differ n c d).card

theorem distance_congr {n : Nat} {c c' d d' : Nat → Bool} (hc : ∀ i < n, c i = c' i)
    (hd : ∀ i < n, d i = d' i) : distance n c d = distance n c' d' := by
  unfold distance differ
  congr 1
  refine filter_congr fun i hi => ?_
  rw [hc i (mem_range.mp hi), hd i (mem_range.mp hi)]

theorem distance_comm (n : Nat) (c d : Nat → Bool) : distance n c d = distance n d c := by
  unfold distance differ
  congr 1
  exact filter_congr fun i _ => ne_comm

theorem distance_triangle (n : Nat) (c d e : Nat → Bool) :
    distance n c e ≤ distance n c d + distance n d e := by
  refine (card_le_card ?_).trans (card_union_le _ _)
  intro i hi
  obtain ⟨hin, hne⟩ := mem_filter.mp hi
  rcases eq_or_ne (c i) (d i) with heq | hcd
  · exact mem_union_right _ (mem_filter.mpr ⟨hin, heq ▸ hne⟩)
  · exact mem_union_left _ (mem_filter.mpr ⟨hin, hcd⟩)

theorem distance_pos {n : Nat} {c d : Nat → Bool} :
    0 < distance n c d ↔ ∃ i < n, c i ≠ d i := by
  unfold distance differ
  rw [card_pos]
  constructor
  · rintro ⟨i, hi⟩
    obtain ⟨hin, hne⟩ := mem_filter.mp hi
    exact ⟨i, mem_range.mp hin, hne⟩
  · rintro ⟨i, hin, hne⟩
    exact ⟨i, mem_filter.mpr ⟨mem_range.mpr hin, hne⟩⟩

/-! ### Power sums -/

variable [CharP K 2]

theorem eq_of_add_eq_zero {x y : K} (h : x + y = 0) : x = y := by
  rw [← CharTwo.add_self_eq_zero y] at h
  exact add_right_cancel h

theorem no_three {x y z : K} (hx : x ≠ 0) (hy : y ≠ 0) (hxy : x ≠ y)
    (h1 : x + (y + z) = 0) (h3 : x ^ 3 + (y ^ 3 + z ^ 3) = 0) : False := by
  have h2 : (2 : K) = 0 := CharTwo.two_eq_zero
  have hz : z = x + y := (eq_of_add_eq_zero (by rw [← h1]; ring)).symm
  have hprod : x * (y * (x + y)) = 0 := by
    subst hz
    linear_combination h3 - (x ^ 3 + y ^ 3 + x ^ 2 * y + x * y ^ 2) * h2
  have hs : x + y ≠ 0 := fun h => hxy (eq_of_add_eq_zero h)
  exact mul_ne_zero hx (mul_ne_zero hy hs) hprod

theorem no_four {x y z w : K} (hxy : x ≠ y) (hxz : x ≠ z) (hxw : x ≠ w)
    (h1 : x + (y + (z + w)) = 0) (h3 : x ^ 3 + (y ^ 3 + (z ^ 3 + w ^ 3)) = 0) : False := by
  have h2 : (2 : K) = 0 := CharTwo.two_eq_zero
  have hs : x + y ≠ 0 := fun h => hxy (eq_of_add_eq_zero h)
  have hw : w = x + y + z := (eq_of_add_eq_zero (by rw [← h1]; ring)).symm
  -- two pairs with the same sum and the same product are the same pair
  have hprod : (x + y) * ((x + z) * (x + w)) = 0 := by
    subst hw
    linear_combination h3 - (y ^ 3 + z ^ 3 + x * y * z + y ^ 2 * z + y * z ^ 2 + x * y ^ 2
      + x * z ^ 2) * h2
  have hxz' : x + z ≠ 0 := fun h => hxz (eq_of_add_eq_zero h)
  have hxw' : x + w ≠ 0 := fun h => hxw (eq_of_add_eq_zero h)
  exact mul_ne_zero hs (mul_ne_zero hxz' hxw') hprod

/-- **Fewer than five distinct elements cannot have both sum and sum of cubes zero.** -/
theorem five_le_card {s : Finset K} (h0 : (0 : K) ∉ s) (hs : s.Nonempty)
    (h1 : ∑ x ∈ s, x = 0) (h3 : ∑ x ∈ s, x ^ 3 = 0) : 5 ≤ s.card := by
  classical
  by_contra hlt
  have hcard : s.card = 1 ∨ s.card = 2 ∨ s.card = 3 ∨ s.card = 4 := by
    have := hs.card_pos
    omega
  rcases hcard with hc | hc | hc | hc
  · obtain ⟨x, rfl⟩ := card_eq_one.mp hc
    simp at h1 h0
    exact h0 h1.symm
  · obtain ⟨x, y, hxy, rfl⟩ := card_eq_two.mp hc
    rw [sum_pair hxy] at h1
    exact hxy (eq_of_add_eq_zero h1)
  · obtain ⟨x, y, z, hxy, hxz, hyz, rfl⟩ := card_eq_three.mp hc
    have hx : x ∉ ({y, z} : Finset K) := by simp [hxy, hxz]
    rw [sum_insert hx, sum_pair hyz] at h1 h3
    simp only [mem_insert, mem_singleton, not_or] at h0
    exact no_three (Ne.symm h0.1) (Ne.symm h0.2.1) hxy h1 h3
  · obtain ⟨x, t, hx, rfl, ht⟩ := card_eq_succ.mp hc
    obtain ⟨y, z, w, hyz, hyw, hzw, rfl⟩ := card_eq_three.mp ht
    have hy : y ∉ ({z, w} : Finset K) := by simp [hyz, hyw]
    rw [sum_insert hx, sum_insert hy, sum_pair hzw] at h1 h3
    simp only [mem_insert, mem_singleton, not_or] at hx
    exact no_four hx.1 hx.2.1 hx.2.2 h1 h3

/-- The difference of two syndromes is the sum over the positions where the words differ. -/
theorem syndrome_add_syndrome (β : K) (n : Nat) (c d : Nat → Bool) :
    syndrome β n c + syndrome β n d = ∑ i ∈ differ n c d, β ^ (n - 1 - i) := by
  unfold syndrome differ
  rw [← sum_add_distrib, sum_filter]
  refine sum_congr rfl fun i _ => ?_
  cases c i <;> cases d i <;> simp [CharTwo.add_self_eq_zero]

/-- **Words with the same syndromes at `α` and `α ^ 3` are at least five bits apart.** -/
theorem five_le_distance {α : K} {n : Nat} (hα : n ≤ orderOf α) {c d : Nat → Bool}
    (h1 : syndrome α n c = syndrome α n d)
    (h3 : syndrome (α ^ 3) n c = syndrome (α ^ 3) n d)
    (hne : ∃ i < n, c i ≠ d i) : 5 ≤ distance n c d := by
  classical
  have hα0 : α ≠ 0 := by
    rintro rfl
    obtain ⟨j, hj, -⟩ := hne
    have h01 := pow_orderOf_eq_one (0 : K)
    rw [zero_pow (by omega)] at h01
    exact zero_ne_one h01
  have hinj : Set.InjOn (fun i => α ^ (n - 1 - i)) (differ n c d) := by
    intro i hi j hj hij
    have hi := mem_range.mp (mem_filter.mp hi).1
    have hj := mem_range.mp (mem_filter.mp hj).1
    have hexp : n - 1 - i = n - 1 - j :=
      pow_injOn_Iio_orderOf (Set.mem_Iio.mpr (by omega)) (Set.mem_Iio.mpr (by omega)) hij
    omega
  have hzero : ∀ β : K, syndrome β n c = syndrome β n d →
      ∑ i ∈ differ n c d, β ^ (n - 1 - i) = 0 := by
    intro β h
    rw [← syndrome_add_syndrome, h, CharTwo.add_self_eq_zero]
  rw [distance, ← card_image_of_injOn hinj]
  refine five_le_card ?_ ?_ ?_ ?_
  · intro hmem
    obtain ⟨i, hi, hpow⟩ := mem_image.mp hmem
    exact pow_ne_zero _ hα0 hpow
  · exact (card_pos.mp (distance_pos.mpr hne)).image _
  · rw [sum_image hinj]
    exact hzero α h1
  · rw [sum_image hinj]
    calc ∑ i ∈ differ n c d, (α ^ (n - 1 - i)) ^ 3
        = ∑ i ∈ differ n c d, (α ^ 3) ^ (n - 1 - i) :=
          sum_congr rfl fun i _ => by rw [← pow_mul, ← pow_mul, Nat.mul_comm]
      _ = 0 := hzero _ h3

/-! ### The shift register -/

variable {N : Nat}

/-- One turn of a register with feedback `poly`, after the next bit was added to `val`. -/
def tick (poly val : BitVec N) : BitVec N := (if val.getLsbD 0 then val ^^^ poly else val) >>> 1

/-- A feedback for a register of `w` bits: a polynomial of degree `w` that vanishes at `β`. -/
structure Feedback (β : K) (w : Nat) (poly : BitVec N) : Prop where
  low : poly.getLsbD 0 = true
  high : ∀ k, w < k → poly.getLsbD k = false
  root : syndrome β (w + 1) poly.getLsbD = 0

/-- No bit from `w` on is set. -/
def Fits (w : Nat) (val : BitVec N) : Prop := ∀ k, w ≤ k → val.getLsbD k = false

variable {β : K} {w : Nat} {poly val : BitVec N}

theorem tick_fits (hhigh : ∀ k, w < k → poly.getLsbD k = false) (hval : Fits w val) :
    Fits w (tick poly val) := by
  intro k hk
  unfold tick
  rw [BitVec.getLsbD_ushiftRight]
  split
  · rw [BitVec.getLsbD_xor, hval _ (by omega), hhigh _ (by omega)]
    rfl
  · exact hval _ (by omega)

omit [CharP K 2] in
/-- The lowest bit is the one that a shift would lose. -/
theorem syndrome_shift (hlow : val.getLsbD 0 = false) :
    syndrome β w (val >>> 1).getLsbD = syndrome β (w + 1) val.getLsbD := by
  rw [Nat.add_comm w 1, syndrome_add, syndrome_succ, syndrome_zero, hlow, bit_false, zero_mul,
    add_zero, zero_mul, zero_add]
  exact syndrome_congr β fun i _ => BitVec.getLsbD_ushiftRight ..

theorem syndrome_xor (β : K) (n : Nat) (x y : BitVec N) :
    syndrome β n (x ^^^ y).getLsbD = syndrome β n x.getLsbD + syndrome β n y.getLsbD := by
  unfold syndrome
  rw [← sum_add_distrib]
  refine sum_congr rfl fun i _ => ?_
  rw [BitVec.getLsbD_xor, bit_xor]
  ring

/-- Adding a bit to the lowest one adds it to the highest coefficient. -/
theorem syndrome_feed (β : K) (w : Nat) (hN : 1 < N) (val v : BitVec N) :
    syndrome β (w + 1) (val ^^^ (v &&& 1)).getLsbD
      = syndrome β (w + 1) val.getLsbD + bit (v.getLsbD 0) * β ^ w := by
  rw [syndrome_xor]
  congr 1
  unfold syndrome
  rw [sum_eq_single 0]
  · rw [BitVec.getLsbD_and, Nat.sub_zero, Nat.add_sub_cancel]
    simp [show 0 < N by omega]
  · intro i _ hi
    rw [BitVec.getLsbD_and]
    simp [hi]
  · intro h
    simp at h

/-- A turn multiplies the value of the register by `β`. -/
theorem syndrome_tick (hp : Feedback β w poly) (hval : Fits w val) :
    syndrome β w (tick poly val).getLsbD = syndrome β w val.getLsbD * β := by
  have hsucc : syndrome β (w + 1) val.getLsbD = syndrome β w val.getLsbD * β := by
    rw [syndrome_succ, hval w (Nat.le_refl w), bit_false, add_zero]
  unfold tick
  split
  · next hbit =>
      rw [syndrome_shift (by rw [BitVec.getLsbD_xor, hbit, hp.low]; rfl), syndrome_xor, hp.root,
        add_zero, hsucc]
  · next hbit =>
      rw [syndrome_shift (by simpa using hbit), hsucc]

end Xell.Bch
