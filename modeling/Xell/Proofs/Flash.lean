/-
The page checksum is a double-error-correcting code.

The feedback polynomial of `calcecc` is a product of two polynomials of degree 13.  The first
is the minimal polynomial of an element `α` of order 8191, and the second vanishes at `α ^ 3`,
so that the register keeps the syndromes of what it has seen at both.  The 26 bits that are
stored then cancel those of the page before them, up to what the two inversions add, which is
the same for every page.  Two checked pages have the same syndromes, and the general bound
applies, since the 4224 bits of a page are fewer than 8191.
-/
import Mathlib.FieldTheory.IsAlgClosed.AlgebraicClosure
import Xell.Flash
import Xell.Lib.Bch

namespace Xell.Flash

open Bch

/-! ### The roots of the feedback polynomial -/

section roots

variable {K : Type*} [Field K] {α : K}

/-- The polynomial whose roots the code is built on. -/
def Root (α : K) : Prop := α ^ 13 + α ^ 4 + α ^ 3 + α + 1 = 0

variable [CharP K 2]

theorem Root.pow_8192 (hα : Root α) : α ^ 8192 = α := by
  unfold Root at hα
  have h128 : α ^ 128 = α ^ 12 + α ^ 11 + α ^ 9 + α ^ 6 + α ^ 5 + 1 := by grind
  have h1024 : α ^ 1024 = α ^ 12 + α ^ 10 + α ^ 3 + α ^ 2 := by
    rw [show α ^ 1024 = (α ^ 128) ^ 8 by ring, h128]
    grind
  rw [show α ^ 8192 = (α ^ 1024) ^ 8 by ring, h1024]
  grind

omit [CharP K 2] in
theorem Root.ne_zero (hα : Root α) : α ≠ 0 := by
  rintro rfl
  simp [Root] at hα

theorem Root.ne_one (hα : Root α) : α ≠ 1 := by
  rintro rfl
  have h2 : (2 : K) = 0 := CharTwo.two_eq_zero
  have h1 : (1 : K) = 0 := by
    unfold Root at hα
    linear_combination hα - 2 * h2
  exact one_ne_zero h1

/-- The order divides the prime 8191. -/
theorem Root.orderOf (hα : Root α) : orderOf α = 8191 := by
  have hpow : α ^ 8191 = 1 := by
    have h : α * α ^ 8191 = α * 1 := by
      rw [← pow_succ', mul_one]
      exact hα.pow_8192
    exact mul_left_cancel₀ hα.ne_zero h
  have : Fact (Nat.Prime 8191) := ⟨by norm_num⟩
  exact orderOf_eq_prime hpow hα.ne_one

omit [CharP K 2] in
/-- What is below the leading coefficients is the reflected `eccPoly`. -/
theorem syndrome_eccPoly (β : K) :
    syndrome β 27 eccPoly.getLsbD
      = β ^ 26 + β ^ 23 + β ^ 22 + β ^ 20 + β ^ 18 + β ^ 16 + β ^ 12 + β ^ 10 + β ^ 8 + β ^ 6
        + β ^ 3 + β + 1 := by
  simp [syndrome, Finset.sum_range_succ, eccPoly]

theorem eccPoly_high {k : Nat} (hk : 26 < k) : eccPoly.getLsbD k = false := by
  rcases Nat.lt_or_ge k 32 with hlt | hge
  · interval_cases k <;> decide
  · exact BitVec.getLsbD_of_ge _ _ hge

omit [CharP K 2] in
theorem feedback_of_root {β : K} (h : syndrome β 27 eccPoly.getLsbD = 0) :
    Feedback β 26 eccPoly where
  low := by decide
  high := fun _ hk => eccPoly_high hk
  root := h

theorem Root.feedback (hα : Root α) : Feedback α 26 eccPoly := by
  refine feedback_of_root ?_
  rw [syndrome_eccPoly]
  unfold Root at hα
  grind

theorem Root.feedback_cube (hα : Root α) : Feedback (α ^ 3) 26 eccPoly := by
  refine feedback_of_root ?_
  rw [syndrome_eccPoly]
  unfold Root at hα
  have hcube : (α ^ 3) ^ 13 + (α ^ 3) ^ 10 + (α ^ 3) ^ 9 + (α ^ 3) ^ 7 + (α ^ 3) ^ 5
      + (α ^ 3) ^ 4 + 1 = 0 := by
    grind
  grind

end roots

open Polynomial in
/-- There is a field with such an element. -/
theorem exists_root : ∃ α : AlgebraicClosure (ZMod 2), Root α := by
  have hdeg : (X ^ 13 + X ^ 4 + X ^ 3 + X + 1 : Polynomial (ZMod 2)).degree ≠ 0 := by
    have h13 : (X ^ 13 + X ^ 4 + X ^ 3 + X + 1 : Polynomial (ZMod 2)).degree = 13 := by
      compute_degree!
    rw [h13]
    decide
  obtain ⟨α, hα⟩ := IsAlgClosed.exists_aeval_eq_zero (AlgebraicClosure (ZMod 2)) _ hdeg
  exact ⟨α, by simpa [Root] using hα⟩

/-! ### What the register sees -/

/-- The words of a page come out lowest bit of the lowest byte first. -/
theorem bswap32_loadWord (p : Mem UInt8) (a : Nat) {j : Nat} (hj : j < 32) :
    (bswap32 (loadWord p a)).getLsbD j = pageBit p (8 * a + j) := by
  obtain ⟨q, r, hr, rfl⟩ : ∃ q r, r < 8 ∧ j = 8 * q + r :=
    ⟨j / 8, j % 8, Nat.mod_lt _ (by decide), by omega⟩
  have hq : q < 4 := by omega
  unfold pageBit
  rw [show (8 * a + (8 * q + r)) / 8 = a + q by omega, show (8 * a + (8 * q + r)) % 8 = r by omega]
  unfold bswap32 loadWord
  interval_cases q <;> interval_cases r <;> simp

theorem and_one_ne_zero (x : BitVec 32) : (x &&& 1 ≠ 0) ↔ x.getLsbD 0 = true := by
  have h : x &&& 1 = BitVec.setWidth 32 (BitVec.ofBool (x.getLsbD 0)) :=
    BitVec.and_one_eq_setWidth_ofBool_getLsbD
  rw [h]
  cases x.getLsbD 0 <;> decide

/-- The state before turn `n`: `v` holds what is left of the current word, inverted. -/
structure EccAt (p : Mem UInt8) (n : Nat) (s : EccState) : Prop where
  data : s.data = 4 * ((n + 31) / 32)
  v : ∀ j, n % 32 ≠ 0 → n % 32 + j < 32 → s.v.getLsbD j = !pageBit p (n + j)

@[simp] theorem eccLoad_val (p : Mem UInt8) (i : Nat) (s : EccState) :
    (eccLoad p i s).val = s.val := by
  unfold eccLoad
  split <;> rfl

theorem eccStep_eq (p : Mem UInt8) (i : Nat) (s : EccState) :
    eccStep p i s =
      { val := tick eccPoly (s.val ^^^ ((eccLoad p i s).v &&& 1))
        v := (eccLoad p i s).v >>> 1
        data := (eccLoad p i s).data } := by
  simp only [eccStep, tick, and_one_ne_zero, eccLoad_val]

theorem eccLoad_v {p : Mem UInt8} {n : Nat} {s : EccState} (h : EccAt p n s) {j : Nat}
    (hj : n % 32 + j < 32) : (eccLoad p n s).v.getLsbD j = !pageBit p (n + j) := by
  have hand : n &&& 31 = n % 32 := Nat.and_two_pow_sub_one_eq_mod n 5
  unfold eccLoad
  by_cases hn : n % 32 = 0
  · rw [if_pos (by rw [hand]; exact hn)]
    show (~~~bswap32 (loadWord p s.data)).getLsbD j = _
    rw [BitVec.getLsbD_not, bswap32_loadWord p s.data (by omega), h.data,
      show 8 * (4 * ((n + 31) / 32)) + j = n + j by omega]
    simp [show j < 32 by omega]
  · rw [if_neg (by rw [hand]; exact hn)]
    exact h.v j hn hj

theorem eccStep_at {p : Mem UInt8} {n : Nat} {s : EccState} (h : EccAt p n s) :
    EccAt p (n + 1) (eccStep p n s) := by
  have hand : n &&& 31 = n % 32 := Nat.and_two_pow_sub_one_eq_mod n 5
  rw [eccStep_eq]
  refine ⟨?_, ?_⟩
  · show (eccLoad p n s).data = _
    unfold eccLoad
    by_cases hn : n % 32 = 0
    · rw [if_pos (by rw [hand]; exact hn)]
      show s.data + 4 = _
      rw [h.data]
      omega
    · rw [if_neg (by rw [hand]; exact hn), h.data]
      omega
  · intro j hmod hj
    show ((eccLoad p n s).v >>> 1).getLsbD j = _
    rw [BitVec.getLsbD_ushiftRight, eccLoad_v h (by omega), Nat.add_assoc]

theorem eccLoop_eccAt (p : Mem UInt8) (v : BitVec 32) (n : Nat) :
    EccAt p n (eccLoop p { val := 0, v := v, data := 0 } n) := by
  induction n with
  | zero => exact ⟨rfl, fun j hmod => absurd rfl hmod⟩
  | succ n ih => exact eccStep_at ih

/-- What a turn shifts: the register with a bit of the page added at its end. -/
theorem feed_fits {val v : BitVec 32} (h : Fits 26 val) : Fits 26 (val ^^^ (v &&& 1)) := by
  intro k hk
  rw [BitVec.getLsbD_xor, h k hk, BitVec.getLsbD_and]
  simp [show k ≠ 0 by omega]

/-- The register has 26 bits. -/
theorem eccLoop_fits (p : Mem UInt8) (v : BitVec 32) (n : Nat) :
    Fits 26 (eccLoop p { val := 0, v := v, data := 0 } n).val := by
  induction n with
  | zero => simp [eccLoop, Fits]
  | succ n ih =>
      show Fits 26 (eccStep p n _).val
      rw [eccStep_eq]
      exact tick_fits (fun _ hk => eccPoly_high hk) (feed_fits ih)

/-- **The register depends on what it has seen**, and on nothing else. -/
theorem eccLoop_val_congr {p q : Mem UInt8} (v : BitVec 32) {n : Nat}
    (h : ∀ i < n, pageBit p i = pageBit q i) :
    (eccLoop p { val := 0, v := v, data := 0 } n).val
      = (eccLoop q { val := 0, v := v, data := 0 } n).val := by
  induction n with
  | zero => rfl
  | succ n ih =>
      have hp := eccLoad_v (eccLoop_eccAt p v n) (j := 0) (by omega)
      have hq := eccLoad_v (eccLoop_eccAt q v n) (j := 0) (by omega)
      rw [Nat.add_zero] at hp hq
      show (eccStep p n _).val = (eccStep q n _).val
      rw [eccStep_eq, eccStep_eq]
      dsimp only
      rw [ih fun i hi => h i (by omega)]
      have hand : ∀ x : BitVec 32, x &&& 1 = BitVec.setWidth 32 (BitVec.ofBool (x.getLsbD 0)) :=
        fun x => BitVec.and_one_eq_setWidth_ofBool_getLsbD
      rw [hand, hand, hp, hq, h n (by omega)]

section syndromes

variable {K : Type*} [Field K] [CharP K 2] {β : K}

/-- **The register holds the syndrome of what it has seen**, and of 26 bits more. -/
theorem eccLoop_syndrome (hβ : Feedback β 26 eccPoly) (p : Mem UInt8) (v : BitVec 32) (n : Nat) :
    syndrome β 26 (eccLoop p { val := 0, v := v, data := 0 } n).val.getLsbD
      = syndrome β n (fun i => !pageBit p i) * β ^ 26 := by
  induction n with
  | zero => simp [eccLoop, syndrome]
  | succ n ih =>
      have hfeed := eccLoad_v (eccLoop_eccAt p v n) (j := 0) (by omega)
      show syndrome β 26 (eccStep p n _).val.getLsbD = _
      rw [eccStep_eq, syndrome_tick hβ (feed_fits (eccLoop_fits p v n)),
        syndrome_feed β 25 (by decide), hfeed, ih, syndrome_succ, Nat.add_zero]
      ring

end syndromes

/-! ### A checked page -/

/-- The 26 check bits are zero. -/
def CheckZero (p : Mem UInt8) : Prop := ∀ i, 0x1066 ≤ i → i < 0x210 * 8 → pageBit p i = false

/-- What `calcecc` covers stays as it is. -/
theorem pageBit_calcecc_lt (p : Mem UInt8) {i : Nat} (hi : i < 0x1066) :
    pageBit (calcecc p) i = pageBit p i := by
  unfold pageBit calcecc
  rcases Nat.lt_or_ge i 4192 with hlt | hge
  · rw [Mem.store_outside _ _ (by omega), Mem.store_outside _ _ (by omega),
      Mem.store_outside _ _ (by omega), Mem.store_outside _ _ (by omega)]
  · -- the six covered bits of the byte whose upper two are check bits
    have hdiv : i / 8 = 0x20C := by omega
    rw [hdiv, Mem.store_outside _ _ (by omega), Mem.store_outside _ _ (by omega),
      Mem.store_outside _ _ (by omega)]
    have hat := Mem.store_at p (0x200 + 0xC) (n := 1) (i := 0)
      (fun _ => p (0x200 + 0xC) ||| UInt8.ofBitVec (((eccVal p <<< 6) &&& 0xC0).setWidth 8))
      (by decide)
    rw [show (0x20C : Nat) = 0x200 + 0xC + 0 from rfl, hat]
    obtain ⟨r, rfl⟩ : ∃ r, i = 4192 + r := ⟨i - 4192, by omega⟩
    have hr : r < 6 := by omega
    interval_cases r <;> simp

/-- The check bits are those of the register. -/
theorem pageBit_calcecc_ge {p : Mem UInt8} (h : CheckZero p) {k : Nat} (hk : k < 26) :
    pageBit (calcecc p) (0x1066 + k) = (eccVal p).getLsbD k := by
  have h6 := h 4198 (by decide) (by decide)
  have h7 := h 4199 (by decide) (by decide)
  unfold pageBit at h6 h7 ⊢
  unfold calcecc
  interval_cases k <;> simp [Mem.store] at h6 h7 ⊢ <;> simp [h6, h7]

/-- Only four bytes are written. -/
theorem calcecc_outside (p : Mem UInt8) {a : Nat} (h : a < 0x20C ∨ 0x210 ≤ a) :
    calcecc p a = p a := by
  unfold calcecc
  dsimp only
  rw [Mem.store_outside _ _ (by omega), Mem.store_outside _ _ (by omega),
    Mem.store_outside _ _ (by omega), Mem.store_outside _ _ (by omega)]

theorem eccVal_congr {p q : Mem UInt8} (h : ∀ i < 0x1066, pageBit p i = pageBit q i) :
    eccVal p = eccVal q := by
  unfold eccVal
  rw [eccLoop_val_congr 0 h]

/-- The check bits of a page that has them are the same. -/
theorem calcecc_calcecc (p : Mem UInt8) : calcecc (calcecc p) = calcecc p := by
  have hval : eccVal (calcecc p) = eccVal p :=
    eccVal_congr fun i hi => pageBit_calcecc_lt p hi
  funext a
  by_cases ha : a < 0x20C ∨ 0x210 ≤ a
  · exact calcecc_outside _ ha
  · obtain ⟨k, hk, rfl⟩ : ∃ k < 4, a = 0x20C + k := ⟨a - 0x20C, by omega, by omega⟩
    -- The register is the same, and its two lowest bits are in their byte already.
    unfold calcecc at hval ⊢
    dsimp only at hval ⊢
    rw [hval]
    interval_cases k
    · simp [Mem.store, UInt8.or_assoc]
    · simp [Mem.store]
    · simp [Mem.store]
    · simp [Mem.store]

section syndromes

variable {K : Type*} [Field K] [CharP K 2] {β : K}

/-- **The stored bits cancel the syndrome of the page**, up to what the inversions add. -/
theorem syndrome_calcecc (hβ : Feedback β 26 eccPoly) {p : Mem UInt8} (h : CheckZero p) :
    syndrome β (0x210 * 8) (pageBit (calcecc p))
      = syndrome β 0x1066 (fun _ => true) * β ^ 26 + syndrome β 26 (fun _ => true) := by
  have hsyn := eccLoop_syndrome hβ p 0 0x1066
  have hcheck : syndrome β 26 (fun k => pageBit (calcecc p) (0x1066 + k))
      = syndrome β 26 (fun _ => true)
        + syndrome β 0x1066 (fun i => !pageBit p i) * β ^ 26 := by
    rw [← hsyn, ← syndrome_not]
    refine syndrome_congr β fun k hk => ?_
    rw [pageBit_calcecc_ge h hk, eccVal, BitVec.getLsbD_not]
    simp [show k < 32 by omega]
  have hbody : syndrome β 0x1066 (pageBit (calcecc p)) = syndrome β 0x1066 (pageBit p) :=
    syndrome_congr β fun i hi => pageBit_calcecc_lt p hi
  rw [show 0x210 * 8 = 0x1066 + 26 from rfl, syndrome_add, hcheck, hbody, syndrome_not]
  have h2 : (2 : K) = 0 := CharTwo.two_eq_zero
  linear_combination (syndrome β 0x1066 (pageBit p) * β ^ 26) * h2

end syndromes

/--
**What `calcecc` touches.**  If the check bits of a page are zero, the bits before them stay as
they are, the check bits that are stored depend on these alone, they are the 26 bits of the
register, no other byte is written, and a second run changes nothing.
-/
theorem calcecc_check_field {p : Mem UInt8} (h : CheckZero p) :
    (∀ i < 0x1066, pageBit (calcecc p) i = pageBit p i) ∧
      (∀ q, CheckZero q → (∀ i < 0x1066, pageBit q i = pageBit p i) →
        ∀ k < 26, pageBit (calcecc q) (0x1066 + k) = pageBit (calcecc p) (0x1066 + k)) ∧
      (∀ k < 26, pageBit (calcecc p) (0x1066 + k) = (eccVal p).getLsbD k) ∧
      Fits 26 (~~~eccVal p) ∧
      (∀ a, a < 0x20C ∨ 0x210 ≤ a → calcecc p a = p a) ∧
      calcecc (calcecc p) = calcecc p := by
  refine ⟨fun i hi => pageBit_calcecc_lt p hi, ?_, fun k hk => pageBit_calcecc_ge h hk, ?_,
    fun a ha => calcecc_outside p ha, calcecc_calcecc p⟩
  · intro q hq hsame k hk
    rw [pageBit_calcecc_ge hq hk, pageBit_calcecc_ge h hk, eccVal_congr hsame]
  · unfold eccVal
    rw [BitVec.not_not]
    exact eccLoop_fits p 0 0x1066

theorem calcecc_check_field_one :
    let p : Mem UInt8 := fun a => if a = 0 then 1 else 0
    CheckZero p ∧ pageBit (calcecc p) 0 = true ∧ calcecc p 0x20B = 0 ∧
      calcecc (calcecc p) = calcecc p := by
  intro p
  have hcheck : CheckZero p := by
    intro i hlo _
    simp [p, pageBit, show ¬i / 8 = 0 by omega]
  obtain ⟨hbits, -, -, -, hbytes, hagain⟩ := calcecc_check_field hcheck
  refine ⟨hcheck, ?_, ?_, hagain⟩
  · rw [hbits 0 (by decide)]
    decide
  · rw [hbytes 0x20B (by decide)]
    rfl

theorem calcecc_distance {p q : Mem UInt8} (hp : CheckZero p) (hq : CheckZero q)
    (hne : ∃ i < 0x210 * 8, pageBit (calcecc p) i ≠ pageBit (calcecc q) i) :
    5 ≤ distance (0x210 * 8) (pageBit (calcecc p)) (pageBit (calcecc q)) := by
  obtain ⟨α, hα⟩ := exists_root
  refine five_le_distance (α := α) ?_ ?_ ?_ hne
  · rw [hα.orderOf]
    decide
  · rw [syndrome_calcecc hα.feedback hp, syndrome_calcecc hα.feedback hq]
  · rw [syndrome_calcecc hα.feedback_cube hp, syndrome_calcecc hα.feedback_cube hq]

/-- A page as `calcecc` leaves it. -/
def Valid (p : Mem UInt8) : Prop :=
  ∃ q, CheckZero q ∧ ∀ i < 0x210 * 8, pageBit p i = pageBit (calcecc q) i

theorem Valid.distance_ge {p q : Mem UInt8} (hp : Valid p) (hq : Valid q)
    (hne : ∃ i < 0x210 * 8, pageBit p i ≠ pageBit q i) :
    5 ≤ distance (0x210 * 8) (pageBit p) (pageBit q) := by
  obtain ⟨p', hp', hpp⟩ := hp
  obtain ⟨q', hq', hqq⟩ := hq
  rw [distance_congr hpp hqq]
  obtain ⟨i, hi, hd⟩ := hne
  exact calcecc_distance hp' hq' ⟨i, hi, by rw [← hpp i hi, ← hqq i hi]; exact hd⟩

theorem valid_calcecc {p : Mem UInt8} (hp : CheckZero p) : Valid (calcecc p) :=
  ⟨p, hp, fun _ _ => rfl⟩

/-- Whatever the image holds, the pages that are written are valid. -/
theorem updatePage_valid (xell : Mem UInt8) (fileSize addr j physPos eraseblockSize : Nat)
    (block : Mem UInt8) :
    Valid (updatePage xell fileSize addr j physPos eraseblockSize block) := by
  unfold updatePage
  refine valid_calcecc ?_
  intro i hlo hhi
  unfold pageBit storeWord
  rw [Mem.store_outside _ _ (by omega), Mem.store_outside _ _ (by omega)]
  simp [Mem.store, show 0x200 ≤ i / 8 ∧ i / 8 < 0x210 by omega]

/--
**The page checksum has minimum distance five.**  Pages that differ where they are covered are
at least five bits apart once they are checked.  So no corruption of one to four bits of a
valid page gives another valid one, and no page is within two bits of two different ones.
-/
theorem calcecc_min_distance :
    (∀ p q, CheckZero p → CheckZero q → (∃ i < 0x1066, pageBit p i ≠ pageBit q i) →
      5 ≤ distance (0x210 * 8) (pageBit (calcecc p)) (pageBit (calcecc q))) ∧
    (∀ p r, Valid p → 1 ≤ distance (0x210 * 8) (pageBit p) (pageBit r) →
      distance (0x210 * 8) (pageBit p) (pageBit r) ≤ 4 → ¬Valid r) ∧
    (∀ p q r, Valid p → Valid q → distance (0x210 * 8) (pageBit p) (pageBit r) ≤ 2 →
      distance (0x210 * 8) (pageBit q) (pageBit r) ≤ 2 →
      ∀ i < 0x210 * 8, pageBit p i = pageBit q i) := by
  refine ⟨?_, ?_, ?_⟩
  · intro p q hp hq hne
    obtain ⟨i, hi, hd⟩ := hne
    refine calcecc_distance hp hq ⟨i, by omega, ?_⟩
    rw [pageBit_calcecc_lt p hi, pageBit_calcecc_lt q hi]
    exact hd
  · intro p r hp hpos hle hr
    have := hp.distance_ge hr (distance_pos.mp hpos)
    omega
  · intro p q r hp hq hpr hqr i hi
    by_contra hd
    have hfive := hp.distance_ge hq ⟨i, hi, hd⟩
    have htri := distance_triangle (0x210 * 8) (pageBit p) (pageBit r) (pageBit q)
    rw [distance_comm _ (pageBit r)] at htri
    omega

/-- Two pages that differ in their first bit. -/
theorem calcecc_min_distance_zero :
    5 ≤ distance (0x210 * 8) (pageBit (calcecc fun _ => 0))
      (pageBit (calcecc fun a => if a = 0 then 1 else 0)) := by
  refine calcecc_min_distance.1 _ _ ?_ ?_ ⟨0, by decide, by decide⟩
  · intro i _ _
    simp [pageBit]
  · intro i hlo _
    simp [pageBit, show ¬i / 8 = 0 by omega]

end Xell.Flash
