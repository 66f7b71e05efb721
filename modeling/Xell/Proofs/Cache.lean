/-
Which lines the routines of `cache.S` reach.

The mask in `r5` is `...FFF1`.  It clears bits 1 to 3 of the start address, where `...FF80` would
clear the seven bits of a place in a line.  So the routines start at an address in the first line
and not at its beginning, and step from there by whole lines until the length is used up.  The
last step can then fall short of the line in which the range ends: by the place of the start in
its line, if the rest of the length does not make up for it (`Reaches`).
-/
import Xell.Cache

namespace Xell.Cache

/-- An instruction `op` is given for every line that the range `[a, a + n)` meets. -/
def Covers (given : List (CacheOp × BitVec 64)) (op : CacheOp) (a n : BitVec 64) : Prop :=
  ∀ x, a.toNat ≤ x → x < a.toNat + n.toNat →
    ∃ r, (op, r) ∈ given ∧ r.toNat / 128 = x / 128

/-- Where the routines start. -/
def start (a : Nat) : Nat := a / 16 * 16 + a % 2

/-- The place of the start in its line, and what remains of the length from there on after whole
lines, do not go beyond one line. -/
def Reaches (a n : Nat) : Prop := start a % 128 + (a + n - start a) % 128 ≤ 128

theorem mask_eq : mask = 0xFFFFFFFFFFFFFFF1 := by decide

theorem mask_and (a : BitVec 64) : (mask &&& a).toNat = start a.toNat := by
  have hlt := a.isLt
  rw [mask_eq, BitVec.toNat_and, Nat.and_comm]
  show a.toNat &&& 0xFFFFFFFFFFFFFFF1 = start a.toNat
  have hdiv : (a.toNat &&& 0xFFFFFFFFFFFFFFF1) / 2 ^ 4 = a.toNat / 16 := by
    rw [Nat.and_div_two_pow]
    show a.toNat / 16 &&& (2 ^ 60 - 1) = a.toNat / 16
    rw [Nat.and_two_pow_sub_one_eq_mod]
    omega
  have hmod : (a.toNat &&& 0xFFFFFFFFFFFFFFF1) % 2 ^ 4 = a.toNat % 2 := by
    rw [Nat.and_mod_two_pow]
    show a.toNat % 16 &&& (2 ^ 1 - 1) = a.toNat % 2
    rw [Nat.and_two_pow_sub_one_eq_mod]
    omega
  unfold start
  omega

theorem start_le (a : Nat) : start a ≤ a := by
  unfold start
  omega

/-- The start is in the line of the address. -/
theorem start_div (a : Nat) : start a / 128 = a / 128 := by
  unfold start
  omega

theorem mem_given {ops : List CacheOp} {op : CacheOp} (hop : op ∈ ops) {r r5 : BitVec 64} :
    (op, r) ∈ ops.map (fun op => (op, r5)) ↔ r = r5 := by
  constructor
  · intro h
    obtain ⟨op', -, heq⟩ := List.mem_map.mp h
    exact (Prod.mk.inj heq).2.symm
  · rintro rfl
    exact List.mem_map.mpr ⟨op, hop, rfl⟩

/-- The loop gives its instructions for the address in `r5` and then line by line, as often as
the length in `r4` holds a line. -/
theorem mem_loop {ops : List CacheOp} {op : CacheOp} (hop : op ∈ ops) {r : BitVec 64} :
    ∀ {r4 r5 : BitVec 64}, r4.toNat < 2 ^ 63 → r5.toNat + r4.toNat < 2 ^ 64 →
      ((op, r) ∈ loop ops r4 r5 ↔ ∃ i ≤ r4.toNat / 128, r.toNat = r5.toNat + 128 * i) := by
  intro r4
  induction hl : r4.toNat / 128 generalizing r4 with
  | zero =>
      intro r5 hlen hend
      have hsub : (r4 - cacheSize).toNat = (2 ^ 64 - 128 + r4.toNat) % 2 ^ 64 := BitVec.toNat_sub ..
      rw [loop, if_pos ((slt_zero_iff _).mpr (by omega)), mem_given hop]
      constructor
      · rintro rfl
        exact ⟨0, Nat.le_refl _, rfl⟩
      · rintro ⟨i, hi, hr⟩
        exact BitVec.eq_of_toNat_eq (by omega)
  | succ m ih =>
      intro r5 hlen hend
      have hsub : (r4 - cacheSize).toNat = r4.toNat - 128 := by
        have : (r4 - cacheSize).toNat = (2 ^ 64 - 128 + r4.toNat) % 2 ^ 64 := BitVec.toNat_sub ..
        omega
      have hadd : (r5 + cacheSize).toNat = r5.toNat + 128 := by
        have : (r5 + cacheSize).toNat = (r5.toNat + 128) % 2 ^ 64 := BitVec.toNat_add ..
        omega
      rw [loop, if_neg (fun h => absurd ((slt_zero_iff _).mp h) (by omega)), List.mem_append,
        mem_given hop, ih (by omega) (by omega) (by omega), hadd]
      constructor
      · rintro (rfl | ⟨i, hi, hr⟩)
        · exact ⟨0, Nat.zero_le _, rfl⟩
        · exact ⟨i + 1, by omega, by omega⟩
      · rintro ⟨i, hi, hr⟩
        cases i with
        | zero => exact Or.inl (BitVec.eq_of_toNat_eq (by omega))
        | succ i => exact Or.inr ⟨i, by omega, by omega⟩

/-- **What a routine covers**: the whole range exactly if the last step reaches its last line. -/
theorem routine_covers_iff {ops : List CacheOp} {op : CacheOp} (hop : op ∈ ops) {a n : BitVec 64}
    (hpos : 1 ≤ n.toNat) (hlen : n.toNat < 2 ^ 62) (hend : a.toNat + n.toNat < 2 ^ 64) :
    Covers (routine ops a n) op a n ↔ Reaches a.toNat n.toNat := by
  have hle := start_le a.toNat
  have hline := start_div a.toNat
  have hmask := mask_and a
  have hrest : (subf (mask &&& a) a).toNat = a.toNat - start a.toNat := by
    have hsub : (subf (mask &&& a) a).toNat
        = (2 ^ 64 - (mask &&& a).toNat + a.toNat) % 2 ^ 64 := BitVec.toNat_sub ..
    rw [hmask] at hsub
    omega
  have hsmall : a.toNat - start a.toNat < 16 := by
    unfold start
    omega
  have hr4 : (n + subf (mask &&& a) a).toNat = a.toNat + n.toNat - start a.toNat := by
    have hadd : (n + subf (mask &&& a) a).toNat
        = (n.toNat + (subf (mask &&& a) a).toNat) % 2 ^ 64 := BitVec.toNat_add ..
    rw [hrest] at hadd
    omega
  have hmem : ∀ r, (op, r) ∈ routine ops a n ↔
      ∃ i ≤ (a.toNat + n.toNat - start a.toNat) / 128, r.toNat = start a.toNat + 128 * i := by
    intro r
    have := @mem_loop ops op hop r (n + subf (mask &&& a) a) (mask &&& a) (by omega) (by omega)
    rwa [hr4, hmask] at this
  unfold Covers Reaches
  constructor
  · -- the last byte of the range
    intro h
    obtain ⟨r, hr, hdiv⟩ := h (a.toNat + n.toNat - 1) (by omega) (by omega)
    obtain ⟨i, hi, heq⟩ := (hmem r).mp hr
    omega
  · intro h x hlo hhi
    have hi : x / 128 - start a.toNat / 128 ≤ (a.toNat + n.toNat - start a.toNat) / 128 := by omega
    have hlast : start a.toNat + 128 * (x / 128 - start a.toNat / 128) < 2 ^ 64 := by omega
    refine ⟨BitVec.ofNat 64 (start a.toNat + 128 * (x / 128 - start a.toNat / 128)),
      (hmem _).mpr ⟨_, hi, ?_⟩, ?_⟩
    · rw [BitVec.toNat_ofNat, Nat.mod_eq_of_lt hlast]
    · rw [BitVec.toNat_ofNat, Nat.mod_eq_of_lt hlast]
      omega

/--
**When a range is covered.**  Each of the routines gives its instructions for every line of the
range exactly if its last step reaches the last line.
-/
theorem covers_iff (a n : BitVec 64) (hpos : 1 ≤ n.toNat) (hlen : n.toNat < 2 ^ 62)
    (hend : a.toNat + n.toNat < 2 ^ 64) :
    (Covers (dcacheFlush a n) .dcbst a n ↔ Reaches a.toNat n.toNat) ∧
      (Covers (dcacheInv a n) .dcbf a n ↔ Reaches a.toNat n.toNat) ∧
      (Covers (flushCode a n) .dcbst a n ↔ Reaches a.toNat n.toNat) ∧
      (Covers (flushCode a n) .icbi a n ↔ Reaches a.toNat n.toNat) := by
  refine ⟨?_, ?_, ?_, ?_⟩
  · exact routine_covers_iff (by simp) hpos hlen hend
  · exact routine_covers_iff (by simp) hpos hlen hend
  · exact routine_covers_iff (by simp) hpos hlen hend
  · exact routine_covers_iff (by simp) hpos hlen hend

/-- A section of 300 bytes at the start of a line. -/
theorem flushCode_covers_section :
    Reaches 0x8000000000100000 300 ∧
      Covers (flushCode 0x8000000000100000 300) .icbi 0x8000000000100000 300 := by
  have hreach : Reaches 0x8000000000100000 300 := by
    unfold Reaches start
    decide
  exact ⟨hreach, (covers_iff 0x8000000000100000 300 (by decide) (by decide)
    (by decide)).2.2.2.mpr hreach⟩

/-- A frame of 100 bytes from place 100 of a line on ends in the next line, and only the first
one is flushed. -/
theorem frame_not_covered :
    (1 ≤ (100 : BitVec 64).toNat ∧ (100 : BitVec 64).toNat < 2 ^ 62) ∧
      dcacheFlush 0x8000000004000064 100 = [(.dcbst, 0x8000000004000060)] ∧
      ¬ Covers (dcacheFlush 0x8000000004000064 100) .dcbst 0x8000000004000064 100 := by
  have hgiven : dcacheFlush 0x8000000004000064 100 = [(.dcbst, 0x8000000004000060)] := by
    unfold dcacheFlush routine
    rw [loop]
    decide
  refine ⟨by decide, hgiven, fun h => ?_⟩
  rw [hgiven] at h
  obtain ⟨r, hr, hdiv⟩ := h 0x8000000004000080 (by decide) (by decide)
  obtain ⟨-, rfl⟩ := Prod.mk.inj (List.mem_singleton.mp hr)
  exact absurd hdiv (by decide)

end Xell.Cache
