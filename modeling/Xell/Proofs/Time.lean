/-
What the time functions of `time.c` measure.

The lower difference is the whole difference of two counts, for `l` is the whole count.  The
upper difference is added to it once more, so that every multiple of 2^32 between two readings
counts as another 95 seconds (`tbDiff_toNat`).  A measurement is right exactly if there is none.

A delay ends when its measurement says so.  It can end early exactly if such a multiple lies
within the requested time: one tick before its end the measurement is already past it.
-/
import Xell.Time

namespace Xell.Time

/-- The counts of two readings have the same upper half: no multiple of 2^32 lies between them. -/
def SameUpper (t t' : Nat) : Prop := t / 2 ^ 32 = t' / 2 ^ 32

section Diff

variable {perUpper perLower : BitVec 64} {t₀ t₁ : BitVec 64}

/-- What a difference of two readings is. -/
theorem tbDiff_toNat (hupper : perUpper.toNat < 2 ^ 31) (hlower : 4 ≤ perLower.toNat)
    (h : t₀.toNat ≤ t₁.toNat) :
    (tbDiff perUpper perLower (mftb t₁) (mftb t₀)).toNat
      = (t₁.toNat / 2 ^ 32 - t₀.toNat / 2 ^ 32) * perUpper.toNat
        + (t₁.toNat - t₀.toNat) / perLower.toNat := by
  have hlt₁ := t₁.isLt
  have hlt₀ := t₀.isLt
  have hu : ∀ t : BitVec 64, (t >>> 32).toNat = t.toNat / 2 ^ 32 := by
    intro t
    rw [BitVec.toNat_ushiftRight, Nat.shiftRight_eq_div_pow]
  have hle : t₀.toNat / 2 ^ 32 ≤ t₁.toNat / 2 ^ 32 := Nat.div_le_div_right h
  have hupperDiff : (t₁ >>> 32 - t₀ >>> 32).toNat = t₁.toNat / 2 ^ 32 - t₀.toNat / 2 ^ 32 := by
    rw [BitVec.toNat_sub, hu, hu]
    omega
  have hlowerDiff : (t₁ - t₀).toNat = t₁.toNat - t₀.toNat := by
    rw [BitVec.toNat_sub]
    omega
  have hmul : (t₁.toNat / 2 ^ 32 - t₀.toNat / 2 ^ 32) * perUpper.toNat ≤ 2 ^ 32 * 2 ^ 31 :=
    Nat.mul_le_mul (by omega) (by omega)
  have hdiv : (t₁.toNat - t₀.toNat) / perLower.toNat ≤ (t₁.toNat - t₀.toNat) / 4 :=
    Nat.div_le_div_left hlower (by decide)
  unfold tbDiff mftb
  dsimp only
  rw [if_neg (show ¬ t₁ < t₀ from Nat.not_lt.mpr h), BitVec.toNat_add, BitVec.toNat_mul,
    hupperDiff, BitVec.toNat_udiv, hlowerDiff, Nat.mod_eq_of_lt (by omega),
    Nat.mod_eq_of_lt (by omega)]

/-- The difference is right exactly if no multiple of 2^32 lies between the readings. -/
theorem tbDiff_right_iff (hupper : perUpper.toNat < 2 ^ 31) (hpos : 0 < perUpper.toNat)
    (hlower : 4 ≤ perLower.toNat) (h : t₀.toNat ≤ t₁.toNat) :
    (tbDiff perUpper perLower (mftb t₁) (mftb t₀)).toNat
        = (t₁.toNat - t₀.toNat) / perLower.toNat ↔ SameUpper t₀.toNat t₁.toNat := by
  have hle : t₀.toNat / 2 ^ 32 ≤ t₁.toNat / 2 ^ 32 := Nat.div_le_div_right h
  rw [tbDiff_toNat hupper hlower h]
  unfold SameUpper
  constructor
  · intro heq
    have hzero : (t₁.toNat / 2 ^ 32 - t₀.toNat / 2 ^ 32) * perUpper.toNat = 0 := by omega
    rcases Nat.mul_eq_zero.mp hzero with hsub | hper
    · omega
    · omega
  · intro heq
    rw [heq, Nat.sub_self, Nat.zero_mul, Nat.zero_add]

end Diff

/-! ### Delays -/

section Delay

variable {diff : Tb → Tb → BitVec 64} {clock : Nat → BitVec 64}

theorem delayLoop_stop {start : Tb} {amount : BitVec 64} {k : Nat}
    (h : diff (mftb (clock k)) start ≥ amount) :
    delayLoop diff clock start amount k = Part.some k := by
  refine Part.eq_some_iff.mpr (PFun.fix_stop ?_)
  rw [delayTurn, if_pos h]
  exact Part.mem_some _

/-- A delay ends at a reading whose measurement is enough. -/
theorem delayLoop_ends {start : Tb} {amount : BitVec 64} {k r : Nat}
    (h : delayLoop diff clock start amount k = Part.some r) :
    diff (mftb (clock r)) start ≥ amount := by
  refine PFun.fixInduction' (C := fun _ => diff (mftb (clock r)) start ≥ amount)
    (Part.eq_some_iff.mp h) ?_ ?_
  · intro k hk
    unfold delayTurn at hk
    split at hk
    · obtain rfl := Sum.inl.inj (Part.mem_some_iff.mp hk)
      assumption
    · cases Part.mem_some_iff.mp hk
  · intro k k' _ _ ih
    exact ih

/-- The readings of a clock that does not go back. -/
def Forward (clock : Nat → BitVec 64) : Prop := ∀ k, (clock k).toNat ≤ (clock (k + 1)).toNat

theorem Forward.from_start (h : Forward clock) (k : Nat) : (clock 0).toNat ≤ (clock k).toNat := by
  induction k with
  | zero => exact Nat.le_refl _
  | succ k ih => exact Nat.le_trans ih (h k)

/-- A delay of `amount` units of `ticks` ticks that starts at the count `t` never ends early,
whatever its readings find. -/
def NeverEarly (delay : (Nat → BitVec 64) → BitVec 32 → Part Nat) (ticks : Nat) (t : BitVec 64)
    (amount : BitVec 32) : Prop :=
  ∀ clock : Nat → BitVec 64, clock 0 = t → Forward clock →
    ∀ k, delay clock amount = Part.some k → amount.toNat * ticks ≤ (clock k).toNat - t.toNat

/-- No multiple of 2^32 lies within the requested time. -/
def Quiet (ticks : Nat) (t : BitVec 64) (amount : BitVec 32) : Prop :=
  amount.toNat = 0 ∨ SameUpper t.toNat (t.toNat + amount.toNat * ticks - 1)

/-- The count is `t` at first, and `last` at every later reading. -/
def jump (t last : BitVec 64) (k : Nat) : BitVec 64 := if k = 0 then t else last

theorem jump_forward {t last : BitVec 64} (h : t.toNat ≤ last.toNat) : Forward (jump t last) := by
  intro k
  unfold jump
  rw [if_neg (Nat.succ_ne_zero k)]
  split
  · exact h
  · exact Nat.le_refl _

variable {perUpper perLower : BitVec 64} {t : BitVec 64} {amount : BitVec 32}

theorem amount_toNat (amount : BitVec 32) : (amount.setWidth 64).toNat = amount.toNat := by
  have hlt := amount.isLt
  rw [BitVec.toNat_setWidth, Nat.mod_eq_of_lt (by omega)]

/-- One tick before the end of the requested time, a multiple of 2^32 makes up for the tick. -/
theorem quiet_of_neverEarly (hupper : perUpper.toNat < 2 ^ 31) (hpos : 0 < perUpper.toNat)
    (hlower : 4 ≤ perLower.toNat) (hend : t.toNat + amount.toNat * perLower.toNat ≤ 2 ^ 64)
    (h : NeverEarly (delayBy (tbDiff perUpper perLower)) perLower.toNat t amount) :
    Quiet perLower.toNat t amount := by
  by_cases hzero : amount.toNat = 0
  · exact Or.inl hzero
  refine Or.inr ?_
  by_contra hcross
  have hticks : 0 < amount.toNat * perLower.toNat := Nat.mul_pos (by omega) (by omega)
  obtain ⟨last, hlast⟩ : ∃ last : BitVec 64,
      last.toNat = t.toNat + amount.toNat * perLower.toNat - 1 := by
    refine ⟨BitVec.ofNat 64 (t.toNat + amount.toNat * perLower.toNat - 1), ?_⟩
    rw [BitVec.toNat_ofNat, Nat.mod_eq_of_lt (by omega)]
  have hle : t.toNat ≤ last.toNat := by omega
  have hunits : (last.toNat - t.toNat) / perLower.toNat = amount.toNat - 1 := by
    obtain ⟨m, hm⟩ : ∃ m, amount.toNat = m + 1 := ⟨amount.toNat - 1, by omega⟩
    have hcount : last.toNat - t.toNat = perLower.toNat * m + (perLower.toNat - 1) := by
      rw [hlast, hm, Nat.add_mul, Nat.mul_comm m]
      omega
    rw [hcount, hm, Nat.mul_add_div (by omega), Nat.div_eq_of_lt (by omega)]
    rfl
  have hcarry : 1 ≤ (last.toNat / 2 ^ 32 - t.toNat / 2 ^ 32) * perUpper.toNat := by
    have hdiv : t.toNat / 2 ^ 32 ≤ last.toNat / 2 ^ 32 := Nat.div_le_div_right hle
    unfold SameUpper at hcross
    rw [← hlast] at hcross
    exact Nat.mul_pos (by omega) hpos
  have henough : tbDiff perUpper perLower (mftb last) (mftb t) ≥ amount.setWidth 64 := by
    show (amount.setWidth 64).toNat ≤ _
    rw [amount_toNat, tbDiff_toNat hupper hlower hle, hunits]
    omega
  have hends : delayBy (tbDiff perUpper perLower) (jump t last) amount = Part.some 1 :=
    delayLoop_stop henough
  have hearly := h (jump t last) rfl (jump_forward hle) 1 hends
  have hat : jump t last 1 = last := rfl
  rw [hat] at hearly
  omega

theorem neverEarly_of_quiet (hupper : perUpper.toNat < 2 ^ 31) (hpos : 0 < perUpper.toNat)
    (hlower : 4 ≤ perLower.toNat) (hquiet : Quiet perLower.toNat t amount) :
    NeverEarly (delayBy (tbDiff perUpper perLower)) perLower.toNat t amount := by
  intro clock hstart hforward k hk
  have hle : t.toNat ≤ (clock k).toNat := by
    rw [← hstart]
    exact hforward.from_start k
  have hmeasured : (amount.setWidth 64).toNat
      ≤ (tbDiff perUpper perLower (mftb (clock k)) (mftb (clock 0))).toNat := delayLoop_ends hk
  rw [hstart, amount_toNat] at hmeasured
  by_contra hearly
  -- the reading lies within the requested time, so it was measured right
  have hsame : SameUpper t.toNat (clock k).toNat := by
    rcases hquiet with hzero | hquiet
    · rw [hzero] at hearly
      omega
    · have hdiv : (clock k).toNat / 2 ^ 32
          ≤ (t.toNat + amount.toNat * perLower.toNat - 1) / 2 ^ 32 :=
        Nat.div_le_div_right (by omega)
      have hdiv' : t.toNat / 2 ^ 32 ≤ (clock k).toNat / 2 ^ 32 := Nat.div_le_div_right hle
      unfold SameUpper at hquiet ⊢
      omega
  rw [(tbDiff_right_iff hupper hpos hlower hle).mpr hsame,
    Nat.le_div_iff_mul_le (by omega)] at hmeasured
  omega

theorem neverEarly_iff (hupper : perUpper.toNat < 2 ^ 31) (hpos : 0 < perUpper.toNat)
    (hlower : 4 ≤ perLower.toNat) (hend : t.toNat + amount.toNat * perLower.toNat ≤ 2 ^ 64) :
    NeverEarly (delayBy (tbDiff perUpper perLower)) perLower.toNat t amount ↔
      Quiet perLower.toNat t amount :=
  ⟨quiet_of_neverEarly hupper hpos hlower hend, neverEarly_of_quiet hupper hpos hlower⟩

end Delay

/--
**When time is measured right.**  Each of the functions gives the time between two readings
exactly if they have the same upper half, and each of the delays is sure not to end early exactly
if no multiple of 2^32 lies within the requested time.
-/
theorem elapsed_iff (t₀ t₁ : BitVec 64) (h : t₀.toNat ≤ t₁.toNat) (amount : BitVec 32) :
    ((tbDiffSec (mftb t₁) (mftb t₀)).toNat = (t₁.toNat - t₀.toNat) / 45000000 ↔
        SameUpper t₀.toNat t₁.toNat) ∧
      ((tbDiffMsec (mftb t₁) (mftb t₀)).toNat = (t₁.toNat - t₀.toNat) / (45000000 / 1000) ↔
        SameUpper t₀.toNat t₁.toNat) ∧
      ((tbDiffUsec (mftb t₁) (mftb t₀)).toNat = (t₁.toNat - t₀.toNat) / (45000000 / 1000000) ↔
        SameUpper t₀.toNat t₁.toNat) ∧
      (t₀.toNat + amount.toNat * 45000000 ≤ 2 ^ 64 →
        (NeverEarly delay 45000000 t₀ amount ↔ Quiet 45000000 t₀ amount)) ∧
      (t₀.toNat + amount.toNat * 45000 ≤ 2 ^ 64 →
        (NeverEarly mdelay 45000 t₀ amount ↔ Quiet 45000 t₀ amount)) ∧
      (t₀.toNat + amount.toNat * 45 ≤ 2 ^ 64 →
        (NeverEarly udelay 45 t₀ amount ↔ Quiet 45 t₀ amount)) := by
  refine ⟨?_, ?_, ?_, fun hend => ?_, fun hend => ?_, fun hend => ?_⟩
  · exact tbDiff_right_iff (by decide) (by decide) (by decide) h
  · exact tbDiff_right_iff (by decide) (by decide) (by decide) h
  · exact tbDiff_right_iff (by decide) (by decide) (by decide) h
  · exact neverEarly_iff (by decide) (by decide) (by decide) hend
  · exact neverEarly_iff (by decide) (by decide) (by decide) hend
  · exact neverEarly_iff (by decide) (by decide) (by decide) hend

/-- Readings 90 seconds apart, in one turn of the lower half. -/
theorem elapsed_ninety_seconds :
    (tbDiffSec (mftb 4060000000) (mftb 10000000)).toNat = 90 ∧
      NeverEarly delay 45000000 10000000 90 := by
  obtain ⟨hsec, -, -, hdelay, -⟩ := elapsed_iff 10000000 4060000000 (by decide) 90
  refine ⟨hsec.mpr ?_, (hdelay (by decide)).mpr (Or.inr ?_)⟩
  · unfold SameUpper
    decide
  · unfold SameUpper
    decide

/-- One tick over a multiple of 2^32 measures as 95 seconds, and a delay of 15 seconds ends with
it. -/
theorem one_tick_is_long :
    (tbDiffSec (mftb 0x100000000) (mftb 0xFFFFFFFF)).toNat = 95 ∧
      delay (jump 0xFFFFFFFF 0x100000000) 15 = Part.some 1 ∧
      ¬ NeverEarly delay 45000000 0xFFFFFFFF 15 := by
  have hends : delay (jump 0xFFFFFFFF 0x100000000) 15 = Part.some 1 :=
    delayLoop_stop (by decide)
  refine ⟨by decide, hends, fun h => ?_⟩
  have hearly := h (jump 0xFFFFFFFF 0x100000000) rfl (jump_forward (by decide)) 1 hends
  exact absurd hearly (by decide)

end Xell.Time
