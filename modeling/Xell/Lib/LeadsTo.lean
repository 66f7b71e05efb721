/-
Progress along infinite runs.

A run is seen as a sequence of instants, and a property of its states as a predicate on
them.  `P` leads to `Q` if every instant of `P` is followed, at once or later, by one of
`Q`.  The rule to get there: `P` can only be left towards `Q`, and time and again there
is an instant at which it cannot be kept.
-/
import Mathlib.Tactic

namespace Xell

/-- Every instant of `P` is followed by an instant of `Q`. -/
def LeadsTo (P Q : Nat → Prop) : Prop := ∀ n, P n → ∃ k, n ≤ k ∧ Q k

namespace LeadsTo

variable {P Q R : Nat → Prop}

theorem trans (hPQ : LeadsTo P Q) (hQR : LeadsTo Q R) : LeadsTo P R := by
  intro n hn
  obtain ⟨k, hk, hq⟩ := hPQ n hn
  obtain ⟨l, hl, hr⟩ := hQR k hq
  exact ⟨l, Nat.le_trans hk hl, hr⟩

/-- Two ways on are as good as one if both lead to the same. -/
theorem or_left (hP : LeadsTo P R) (hQ : LeadsTo Q R) : LeadsTo (fun n => P n ∨ Q n) R := by
  rintro n (hp | hq)
  · exact hP n hp
  · exact hQ n hq

/-- The rule for fair runs: what cannot be kept forever is left. -/
theorem of_fair (hstep : ∀ n, P n → P (n + 1) ∨ Q (n + 1))
    (hfair : ∀ n, ∃ k, n ≤ k ∧ (P k → Q (k + 1))) : LeadsTo P Q := by
  intro n hn
  obtain ⟨k, hk, hleave⟩ := hfair n
  -- up to `k` the run stays in `P` or has come to `Q`
  have hup : ∀ d, (∃ i, n ≤ i ∧ Q i) ∨ P (n + d) := by
    intro d
    induction d with
    | zero => exact Or.inr hn
    | succ d ih =>
        rcases ih with hq | hp
        · exact Or.inl hq
        · rcases hstep (n + d) hp with hp' | hq
          · exact Or.inr hp'
          · exact Or.inl ⟨n + d + 1, by omega, hq⟩
  rcases hup (k - n) with hq | hp
  · exact hq
  · rw [Nat.add_sub_cancel' hk] at hp
    exact ⟨k + 1, by omega, hleave hp⟩

/-- Stages, one after the other. -/
theorem chain {P : Nat → Nat → Prop} {N : Nat} (h : ∀ b < N, LeadsTo (P b) (P (b + 1))) :
    LeadsTo (P 0) (P N) := by
  induction N with
  | zero => exact fun n hn => ⟨n, Nat.le_refl _, hn⟩
  | succ N ih => exact (ih fun b hb => h b (by omega)).trans (h N (Nat.lt_succ_self N))

end LeadsTo

end Xell
