/-
Queues laid out in a circle of slots.

A circle of `N` slots holds a queue: its first item in slot `h`, each further one in the next
slot, the last slot followed by the first.  `P k x` says that slot `k` holds the item `x`, and
`F k` that it is free.  Two parties that go round the circle, one filling slots and one
emptying them, are reasoned about with two rules: an item is pushed where the queue ends, and
popped where it starts, and in both cases only that one slot may change.
-/
import Mathlib.Tactic

namespace Xell

/-- The items `q` lie in the slots from `h` on, and the other slots are free. -/
structure Slots {α : Type} (N h : Nat) (q : List α) (P : Nat → α → Prop) (F : Nat → Prop) :
    Prop where
  fits : q.length ≤ N
  used : ∀ i x, q[i]? = some x → P ((h + i) % N) x
  free : ∀ i, q.length ≤ i → i < N → F ((h + i) % N)

namespace Slots

variable {α : Type} {N h : Nat} {q : List α} {x : α} {P P' : Nat → α → Prop} {F F' : Nat → Prop}

theorem slot_ne {i j : Nat} (hi : i < N) (hj : j < N) (hij : i ≠ j) : (h + i) % N ≠ (h + j) % N := by
  intro heq
  have hmod : i % N = j % N := Nat.ModEq.add_left_cancel' h heq
  rw [Nat.mod_eq_of_lt hi, Nat.mod_eq_of_lt hj] at hmod
  exact hij hmod

theorem slot_zero (hh : h < N) : (h + 0) % N = h := by
  rw [Nat.add_zero, Nat.mod_eq_of_lt hh]

theorem lt_of_getElem? {i : Nat} (h : q[i]? = some x) : i < q.length :=
  (List.getElem?_eq_some_iff.mp h).1

/-- The slot after the queue. -/
def back (N h : Nat) (q : List α) : Nat := (h + q.length) % N

theorem empty (hN : 0 < N) (hF : ∀ k < N, F k) : Slots N h ([] : List α) P F where
  fits := Nat.zero_le N
  used i x hx := by simp at hx
  free i _ _ := hF _ (Nat.mod_lt _ hN)

theorem head (s : Slots N h (x :: q) P F) (hh : h < N) : P h x := by
  have h0 := s.used 0 x rfl
  rwa [slot_zero hh] at h0

theorem back_free (s : Slots N h q P F) (hq : q.length < N) : F (back N h q) :=
  s.free q.length (Nat.le_refl _) hq

theorem head_ne_back (hh : h < N) (hq : (x :: q).length < N) : h ≠ back N h (x :: q) := by
  have hne := slot_ne (h := h) (N := N) (i := 0) (j := (x :: q).length) (by omega) hq
    (by rw [List.length_cons]; omega)
  rwa [slot_zero hh] at hne

/-- Changes to one free slot leave the rest of the circle alone. -/
theorem touch_back (s : Slots N h q P F) (hq : q.length < N)
    (hP : ∀ k < N, k ≠ back N h q → ∀ y, P k y → P' k y) (hF : ∀ k < N, F k → F' k) :
    Slots N h q P' F' where
  fits := s.fits
  used i y hy := by
    have hi := lt_of_getElem? hy
    exact hP _ (Nat.mod_lt _ (by omega)) (slot_ne (by omega) hq (by omega)) y (s.used i y hy)
  free i hi hiN := hF _ (Nat.mod_lt _ (by omega)) (s.free i hi hiN)

/-- **Filling the slot after the queue** appends an item. -/
theorem push (s : Slots N h q P F) (hq : q.length < N) (hx : P' (back N h q) x)
    (hP : ∀ k < N, k ≠ back N h q → ∀ y, P k y → P' k y)
    (hF : ∀ k < N, k ≠ back N h q → F k → F' k) : Slots N h (q ++ [x]) P' F' where
  fits := by
    rw [List.length_append, List.length_singleton]
    omega
  used i y hy := by
    rcases Nat.lt_or_ge i q.length with hi | hi
    · rw [List.getElem?_append_left hi] at hy
      exact hP _ (Nat.mod_lt _ (by omega)) (slot_ne (by omega) hq (by omega)) y (s.used i y hy)
    · have hlen := lt_of_getElem? hy
      rw [List.length_append, List.length_singleton] at hlen
      obtain rfl : i = q.length := by omega
      obtain rfl : x = y := by simpa using hy
      exact hx
  free i hi hiN := by
    rw [List.length_append, List.length_singleton] at hi
    exact hF _ (Nat.mod_lt _ (by omega)) (slot_ne hiN hq (by omega)) (s.free i (by omega) hiN)

/-- The first item may be replaced by another. -/
theorem set_head {y : α} (s : Slots N h (x :: q) P F) (hh : h < N) (hy : P' h y)
    (hP : ∀ k < N, k ≠ h → ∀ z, P k z → P' k z) (hF : ∀ k < N, k ≠ h → F k → F' k) :
    Slots N h (y :: q) P' F' := by
  have hfits := s.fits
  rw [List.length_cons] at hfits
  have hne : ∀ i, i + 1 < N → (h + (i + 1)) % N ≠ h := by
    intro i hi
    have hzero := slot_ne (h := h) (N := N) (i := i + 1) (j := 0) hi (by omega) (by omega)
    rwa [slot_zero hh] at hzero
  refine ⟨by rw [List.length_cons]; omega, ?_, ?_⟩
  · intro i z hz
    cases i with
    | zero =>
        obtain rfl : y = z := by simpa using hz
        rw [slot_zero hh]
        exact hy
    | succ i =>
        have hi := lt_of_getElem? hz
        rw [List.length_cons] at hi
        exact hP _ (Nat.mod_lt _ (by omega)) (hne i (by omega)) z (s.used (i + 1) z hz)
  · intro i hi hiN
    rw [List.length_cons] at hi
    obtain ⟨j, rfl⟩ : ∃ j, i = j + 1 := ⟨i - 1, by omega⟩
    exact hF _ (Nat.mod_lt _ (by omega)) (hne j hiN)
      (s.free (j + 1) (by rw [List.length_cons]; omega) hiN)

/-- **Emptying the first slot** takes the first item. -/
theorem pop (s : Slots N h (x :: q) P F) (hh : h < N) (hfree : F' h)
    (hP : ∀ k < N, k ≠ h → ∀ y, P k y → P' k y) (hF : ∀ k < N, k ≠ h → F k → F' k) :
    Slots N ((h + 1) % N) q P' F' := by
  have hfits := s.fits
  rw [List.length_cons] at hfits
  have hshift : ∀ i, ((h + 1) % N + i) % N = (h + (i + 1)) % N := by
    intro i
    rw [Nat.mod_add_mod]
    congr 1
    omega
  have hne : ∀ i, i + 1 < N → (h + (i + 1)) % N ≠ h := by
    intro i hi
    have hzero := slot_ne (h := h) (N := N) (i := i + 1) (j := 0) hi (by omega) (by omega)
    rwa [slot_zero hh] at hzero
  refine ⟨by omega, ?_, ?_⟩
  · intro i y hy
    have hi := lt_of_getElem? hy
    rw [hshift]
    exact hP _ (Nat.mod_lt _ (by omega)) (hne i (by omega)) y (s.used (i + 1) y hy)
  · intro i hi hiN
    rw [hshift]
    rcases Nat.lt_or_ge (i + 1) N with hlt | hge
    · exact hF _ (Nat.mod_lt _ (by omega)) (hne i hlt)
        (s.free (i + 1) (by rw [List.length_cons]; omega) hlt)
    · -- the slot just emptied is the last of the free ones
      rw [show i + 1 = N by omega, Nat.add_mod_right, Nat.mod_eq_of_lt hh]
      exact hfree

theorem back_pop (N h : Nat) (x : α) (q : List α) :
    back N ((h + 1) % N) q = back N h (x :: q) := by
  unfold back
  rw [Nat.mod_add_mod, List.length_cons]
  congr 1
  omega

theorem back_push (N h : Nat) (x : α) (q : List α) :
    back N h (q ++ [x]) = (back N h q + 1) % N := by
  unfold back
  rw [Nat.mod_add_mod, List.length_append, List.length_singleton]
  congr 1

end Slots

end Xell
