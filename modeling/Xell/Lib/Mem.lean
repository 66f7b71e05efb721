/-
Memories as functions, and the block stores that change them.

A memory is a function from addresses to cells.  `store` overwrites a block of
`n` consecutive cells and leaves the rest alone, which is all that `memcpy`, a
device transfer or a loop of single writes does.  The lemmas say what a store
reads back as, inside and outside its block, and that two adjacent stores are
one: a loop that fills a buffer piece by piece is reasoned about as a single
store that grows at its end.
-/
import Mathlib.Tactic

namespace Xell

/-- A memory: one cell of type `α` at every address. -/
abbrev Mem (α : Type) := Nat → α

namespace Mem

variable {α : Type}

/-- Overwrite the `n` cells from `a` on with `f 0, …, f (n - 1)`. -/
def store (m : Mem α) (a n : Nat) (f : Nat → α) : Mem α :=
  fun x => if a ≤ x ∧ x < a + n then f (x - a) else m x

/-- The `n` cells from `a` on, as a list. -/
def slice (m : Mem α) (a n : Nat) : List α :=
  (List.range n).map fun i => m (a + i)

@[simp] theorem slice_length (m : Mem α) (a n : Nat) : (m.slice a n).length = n := by
  simp [slice]

theorem slice_ne_nil (m : Mem α) (a : Nat) {n : Nat} (hn : n ≠ 0) : m.slice a n ≠ [] := by
  intro hnil
  have hlen := congrArg List.length hnil
  rw [slice_length, List.length_nil] at hlen
  exact hn hlen

theorem store_zero (m : Mem α) (a : Nat) (f : Nat → α) : m.store a 0 f = m := by
  funext x
  unfold store
  rw [if_neg (by omega)]

theorem store_at (m : Mem α) (a : Nat) {n i : Nat} (f : Nat → α) (h : i < n) :
    m.store a n f (a + i) = f i := by
  unfold store
  rw [if_pos (by omega), Nat.add_sub_cancel_left]

theorem store_outside (m : Mem α) {a n x : Nat} (f : Nat → α) (h : x < a ∨ a + n ≤ x) :
    m.store a n f x = m x := by
  unfold store
  rw [if_neg (by omega)]

/-- Two adjacent stores of consecutive pieces of `g` are one store of both. -/
theorem store_append (m : Mem α) (a n k : Nat) (g : Nat → α) :
    (m.store a n g).store (a + n) k (fun i => g (n + i)) = m.store a (n + k) g := by
  funext x
  unfold store
  by_cases hhi : a + n ≤ x ∧ x < a + n + k
  · rw [if_pos hhi, if_pos (by omega)]
    show g (n + (x - (a + n))) = g (x - a)
    rw [show n + (x - (a + n)) = x - a by omega]
  · rw [if_neg hhi]
    by_cases hlo : a ≤ x ∧ x < a + n
    · rw [if_pos hlo, if_pos (by omega)]
    · rw [if_neg hlo, if_neg (by omega)]

/-- The same, for a store of `k` cells that is taken up after the first `n`. -/
theorem store_rest (m : Mem α) (a o : Nat) {n k : Nat} (g : Nat → α) (h : n ≤ k) :
    (m.store a n fun i => g (o + i)).store (a + n) (k - n) (fun i => g (o + n + i))
      = m.store a k fun i => g (o + i) := by
  have happ := store_append m a n (k - n) fun i => g (o + i)
  simp only [← Nat.add_assoc] at happ
  rw [happ, Nat.add_sub_cancel' h]

theorem store_congr (m : Mem α) (a : Nat) {n : Nat} {f g : Nat → α}
    (h : ∀ i < n, f i = g i) : m.store a n f = m.store a n g := by
  funext x
  unfold store
  by_cases hx : a ≤ x ∧ x < a + n
  · rw [if_pos hx, if_pos hx, h (x - a) (by omega)]
  · rw [if_neg hx, if_neg hx]

theorem slice_store (m : Mem α) (a n : Nat) (f : Nat → α) :
    (m.store a n f).slice a n = (List.range n).map f := by
  unfold slice
  refine List.map_congr_left fun i hi => ?_
  exact store_at m a f (List.mem_range.mp hi)

theorem slice_add (m : Mem α) (a n k : Nat) :
    m.slice a (n + k) = m.slice a n ++ m.slice (a + n) k := by
  unfold slice
  rw [List.range_add, List.map_append, List.map_map]
  congr 1
  refine List.map_congr_left fun i _ => ?_
  show m (a + (n + i)) = m (a + n + i)
  rw [Nat.add_assoc]

theorem slice_zero (m : Mem α) (a : Nat) : m.slice a 0 = [] := rfl

theorem slice_one (m : Mem α) (a : Nat) : m.slice a 1 = [m a] := by
  simp [slice]

theorem slice_succ (m : Mem α) (a n : Nat) : m.slice a (n + 1) = m a :: m.slice (a + 1) n := by
  rw [Nat.add_comm n 1, slice_add, slice_one]
  rfl

/-- A list read cell by cell. -/
theorem map_getD (l : List α) (d : α) : (List.range l.length).map (fun i => l.getD i d) = l := by
  refine List.ext_getElem (by simp) fun i h₁ h₂ => ?_
  simp [List.getD_eq_getElem?_getD, h₂]

/-- A store does not change what lies before it. -/
theorem slice_store_before (m : Mem α) {a b n : Nat} (k : Nat) (f : Nat → α) (h : a + n ≤ b) :
    (m.store b k f).slice a n = m.slice a n := by
  unfold slice
  refine List.map_congr_left fun i hi => ?_
  have := List.mem_range.mp hi
  exact store_outside m f (Or.inl (by omega))

/-- Nor what lies behind it. -/
theorem slice_store_after (m : Mem α) {a b n : Nat} (k : Nat) (f : Nat → α) (h : b + k ≤ a) :
    (m.store b k f).slice a n = m.slice a n := by
  unfold slice
  refine List.map_congr_left fun i _ => ?_
  exact store_outside m f (Or.inr (by omega))

/-! ### What may have changed -/

/-- Nothing has changed but in the `n` cells from `a` on. -/
def SameOutside (m m' : Mem α) (a n : Nat) : Prop :=
  ∀ x, x < a ∨ a + n ≤ x → m' x = m x

theorem SameOutside.refl (m : Mem α) (a n : Nat) : SameOutside m m a n := fun _ _ => rfl

theorem SameOutside.trans {m₁ m₂ m₃ : Mem α} {a n : Nat} (h : SameOutside m₁ m₂ a n)
    (h' : SameOutside m₂ m₃ a n) : SameOutside m₁ m₃ a n :=
  fun x hx => (h' x hx).trans (h x hx)

theorem SameOutside.mono {m m' : Mem α} {a n b k : Nat} (h : SameOutside m m' a n) (hb : b ≤ a)
    (hk : a + n ≤ b + k) : SameOutside m m' b k :=
  fun x hx => h x (by omega)

theorem sameOutside_store (m : Mem α) (a n : Nat) (f : Nat → α) :
    SameOutside m (m.store a n f) a n :=
  fun _ hx => store_outside m f hx

/-- A store over all that has changed. -/
theorem SameOutside.store_eq {m m' : Mem α} {a n : Nat} (h : SameOutside m m' a n)
    (f : Nat → α) : m'.store a n f = m.store a n f := by
  funext x
  by_cases hx : a ≤ x ∧ x < a + n
  · unfold store
    rw [if_pos hx, if_pos hx]
  · have hout : x < a ∨ a + n ≤ x := by omega
    rw [store_outside m' f hout, store_outside m f hout, h x hout]

/-! ### Single cells -/

theorem update_eq_store (m : Mem α) (a : Nat) (f : Nat → α) :
    Function.update m a (f 0) = m.store a 1 f := by
  funext x
  by_cases hx : x = a
  · subst hx
    rw [Function.update_self]
    exact (store_at m x f Nat.zero_lt_one).symm
  · rw [Function.update_of_ne hx, store_outside m f (by omega)]

theorem slice_update_outside (m : Mem α) {a n x : Nat} (b : α) (h : x < a ∨ a + n ≤ x) :
    slice (Function.update m x b) a n = m.slice a n := by
  unfold slice
  refine List.map_congr_left fun i hi => ?_
  have := List.mem_range.mp hi
  rw [Function.update_of_ne (by omega)]

theorem slice_update_end (m : Mem α) (a n : Nat) (b : α) :
    slice (Function.update m (a + n) b) a (n + 1) = m.slice a n ++ [b] := by
  rw [slice_add, slice_one, Function.update_self, slice_update_outside m b (by omega)]

end Mem

end Xell
