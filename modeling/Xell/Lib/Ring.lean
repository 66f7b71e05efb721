/-
Ring buffers over a memory.

A ring of `N` cells is a block of memory with two indices: cells are taken at `r` and put
at `w`, and both go back to zero at the end of the block.  Equal indices mean an empty
ring, so a ring of `N` cells can hold no more than `N - 1`.

Copying into a ring and out of it goes in contiguous pieces that stop at the end of the
block, and these are the only two operations here.  Their lemmas say what they do to the
queue, the list of the cells that were put and not yet taken.
-/
import Xell.Lib.Mem

namespace Xell

namespace Ring

variable {α : Type} {N r w n : Nat}

/-- An index `n` cells further on, at most up to the end of the block. -/
def advance (N x n : Nat) : Nat := if x + n = N then 0 else x + n

/-- The number of cells queued. -/
def count (N r w : Nat) : Nat := if r ≤ w then w - r else N - r + w

/-- The cells queued, oldest first. -/
def queue (N : Nat) (m : Mem α) (r w : Nat) : List α :=
  if r ≤ w then m.slice r (w - r) else m.slice r (N - r) ++ m.slice 0 w

@[simp] theorem queue_length (m : Mem α) : (queue N m r w).length = count N r w := by
  unfold queue count
  split
  · rw [Mem.slice_length]
  · rw [List.length_append, Mem.slice_length, Mem.slice_length]

@[simp] theorem queue_self (m : Mem α) : queue N m r r = [] := by
  simp [queue, Mem.slice]

theorem advance_lt (hN : 0 < N) (h : w + n ≤ N) : advance N w n < N := by
  unfold advance
  split <;> omega

theorem count_lt (hr : r < N) (hw : w < N) : count N r w < N := by
  unfold count
  split <;> omega

/-- What is put appears at the end of the queue, as long as the ring does not fill up. -/
theorem queue_store (m : Mem α) (f : Nat → α) (hr : r < N) (hn : w + n ≤ N)
    (hfree : count N r w + n < N) :
    queue N (m.store w n f) r (advance N w n) = queue N m r w ++ (List.range n).map f := by
  have hput := Mem.slice_store m w n f
  by_cases hle : r ≤ w
  · have hcount : count N r w = w - r := if_pos hle
    -- up to the end of the block, the queue grows by the slice just stored
    have hgrow : (m.store w n f).slice r (w - r + n)
        = m.slice r (w - r) ++ (List.range n).map f := by
      rw [Mem.slice_add, Mem.slice_store_before m n f (by omega),
        show r + (w - r) = w by omega, hput]
    rw [show queue N m r w = m.slice r (w - r) from if_pos hle, ← hgrow]
    by_cases hend : w + n = N
    · rw [show advance N w n = 0 from if_pos hend]
      unfold queue
      rw [if_neg (by omega), show N - r = w - r + n by omega]
      simp [Mem.slice]
    · rw [show advance N w n = w + n from if_neg hend]
      unfold queue
      rw [if_pos (by omega), show w + n - r = w - r + n by omega]
  · have hcount : count N r w = N - r + w := if_neg hle
    rw [show advance N w n = w + n from if_neg (by omega)]
    unfold queue
    rw [if_neg (by omega), if_neg hle, Mem.slice_store_after m n f (by omega), Mem.slice_add,
      Mem.slice_store_before m n f (by omega), Nat.zero_add, hput, List.append_assoc]

theorem count_store (hr : r < N) (hw : w < N) (hn : w + n ≤ N) (hfree : count N r w + n < N) :
    count N r (advance N w n) = count N r w + n := by
  unfold count advance at *
  split at hfree <;> split <;> split <;> omega

/-- What is taken comes from the front of the queue, up to the end of the block. -/
theorem queue_take (m : Mem α) (hw : w < N) (hn : r + n ≤ N) (hcount : n ≤ count N r w) :
    queue N m r w = m.slice r n ++ queue N m (advance N r n) w := by
  unfold count at hcount
  by_cases hle : r ≤ w
  · rw [if_pos hle] at hcount
    rw [show advance N r n = r + n from if_neg (by omega)]
    unfold queue
    rw [if_pos hle, if_pos (by omega), ← Mem.slice_add, show n + (w - (r + n)) = w - r by omega]
  · unfold queue
    rw [if_neg hle]
    by_cases hend : r + n = N
    · rw [show advance N r n = 0 from if_pos hend, if_pos (Nat.zero_le _),
        show N - r = n by omega, Nat.sub_zero]
    · rw [show advance N r n = r + n from if_neg hend, if_neg (by omega), ← List.append_assoc,
        ← Mem.slice_add, show n + (N - (r + n)) = N - r by omega]

end Ring

end Xell
