/-
Words in a memory of bytes.

A word is four bytes, the highest first, and there are halves and doubles of it.  `words` reads a
memory from some address on as an array of words, and the lemmas say what becomes of the array when
a word is stored or a block of words is copied.  A program that moves words about in a memory of
bytes can then be reasoned about as one on the array.
-/
import Xell.Lib.Mem

namespace Xell.Word

variable {m m' : Mem UInt8} {a b : Nat}

/-- The word at `a`. -/
def load (m : Mem UInt8) (a : Nat) : UInt32 :=
  UInt32.ofNat ((m a).toNat * 2 ^ 24 + (m (a + 1)).toNat * 2 ^ 16 + (m (a + 2)).toNat * 2 ^ 8
    + (m (a + 3)).toNat)

/-- Byte `k` of a word. -/
def byte (w : UInt32) (k : Nat) : UInt8 := UInt8.ofNat (w.toNat / 2 ^ (24 - 8 * k))

def store (a : Nat) (w : UInt32) (m : Mem UInt8) : Mem UInt8 := m.store a 4 (byte w)

theorem load_congr (h : ∀ k < 4, m (a + k) = m' (b + k)) : load m a = load m' b := by
  unfold load
  rw [h 1 (by omega), h 2 (by omega), h 3 (by omega), show m a = m' b from h 0 (by omega)]

theorem load_store (m : Mem UInt8) (a : Nat) (w : UInt32) : load (store a w m) a = w := by
  have hbyte : ∀ k < 4, (store a w m (a + k)).toNat = w.toNat / 2 ^ (24 - 8 * k) % 2 ^ 8 := by
    intro k hk
    unfold store
    rw [Mem.store_at m a _ hk]
    exact UInt8.toNat_ofNat'
  have hlt := w.toNat_lt
  have hfirst := hbyte 0 (by omega)
  rw [Nat.add_zero] at hfirst
  apply UInt32.toNat.inj
  unfold load
  rw [UInt32.toNat_ofNat', hfirst, hbyte 1 (by omega), hbyte 2 (by omega), hbyte 3 (by omega)]
  norm_num
  omega

/-- A word that is stored where it is. -/
theorem store_load (m : Mem UInt8) (a : Nat) : store a (load m a) m = m := by
  have hload : (load m a).toNat = (m a).toNat * 2 ^ 24 + (m (a + 1)).toNat * 2 ^ 16
      + (m (a + 2)).toNat * 2 ^ 8 + (m (a + 3)).toNat := by
    have h₀ := (m a).toNat_lt
    have h₁ := (m (a + 1)).toNat_lt
    have h₂ := (m (a + 2)).toNat_lt
    have h₃ := (m (a + 3)).toNat_lt
    unfold load
    rw [UInt32.toNat_ofNat']
    omega
  have hbyte : ∀ k < 4, byte (load m a) k = m (a + k) := by
    intro k hk
    have h₁ := (m (a + 1)).toNat_lt
    have h₂ := (m (a + 2)).toNat_lt
    have h₃ := (m (a + 3)).toNat_lt
    apply UInt8.toNat.inj
    unfold byte
    rw [UInt8.toNat_ofNat', hload]
    have hlt := (m (a + k)).toNat_lt
    interval_cases k <;> norm_num at * <;> omega
  funext x
  by_cases hx : a ≤ x ∧ x < a + 4
  · obtain ⟨k, rfl⟩ := Nat.exists_eq_add_of_le hx.1
    unfold store
    rw [Mem.store_at _ _ _ (by omega)]
    exact hbyte k (by omega)
  · unfold store
    exact Mem.store_outside m _ (by omega)

/-! ### Double words -/

/-- The double word at `a`. -/
def load64 (m : Mem UInt8) (a : Nat) : UInt64 :=
  UInt64.ofNat ((load m a).toNat * 2 ^ 32 + (load m (a + 4)).toNat)

def store64 (a : Nat) (w : UInt64) (m : Mem UInt8) : Mem UInt8 :=
  store (a + 4) (UInt32.ofNat w.toNat) (store a (UInt32.ofNat (w.toNat / 2 ^ 32)) m)

theorem store_outside (w : UInt32) {x : Nat} (h : x < a ∨ a + 4 ≤ x) : store a w m x = m x :=
  Mem.store_outside m _ h

theorem store64_outside (w : UInt64) {x : Nat} (h : x < a ∨ a + 8 ≤ x) : store64 a w m x = m x := by
  unfold store64
  rw [store_outside _ (by omega), store_outside _ (by omega)]

/-- A word is not changed by a store elsewhere. -/
theorem load_store_of_disjoint (w : UInt32) (h : b + 4 ≤ a ∨ a + 4 ≤ b) :
    load (store a w m) b = load m b :=
  load_congr fun _ _ => store_outside w (by omega)

theorem load_store64_of_disjoint (w : UInt64) (h : b + 4 ≤ a ∨ a + 8 ≤ b) :
    load (store64 a w m) b = load m b :=
  load_congr fun _ _ => store64_outside w (by omega)

theorem load64_congr (h : ∀ k < 8, m (a + k) = m' (b + k)) : load64 m a = load64 m' b := by
  have hhi : load m a = load m' b := load_congr fun k hk => h k (by omega)
  have hlo : load m (a + 4) = load m' (b + 4) := by
    refine load_congr fun k hk => ?_
    rw [Nat.add_assoc, Nat.add_assoc]
    exact h (4 + k) (by omega)
  unfold load64
  rw [hhi, hlo]

theorem load64_store_of_disjoint (w : UInt32) (h : b + 8 ≤ a ∨ a + 4 ≤ b) :
    load64 (store a w m) b = load64 m b :=
  load64_congr fun _ _ => store_outside w (by omega)

theorem load64_store64_of_disjoint (w : UInt64) (h : b + 8 ≤ a ∨ a + 8 ≤ b) :
    load64 (store64 a w m) b = load64 m b :=
  load64_congr fun _ _ => store64_outside w (by omega)

theorem load64_store64 (m : Mem UInt8) (a : Nat) (w : UInt64) : load64 (store64 a w m) a = w := by
  have hlt := w.toNat_lt
  have hhi : load (store64 a w m) a = UInt32.ofNat (w.toNat / 2 ^ 32) := by
    unfold store64
    rw [load_store_of_disjoint _ (by omega), load_store]
  have hlo : load (store64 a w m) (a + 4) = UInt32.ofNat w.toNat := load_store _ _ _
  apply UInt64.toNat.inj
  unfold load64
  rw [hhi, hlo, UInt64.toNat_ofNat', UInt32.toNat_ofNat', UInt32.toNat_ofNat']
  omega

/-! ### Half words -/

/-- The half word at `a`. -/
def load16 (m : Mem UInt8) (a : Nat) : UInt16 :=
  UInt16.ofNat ((m a).toNat * 2 ^ 8 + (m (a + 1)).toNat)

def store16 (a : Nat) (w : UInt16) (m : Mem UInt8) : Mem UInt8 :=
  m.store a 2 fun k => UInt8.ofNat (w.toNat / 2 ^ (8 - 8 * k))

theorem load16_toNat (m : Mem UInt8) (a : Nat) :
    (load16 m a).toNat = 256 * (m a).toNat + (m (a + 1)).toNat := by
  have h₀ := (m a).toNat_lt
  have h₁ := (m (a + 1)).toNat_lt
  unfold load16
  rw [UInt16.toNat_ofNat']
  omega

/-- A word is its two halves. -/
theorem load_toNat (m : Mem UInt8) (a : Nat) :
    (load m a).toNat = 65536 * (load16 m a).toNat + (load16 m (a + 2)).toNat := by
  have h₀ := (m a).toNat_lt
  have h₁ := (m (a + 1)).toNat_lt
  have h₂ := (m (a + 2)).toNat_lt
  have h₃ := (m (a + 3)).toNat_lt
  rw [load16_toNat, load16_toNat, show a + 2 + 1 = a + 3 by omega]
  unfold load
  rw [UInt32.toNat_ofNat']
  omega

theorem load16_congr (h : ∀ k < 2, m (a + k) = m' (b + k)) : load16 m a = load16 m' b := by
  unfold load16
  rw [h 1 (by omega), show m a = m' b from h 0 (by omega)]

theorem store16_outside (w : UInt16) {x : Nat} (h : x < a ∨ a + 2 ≤ x) : store16 a w m x = m x :=
  Mem.store_outside m _ h

theorem load16_store16 (m : Mem UInt8) (a : Nat) (w : UInt16) : load16 (store16 a w m) a = w := by
  have hbyte : ∀ k < 2, (store16 a w m (a + k)).toNat = w.toNat / 2 ^ (8 - 8 * k) % 2 ^ 8 := by
    intro k hk
    unfold store16
    rw [Mem.store_at m a _ hk]
    exact UInt8.toNat_ofNat'
  have hlt := w.toNat_lt
  have hfirst := hbyte 0 (by omega)
  rw [Nat.add_zero] at hfirst
  apply UInt16.toNat.inj
  rw [load16_toNat, hfirst, hbyte 1 (by omega)]
  norm_num
  omega

theorem load16_store16_of_disjoint (w : UInt16) (h : b + 2 ≤ a ∨ a + 2 ≤ b) :
    load16 (store16 a w m) b = load16 m b :=
  load16_congr fun _ _ => store16_outside w (by omega)

theorem load16_store_of_disjoint (w : UInt32) (h : b + 2 ≤ a ∨ a + 4 ≤ b) :
    load16 (store a w m) b = load16 m b :=
  load16_congr fun _ _ => store_outside w (by omega)

theorem load_store16_of_disjoint (w : UInt16) (h : b + 4 ≤ a ∨ a + 2 ≤ b) :
    load (store16 a w m) b = load m b :=
  load_congr fun _ _ => store16_outside w (by omega)

/-! ### Arrays of words -/

/-- The memory from `a` on as an array of words. -/
def words (m : Mem UInt8) (a : Nat) : Mem UInt32 := fun i => load m (a + 4 * i)

theorem words_store (m : Mem UInt8) (a i : Nat) (w : UInt32) :
    words (store (a + 4 * i) w m) a = Function.update (words m a) i w := by
  funext j
  by_cases hj : j = i
  · subst hj
    rw [Function.update_self]
    exact load_store m _ w
  · rw [Function.update_of_ne hj]
    refine load_congr fun k hk => ?_
    exact Mem.store_outside m _ (by omega)

/-- A block of words is copied, from wherever it was before. -/
theorem words_copy (m : Mem UInt8) (a i j n : Nat) :
    words (m.store (a + 4 * i) (4 * n) fun k => m (a + 4 * j + k)) a
      = (words m a).store i n fun k => words m a (j + k) := by
  funext x
  by_cases hx : i ≤ x ∧ x < i + n
  · obtain ⟨y, rfl⟩ := Nat.exists_eq_add_of_le hx.1
    rw [Mem.store_at _ _ _ (by omega)]
    refine load_congr fun k hk => ?_
    rw [show a + 4 * (i + y) + k = a + 4 * i + (4 * y + k) by omega,
      Mem.store_at _ _ _ (by omega)]
    congr 1
    omega
  · rw [Mem.store_outside _ _ (by omega)]
    refine load_congr fun k hk => ?_
    exact Mem.store_outside m _ (by omega)

end Xell.Word
