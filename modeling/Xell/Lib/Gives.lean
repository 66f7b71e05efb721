/-
Computations that can fault.

A function that can go wrong gives an `Option`.  `Gives p o Q` says two things of one: what it
gives has `Q`, and if `p` holds it does give something.  The second half is what keeps the
first from being empty, and the condition is carried along because the two halves are proved
by the same walk through the function.
-/
import Mathlib.Tactic

namespace Xell

variable {α β : Type} {p : Prop} {o : Option α} {Q : α → Prop}

/-- The result has `Q`, and there is one if `p`. -/
structure Gives (p : Prop) (o : Option α) (Q : α → Prop) : Prop where
  result : ∀ x, o = some x → Q x
  exists_of : p → ∃ x, o = some x

namespace Gives

theorem some {x : α} (h : Q x) : Gives p (some x) Q where
  result := by
    intro y hy
    cases hy
    exact h
  exists_of := fun _ => ⟨x, rfl⟩

theorem bind {f : α → Option β} {Q' : β → Prop} (h : Gives p o Q)
    (hf : ∀ x, Q x → Gives p (f x) Q') : Gives p (o.bind f) Q' where
  result := by
    intro y hy
    obtain ⟨x, hx, hfx⟩ := Option.bind_eq_some_iff.mp hy
    exact (hf x (h.result x hx)).result y hfx
  exists_of := by
    intro hp
    obtain ⟨x, hx⟩ := h.exists_of hp
    obtain ⟨y, hy⟩ := (hf x (h.result x hx)).exists_of hp
    exact ⟨y, by rw [hx]; exact hy⟩

theorem map {f : α → β} {Q' : β → Prop} (h : Gives p o Q) (hf : ∀ x, Q x → Q' (f x)) :
    Gives p (o.map f) Q' where
  result := by
    intro y hy
    obtain ⟨x, hx, rfl⟩ := Option.map_eq_some_iff.mp hy
    exact hf x (h.result x hx)
  exists_of := by
    intro hp
    obtain ⟨x, hx⟩ := h.exists_of hp
    exact ⟨f x, by rw [hx]; rfl⟩

end Gives

end Xell
