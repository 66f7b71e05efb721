/-
Programs on a machine.

A program that talks to a machine takes the machine's state and gives a result and the state it
leaves, or nothing if it polls the machine for ever.  There are two ways to reason about one.  If
it is known what the machine will do, the program is run (`bind_eq`, `loop_done`, `loop_next`).  If
all that is known is that the machine answers, `Ends` says that the program ends and what holds
then.
-/
import Mathlib.Data.PFun
import Mathlib.Tactic

namespace Xell

/-- A program on a machine with states `s`. -/
abbrev Run (s : Type) := StateT s Part

namespace Run

variable {s α β : Type} {x : Run s α} {f : α → Run s β} {t t' : s} {a : α}

/-- One step of a run. -/
theorem bind_eq (h : x t = Part.some (a, t')) : (x >>= f) t = f a t' := by
  show (x t).bind (fun p => f p.1 p.2) = f a t'
  rw [h, Part.bind_some]

@[simp] theorem pure_eq (a : α) (t : s) : (pure a : Run s α) t = Part.some (a, t) := rfl

/-! ### Loops -/

/-- A loop whose body gives a result, or the variables for another turn. -/
def loop (body : α → Run s (β ⊕ α)) (a : α) : Run s β := fun t =>
  PFun.fix (fun v : α × s => (body v.1 v.2).map fun q => q.1.map (·, q.2) (·, q.2)) (a, t)

variable {body : α → Run s (β ⊕ α)} {a' : α} {b : β}

/-- The last turn. -/
theorem loop_done (h : body a t = Part.some (.inl b, t')) :
    loop body a t = Part.some (b, t') := by
  refine Part.eq_some_iff.mpr (PFun.fix_stop ?_)
  dsimp only
  rw [h, Part.map_some]
  exact Part.mem_some _

/-- A turn that leaves the rest of the loop. -/
theorem loop_next (h : body a t = Part.some (.inr a', t')) : loop body a t = loop body a' t' := by
  refine PFun.fix_fwd_eq ?_
  dsimp only
  rw [h, Part.map_some]
  exact Part.mem_some _

/-- A counted loop that is run. -/
theorem foldlM_eq {f : β → Nat → Run s β} {g : β × s → Nat → β × s}
    (h : ∀ b i t, f b i t = Part.some (g (b, t) i)) (l : List Nat) :
    ∀ (b : β) (t : s), l.foldlM f b t = Part.some (l.foldl g (b, t)) := by
  induction l with
  | nil => intro b t; rfl
  | cons i l ih =>
      intro b t
      rw [List.foldlM_cons, bind_eq (h b i t), ih]
      rfl

/-! ### Programs that end -/

/-- From `t` the program ends, with a result and in a state that have `Q`. -/
def Ends (x : Run s α) (t : s) (Q : α → s → Prop) : Prop :=
  ∃ a t', x t = Part.some (a, t') ∧ Q a t'

theorem Ends.pure {Q : α → s → Prop} (h : Q a t) : Ends (pure a) t Q :=
  ⟨a, t, rfl, h⟩

theorem Ends.bind {Q : α → s → Prop} {R : β → s → Prop} (h : Ends x t Q)
    (hf : ∀ a t', Q a t' → Ends (f a) t' R) : Ends (x >>= f) t R := by
  obtain ⟨a, t', hx, hQ⟩ := h
  obtain ⟨b, t'', hb, hR⟩ := hf a t' hQ
  exact ⟨b, t'', (bind_eq hx).trans hb, hR⟩

/-- For a step that is a single access of the machine. -/
theorem Ends.step {R : β → s → Prop} (h : x t = Part.some (a, t')) (hf : Ends (f a) t' R) :
    Ends (x >>= f) t R := by
  obtain ⟨b, t'', hb, hR⟩ := hf
  exact ⟨b, t'', (bind_eq h).trans hb, hR⟩

/-- For a turn of a loop, which leaves the rest of the loop. -/
theorem Ends.of_eq {y : Run s α} {Q : α → s → Prop} (h : x t = y t') (hy : Ends y t' Q) :
    Ends x t Q := by
  obtain ⟨a, t'', hb, hQ⟩ := hy
  exact ⟨a, t'', h.trans hb, hQ⟩

theorem Ends.mono {Q R : α → s → Prop} (h : Ends x t Q) (hQR : ∀ a t', Q a t' → R a t') :
    Ends x t R := by
  obtain ⟨a, t', hx, hQ⟩ := h
  exact ⟨a, t', hx, hQR a t' hQ⟩

/-- A loop that polls: it stops in some states, and in the others leaves itself in the next one.
The part of the state that is polled is `σ`. -/
theorem Ends.poll {σ : Type} (g : σ → s) (next : σ → σ) (stop : σ → Prop) {Q : α → s → Prop}
    (hstop : ∀ u, stop u → Ends x (g u) Q) (hnext : ∀ u, ¬stop u → x (g u) = x (g (next u)))
    (n : Nat) : ∀ {u : σ}, stop (next^[n] u) → Ends x (g u) Q := by
  induction n with
  | zero => intro u h; exact hstop u h
  | succ n ih =>
      intro u h
      by_cases hu : stop u
      · exact hstop u hu
      · exact .of_eq (hnext u hu) (ih h)

/-- A counted loop, with an invariant that knows the count. -/
theorem Ends.foldlM_range {f : β → Nat → Run s β} {I : Nat → β → s → Prop} (n : Nat)
    (hstep : ∀ i < n, ∀ b t, I i b t → Ends (f b i) t (I (i + 1))) :
    ∀ {b : β} {t : s}, I 0 b t → Ends ((List.range n).foldlM f b) t (I n) := by
  induction n with
  | zero => intro b t h; exact .pure h
  | succ n ih =>
      intro b t h
      rw [List.range_succ, List.foldlM_append]
      refine (ih (fun i hi => hstep i (by omega)) h).bind fun b' t' hI => ?_
      rw [List.foldlM_cons]
      exact (hstep n (by omega) b' t' hI).bind fun _ _ hI' => .pure hI'

end Run

end Xell
