/-
Tilings of an interval by blocks.

An allocator cuts its memory into blocks, one behind the other.  A block has a header of `h` cells,
and `length` cells behind it that are free or taken.  `Tiles` says that a list of blocks fills an
interval without gaps or overlaps, and `coalesce` makes one block of every run of free blocks.

A program does not coalesce at once.  It sweeps over the list and joins a free block with its
neighbour where it finds two, and sweeps again until it finds none.  What makes this right is that
a sweep does not change what the list coalesces to (`coalesce_sweep`), and that a list which a
sweep does not shorten is coalesced already (`apart_of_sweep`).
-/
import Mathlib.Tactic

namespace Xell

/-- A block: where its header is, how much lies behind the header, and whether that is free.
`data` is where the part begins that was handed out last. -/
structure Block where
  addr : Nat
  length : Nat
  free : Bool
  data : Nat
deriving DecidableEq

namespace Block

/-- The address behind a block. -/
def stop (h : Nat) (b : Block) : Nat := b.addr + h + b.length

/-- A block that has taken up the one behind it. -/
def join (h : Nat) (b c : Block) : Block := { b with length := b.length + (h + c.length) }

theorem join_stop {h : Nat} {b c : Block} (hbc : b.stop h = c.addr) :
    (b.join h c).stop h = c.stop h := by
  simp only [stop, join] at hbc ⊢
  omega

end Block

variable {h : Nat} {a e : Nat} {b c : Block} {bs cs : List Block}

/-! ### Tilings -/

/-- The blocks fill the interval from `a` to `e`. -/
def Tiles (h : Nat) : Nat → List Block → Nat → Prop
  | a, [], e => a = e
  | a, b :: bs, e => b.addr = a ∧ Tiles h (b.stop h) bs e

@[simp] theorem tiles_nil : Tiles h a [] e ↔ a = e := Iff.rfl

@[simp] theorem tiles_cons : Tiles h a (b :: bs) e ↔ b.addr = a ∧ Tiles h (b.stop h) bs e := Iff.rfl

theorem tiles_append : Tiles h a (bs ++ cs) e ↔ ∃ m, Tiles h a bs m ∧ Tiles h m cs e := by
  induction bs generalizing a with
  | nil => simp
  | cons b bs ih => simp [ih, and_assoc]

namespace Tiles

/-- Every block lies in the interval. -/
theorem mem (ht : Tiles h a bs e) (hb : b ∈ bs) : a ≤ b.addr ∧ b.stop h ≤ e := by
  have hle : ∀ {bs : List Block} {a : Nat}, Tiles h a bs e → a ≤ e := by
    intro bs
    induction bs with
    | nil => intro a ht; exact Nat.le_of_eq ht
    | cons c bs ih =>
        intro a ht
        have := ih ht.2
        have := ht.1
        unfold Block.stop at *
        omega
  induction bs generalizing a with
  | nil => cases hb
  | cons c bs ih =>
      obtain ⟨haddr, hrest⟩ := ht
      rcases List.mem_cons.mp hb with rfl | hmem
      · exact ⟨Nat.le_of_eq haddr.symm, hle hrest⟩
      · have := ih hrest hmem
        unfold Block.stop at *
        omega

/-- A block ends before the next ones begin. -/
theorem pairwise (ht : Tiles h a bs e) : bs.Pairwise fun b c => b.stop h ≤ c.addr := by
  induction bs generalizing a with
  | nil => exact .nil
  | cons b bs ih => exact .cons (fun c hc => (ht.2.mem hc).1) (ih ht.2)

/-- Different blocks do not overlap. -/
theorem disjoint (ht : Tiles h a bs e) (hb : b ∈ bs) (hc : c ∈ bs) (hne : b ≠ c) :
    b.stop h ≤ c.addr ∨ c.stop h ≤ b.addr := by
  have hor : bs.Pairwise fun b c => b.stop h ≤ c.addr ∨ c.stop h ≤ b.addr :=
    ht.pairwise.imp Or.inl
  have hsymm : Std.Symm fun b c : Block => b.stop h ≤ c.addr ∨ c.stop h ≤ b.addr :=
    ⟨fun _ _ => Or.symm⟩
  exact hor.forall hb hc hne

/-- Nothing is lost: the headers and what lies behind them make up the interval. -/
theorem sum_eq (ht : Tiles h a bs e) : a + (bs.map fun b => h + b.length).sum = e := by
  induction bs generalizing a with
  | nil => exact ht
  | cons b bs ih =>
      have := ih ht.2
      have := ht.1
      simp only [List.map_cons, List.sum_cons]
      unfold Block.stop at *
      omega

end Tiles

/-! ### Free neighbours -/

/-- No two free blocks are neighbours. -/
def Apart (bs : List Block) : Prop := bs.IsChain fun b c => ¬(b.free ∧ c.free)

/-- Put a block in front of a list, and join it with the first one if both are free. -/
def absorb (h : Nat) (b : Block) : List Block → List Block
  | [] => [b]
  | c :: bs => if b.free ∧ c.free then b.join h c :: bs else b :: c :: bs

/-- Every run of free blocks as one block. -/
def coalesce (h : Nat) (bs : List Block) : List Block := bs.foldr (absorb h) []

/-- One sweep over the list.  A block that was joined is not looked at again. -/
def sweep (h : Nat) : List Block → List Block
  | b :: c :: bs => if b.free ∧ c.free then b.join h c :: sweep h bs else b :: sweep h (c :: bs)
  | bs => bs

@[simp] theorem coalesce_nil : coalesce h [] = [] := rfl

@[simp] theorem coalesce_cons : coalesce h (b :: bs) = absorb h b (coalesce h bs) := rfl

theorem absorb_absorb (hb : b.free) (hc : c.free) :
    absorb h b (absorb h c bs) = absorb h (b.join h c) bs := by
  cases bs with
  | nil => simp [absorb, hb, hc, Block.join]
  | cons d bs =>
      by_cases hd : d.free
      · simp [absorb, hb, hc, hd, Block.join]
        omega
      · simp [absorb, hb, hc, hd, Block.join]

/-- Two free neighbours may be joined first. -/
theorem coalesce_join (hb : b.free) (hc : c.free) (as cs : List Block) :
    coalesce h (as ++ b :: c :: cs) = coalesce h (as ++ b.join h c :: cs) := by
  unfold coalesce
  rw [List.foldr_append, List.foldr_append, List.foldr_cons, List.foldr_cons, List.foldr_cons,
    absorb_absorb hb hc]

theorem coalesce_sweep (bs : List Block) : coalesce h (sweep h bs) = coalesce h bs := by
  induction bs using sweep.induct with
  | case1 b c bs hfree ih =>
      rw [sweep, if_pos hfree]
      simp only [coalesce_cons]
      rw [ih, absorb_absorb hfree.1 hfree.2]
  | case2 b c bs hfree ih =>
      rw [sweep, if_neg hfree, coalesce_cons, ih]
      rfl
  | case3 bs hbs => rw [sweep.eq_2 h bs hbs]

/-- The free blocks of a sweep begin where free blocks began. -/
theorem free_of_mem_sweep (hb : b ∈ sweep h bs) (hfree : b.free) :
    ∃ c ∈ bs, c.free ∧ c.addr = b.addr := by
  induction bs using sweep.induct with
  | case1 d c bs hdc ih =>
      rw [sweep, if_pos hdc] at hb
      rcases List.mem_cons.mp hb with rfl | hmem
      · exact ⟨d, by simp, hdc.1, rfl⟩
      · obtain ⟨c', hc', hrest⟩ := ih hmem
        exact ⟨c', by simp [hc'], hrest⟩
  | case2 d c bs hdc ih =>
      rw [sweep, if_neg hdc] at hb
      rcases List.mem_cons.mp hb with rfl | hmem
      · exact ⟨b, by simp, hfree, rfl⟩
      · obtain ⟨c', hc', hrest⟩ := ih hmem
        exact ⟨c', List.mem_cons_of_mem d hc', hrest⟩
  | case3 bs hbs =>
      rw [sweep.eq_2 h bs hbs] at hb
      exact ⟨b, hb, hfree, rfl⟩

theorem sweep_length_le (bs : List Block) : (sweep h bs).length ≤ bs.length := by
  induction bs using sweep.induct with
  | case1 b c bs hfree ih =>
      rw [sweep, if_pos hfree]
      simp only [List.length_cons]
      omega
  | case2 b c bs hfree ih =>
      rw [sweep, if_neg hfree]
      simp only [List.length_cons] at ih ⊢
      omega
  | case3 bs hbs => rw [sweep.eq_2 h bs hbs]

theorem apart_of_sweep (hlen : (sweep h bs).length = bs.length) : Apart bs := by
  induction bs using sweep.induct with
  | case1 b c bs hfree ih =>
      have := sweep_length_le (h := h) bs
      rw [sweep, if_pos hfree] at hlen
      simp only [List.length_cons] at hlen
      omega
  | case2 b c bs hfree ih =>
      rw [sweep, if_neg hfree] at hlen
      simp only [List.length_cons] at hlen ih
      exact .cons_cons hfree (ih (by omega))
  | case3 bs hbs =>
      match bs, hbs with
      | [], _ => exact .nil
      | [b], _ => exact .singleton b
      | b :: c :: bs, hbs => exact absurd rfl (hbs b c bs)

theorem sweep_eq_self (hap : Apart bs) : sweep h bs = bs := by
  induction bs using sweep.induct with
  | case1 b c bs hfree ih => exact absurd hfree (List.isChain_cons_cons.mp hap).1
  | case2 b c bs hfree ih => rw [sweep, if_neg hfree, ih hap.tail]
  | case3 bs hbs => exact sweep.eq_2 h bs hbs

theorem absorb_eq_cons (hap : Apart (b :: bs)) : absorb h b bs = b :: bs := by
  cases bs with
  | nil => rfl
  | cons c bs =>
      have hbc : ¬(b.free ∧ c.free) := (List.isChain_cons_cons.mp hap).1
      simp [absorb, hbc]

/-- Blocks that are apart from what comes behind them stay as they are. -/
theorem coalesce_append (hap : Apart (bs ++ coalesce h cs)) :
    coalesce h (bs ++ cs) = bs ++ coalesce h cs := by
  induction bs with
  | nil => rfl
  | cons b bs ih =>
      rw [List.cons_append, coalesce_cons, ih hap.tail]
      exact absorb_eq_cons hap

theorem coalesce_eq_self (hap : Apart bs) : coalesce h bs = bs := by
  have hnil : coalesce h (bs ++ []) = bs ++ coalesce h [] := coalesce_append (by simpa using hap)
  simpa using hnil

theorem apart_absorb (hap : Apart bs) : Apart (absorb h b bs) := by
  cases bs with
  | nil => exact .singleton b
  | cons c bs =>
      by_cases hbc : b.free ∧ c.free
      · rw [absorb, if_pos hbc]
        cases bs with
        | nil => exact .singleton _
        | cons d bs =>
            obtain ⟨hcd, hrest⟩ := List.isChain_cons_cons.mp hap
            exact .cons_cons (fun hbd => hcd ⟨hbc.2, hbd.2⟩) hrest
      · rw [absorb, if_neg hbc]
        exact .cons_cons hbc hap

theorem apart_coalesce (bs : List Block) : Apart (coalesce h bs) := by
  induction bs with
  | nil => exact .nil
  | cons b bs ih => exact apart_absorb ih

/-- The taken blocks stay what they are. -/
theorem taken_coalesce (bs : List Block) :
    (coalesce h bs).filter (!·.free) = bs.filter (!·.free) := by
  induction bs with
  | nil => rfl
  | cons b bs ih =>
      rw [coalesce_cons, List.filter_cons, ← ih]
      cases coalesce h bs with
      | nil => simp [absorb, List.filter_cons]
      | cons c cs =>
          by_cases hbc : b.free ∧ c.free
          · simp [absorb, hbc, Block.join]
          · simp [absorb, hbc, List.filter_cons]

/-- A coalesced block begins as a block did. -/
theorem exists_of_mem_coalesce (hb : b ∈ coalesce h bs) :
    ∃ c ∈ bs, c.addr = b.addr ∧ c.free = b.free := by
  induction bs generalizing b with
  | nil => simp at hb
  | cons d bs ih =>
      have hcases : b.addr = d.addr ∧ b.free = d.free ∨ b ∈ coalesce h bs := by
        rw [coalesce_cons] at hb
        cases hco : coalesce h bs with
        | nil =>
            rw [hco, absorb, List.mem_singleton] at hb
            exact Or.inl ⟨congrArg Block.addr hb, congrArg Block.free hb⟩
        | cons c cs =>
            rw [hco, absorb] at hb
            split at hb
            · rcases List.mem_cons.mp hb with rfl | hmem
              · exact Or.inl ⟨rfl, rfl⟩
              · exact Or.inr (List.mem_cons_of_mem c hmem)
            · rcases List.mem_cons.mp hb with rfl | hmem
              · exact Or.inl ⟨rfl, rfl⟩
              · exact Or.inr hmem
      rcases hcases with ⟨haddr, hfree⟩ | hmem
      · exact ⟨d, by simp, haddr.symm, hfree.symm⟩
      · obtain ⟨c, hc, hrest⟩ := ih hmem
        exact ⟨c, List.mem_cons_of_mem d hc, hrest⟩

/-- If nothing is taken then there is one block, and it fills the interval. -/
theorem Tiles.eq_singleton (ht : Tiles h a bs e) (hap : Apart bs) (hfree : ∀ b ∈ bs, b.free)
    (hlt : a < e) : ∃ b, bs = [b] ∧ b.addr = a ∧ b.stop h = e := by
  match bs, ht, hap, hfree with
  | [], ht, _, _ => exact absurd ht (by simp only [tiles_nil]; omega)
  | [b], ht, _, _ => exact ⟨b, rfl, ht.1, ht.2⟩
  | b :: c :: bs, _, hap, hfree =>
      exact absurd ⟨hfree b (by simp), hfree c (by simp)⟩ (List.isChain_cons_cons.mp hap).1

end Xell
