/-
What the heap says of itself, and what is left of it.

`kmemstats` walks over the nodes and makes some tests of each.  In no run does one fail, and the
figures add up: the bytes of the blocks and the nodes in front of them are the pool, and the
largest free block is what decides whether a request without an alignment can be answered.

Since no two free blocks are neighbours, a pool of which nothing is in use is one block again,
whatever was done with it before, and a block that is asked for and given back at once leaves the
list as it was.
-/
import Xell.Proofs.Malloc.Heap

namespace Xell.Malloc

open Align

variable {pool : Mempool} {mem mem' : Mem UInt8} {a e n : Nat} {b : Block} {bs : List Block}

/-! ### kmemstats -/

/-- A block is counted. -/
def tally (s : Memstats) (b : Block) : Memstats :=
  if b.free then
    { s with
      freenodes := s.freenodes + 1
      freebytes := s.freebytes + UInt32.ofNat b.length
      largest := if s.largest < UInt32.ofNat b.length then UInt32.ofNat b.length else s.largest }
  else
    { s with
      allocnodes := s.allocnodes + 1
      allocbytes := s.allocbytes + UInt32.ofNat b.length }

theorem count_eq (hnode : node (ptr b) mem = header b n) (s : Memstats) :
    s.count (ptr b) mem = tally s b := by
  have hstatus : getStatus (ptr b) mem = (status b.free).word := congrArg Node.status hnode
  have hlength : getLength (ptr b) mem = UInt32.ofNat b.length := congrArg Node.length hnode
  unfold Memstats.count tally
  dsimp only
  rw [hstatus, hlength]
  cases b.free with
  | true => rfl
  | false => rfl

/-- A node that is as it should be passes the tests. -/
theorem nodeBad_eq (hlaid : Laid a e mem (b :: bs)) : nodeBad (ptr b) mem = false := by
  obtain ⟨hnode, hback, -⟩ := hlaid.held
  have hs := hlaid.sound b (by simp)
  have hseal : getSeal (ptr b) mem = memnodeSeal := congrArg Node.seal' hnode
  have hnext : getNext (ptr b) mem = UInt64.ofNat (link bs 0) := congrArg Node.next hnode
  have hlength : getLength (ptr b) mem = UInt32.ofNat b.length := congrArg Node.length hnode
  have hstatus : getStatus (ptr b) mem = (status b.free).word := congrArg Node.status hnode
  have hdata : getData (ptr b) mem = UInt64.ofNat b.data := congrArg Node.data hnode
  have hfits := hs.fits
  have habove := hs.above
  have hwithin := hs.within
  have hd : (UInt64.ofNat b.data).toNat = b.data :=
    UInt64.toNat_ofNat_of_lt' (show b.data < 2 ^ 64 by omega)
  -- the next node, if there is one, begins where this block ends
  have hlink : UInt64.ofNat (link bs 0) ≠ 0 →
      memnodeData (ptr b) + (UInt32.ofNat b.length).toUInt64 = UInt64.ofNat (link bs 0) ∧
      ¬UInt64.ofNat (link bs 0) < ptr b := by
    intro h0
    cases bs with
    | nil => exact absurd rfl h0
    | cons c bs =>
        have hc : c.addr = b.stop 40 := hlaid.tiles.2.1
        have hsc := hlaid.sound c (by simp)
        have hptr : (UInt64.ofNat (link (c :: bs) 0)).toNat = c.addr := hsc.ptr_toNat
        constructor
        · apply UInt64.toNat.inj
          rw [hptr, UInt64.toNat_add, hs.toNat_memnodeData, hs.toNat_length, hc]
          exact Nat.mod_eq_of_lt hfits
        · rw [UInt64.lt_iff_toNat_lt, hptr, hs.ptr_toNat, hc]
          unfold Block.stop
          omega
  have hlow : ¬UInt64.ofNat b.data < ptr b := by
    rw [UInt64.lt_iff_toNat_lt, hd, hs.ptr_toNat]
    omega
  have hsub : (UInt64.ofNat b.data - ptrSize).toNat = b.data - 8 := by
    have hle : ptrSize ≤ UInt64.ofNat b.data := by
      rw [UInt64.le_iff_toNat_le, hd]
      show 8 ≤ b.data
      omega
    rw [UInt64.toNat_sub_of_le _ _ hle, hd]
    rfl
  unfold nodeBad
  rw [hseal, hnext, hlength, hdata, hstatus, hsub]
  simp only [ne_eq, not_true_eq_false, decide_false, Bool.false_or, Bool.or_eq_false_iff,
    Bool.and_eq_false_imp, decide_eq_true_eq, decide_eq_false_iff_not, not_not]
  refine ⟨⟨⟨fun h0 => (hlink h0).1, fun h0 => (hlink h0).2⟩, hlow⟩, fun hst => ?_⟩
  cases hfree : b.free with
  | true => rw [hfree] at hst; exact absurd hst (by decide)
  | false => exact hback hfree

/-- **`kmemstats` finds nothing wrong, and counts the blocks.** -/
theorem loop_kmemstats : ∀ {a : Nat} {bs : List Block}, Laid a e mem bs → ∀ s,
    Run.loop kmemstatsTurn (UInt64.ofNat (link bs 0), s) mem
      = Part.some ((0, bs.foldl tally s), mem) := by
  intro a bs
  induction bs generalizing a with
  | nil => intro _ s; exact Run.loop_done rfl
  | cons b bs ih =>
      intro hlaid s
      have hs := hlaid.sound b (by simp)
      have hb0 : b.addr ≠ 0 := by rw [hlaid.tiles.1]; exact hlaid.start
      have hturn : kmemstatsTurn (ptr b, s) mem
          = Part.some (.inr (UInt64.ofNat (link bs 0), tally s b), mem) := by
        unfold kmemstatsTurn
        dsimp only
        rw [if_neg (hs.ptr_ne_zero hb0), nodeBad_eq hlaid, count_eq hlaid.held.1,
          show getNext (ptr b) mem = UInt64.ofNat (link bs 0) from congrArg Node.next hlaid.held.1]
        rfl
      exact (Run.loop_next hturn).trans (ih hlaid.tail (tally s b))

/-! ### The figures -/

/-- The bytes of some blocks. -/
def bytes (bs : List Block) : Nat := (bs.map (·.length)).sum

/-- The largest of the free blocks. -/
def widest : List Block → Nat
  | [] => 0
  | b :: bs => if b.free then max b.length (widest bs) else widest bs

theorem le_widest (hn : 0 < n) : n ≤ widest bs ↔ ∃ b ∈ bs, b.free ∧ n ≤ b.length := by
  induction bs with
  | nil => simp [widest]; omega
  | cons b bs ih =>
      cases hfree : b.free with
      | true => simp [widest, hfree, ih]
      | false => simp [widest, hfree, ih]

theorem widest_lt {N : Nat} (hN : 0 < N) (h : ∀ b ∈ bs, b.length < N) : widest bs < N := by
  by_contra hge
  obtain ⟨b, hb, -, hlen⟩ := (le_widest hN).mp (Nat.le_of_not_lt hge)
  have := h b hb
  omega

theorem foldl_tally (hsmall : ∀ b ∈ bs, b.length < 2 ^ 32) (s : Memstats) : bs.foldl tally s =
    { s with
      allocbytes := s.allocbytes + UInt32.ofNat (bytes (taken bs))
      freebytes := s.freebytes + UInt32.ofNat (bytes (bs.filter (·.free)))
      allocnodes := s.allocnodes + UInt32.ofNat (taken bs).length
      freenodes := s.freenodes + UInt32.ofNat (bs.filter (·.free)).length
      largest := UInt32.ofNat (max s.largest.toNat (widest bs)) } := by
  induction bs generalizing s with
  | nil => simp [bytes, taken, widest]
  | cons b bs ih =>
      rw [List.foldl_cons, ih fun c hc => hsmall c (List.mem_cons_of_mem b hc)]
      have hb := hsmall b (by simp)
      cases hfree : b.free with
      | true =>
          have hlarge : (if s.largest < UInt32.ofNat b.length then UInt32.ofNat b.length
              else s.largest).toNat = max s.largest.toNat b.length := by
            have hlen : (UInt32.ofNat b.length).toNat = b.length := UInt32.toNat_ofNat_of_lt' hb
            split <;> rename_i hlt <;> rw [UInt32.lt_iff_toNat_lt, hlen] at hlt <;> omega
          simp [tally, hfree, bytes, taken, widest, hlarge, UInt32.ofNat_add,
            UInt32.add_assoc, UInt32.add_comm, max_assoc]
      | false =>
          simp [tally, hfree, bytes, taken, widest, UInt32.ofNat_add, UInt32.add_assoc,
            UInt32.add_comm]

theorem bytes_add_nodes (bs : List Block) : bytes (taken bs) + bytes (bs.filter (·.free))
    + 40 * ((taken bs).length + (bs.filter (·.free)).length) = (bs.map fun b => 40 + b.length).sum := by
  induction bs with
  | nil => rfl
  | cons b bs ih =>
      cases hfree : b.free with
      | true =>
          simp only [bytes, taken, hfree, List.filter_cons, List.map_cons, List.sum_cons,
            List.length_cons, Bool.not_true, Bool.false_eq_true, if_true, if_false] at ih ⊢
          omega
      | false =>
          simp only [bytes, taken, hfree, List.filter_cons, List.map_cons, List.sum_cons,
            List.length_cons, Bool.not_false, Bool.false_eq_true, if_true, if_false] at ih ⊢
          omega

/-- Without an alignment a block must have just the size. -/
theorem need_eight {s d : Nat} (hd : 8 ∣ d) : need s 8 d = s := if_pos (Nat.mod_eq_zero_of_dvd hd)

/-- A request without an alignment is answered if the largest free block is large enough. -/
theorem allocate_eight {s : Nat} (hs : 0 < s) (hsound : ∀ b ∈ bs, Sound b) :
    allocate s 8 bs = none ↔ widest bs < s := by
  rw [allocate_eq_none, ← not_le, le_widest hs]
  simp only [not_exists, not_and, Room]
  refine forall₂_congr fun b hb => ?_
  rw [need_eight (dvd_add (hsound b hb).aligned (by omega : 8 ∣ 40))]

/-- Whether `kmalloc` returns `NULL`. -/
theorem kmalloc_null_iff {s : Client} {size align : UInt32} {k : Nat} (h : Heap pool s bs)
    (hreq : Request size align) (hk : (ptrAlign align).toNat = 2 ^ k) :
    kmalloc pool size align s.mem = Part.some (0, s.mem) ↔
      allocate (roundSize size).toNat (2 ^ k) bs = none := by
  obtain ⟨k', hk', hk3, hk32⟩ := hreq.ptrAlign
  obtain rfl : k' = k := Nat.pow_right_injective (le_refl 2) (hk'.symm.trans hk)
  constructor
  · intro hnull
    by_contra hsome
    obtain ⟨⟨d, cs⟩, hq⟩ := Option.ne_none_iff_exists'.mp hsome
    obtain ⟨mem', hrun, -⟩ := kmalloc_some h.placed.root_eq h.laid h.nonempty hk hk32 hk3
      hreq.roundSize.1 hq
    rw [hrun] at hnull
    obtain ⟨pre, b, post, rfl, -, hroom, rfl, -⟩ := allocate_eq_some hq
    have hfits := (h.laid.sound b (by simp)).fits
    have hstop := up_add_le_stop hroom
    have hup := le_up (2 ^ k') (b.addr + 40)
    have hd : (UInt64.ofNat (up (2 ^ k') (b.addr + 40))).toNat = up (2 ^ k') (b.addr + 40) :=
      UInt64.toNat_ofNat_of_lt' (show up (2 ^ k') (b.addr + 40) < 2 ^ 64 by omega)
    rw [(Prod.mk.inj (Part.some_inj.mp hnull)).1] at hd
    have hzero : (0 : UInt64).toNat = 0 := rfl
    omega
  · exact kmalloc_none h.placed.root_eq h.laid h.nonempty hk hk32

/-- **In every run the heap is consistent, its figures add up, and the largest free block is what
decides about a request without an alignment.** -/
theorem reach_kmemstats {s : Client} (hr : Reach pool s) :
    ∃ st, kmemstats pool s.mem = Part.some ((0, st), s.mem) ∧
      st.allocnodes.toNat = s.live.length ∧
      st.allocbytes.toNat + st.freebytes.toNat
        + 40 * (st.allocnodes.toNat + st.freenodes.toNat) = pool.length.toNat ∧
      ∀ size, Request size 0 → (kmalloc pool size 0 s.mem = Part.some (0, s.mem) ↔
        st.largest < roundSize size) := by
  obtain ⟨bs, h⟩ := hr.heap
  have hloop := loop_kmemstats h.laid ⟨pool.length, 0, 0, 0, 0, 0⟩
  have hlink : pool.root = UInt64.ofNat (link bs 0) := by
    rw [h.placed.root_eq, h.laid.link_eq h.nonempty]
  rw [← hlink, foldl_tally fun b hb => (h.laid.sound b hb).small] at hloop
  have hsum := h.laid.tiles.sum_eq
  have hnodes := bytes_add_nodes bs
  have hpool := pool.length.toNat_lt
  have hstop : pool.stop = pool.base.toNat + pool.length.toNat := rfl
  have huses : (taken bs).length = s.live.length := by
    obtain ⟨us, hperm, hall⟩ := h.uses
    rw [← hall.length_eq, hperm.length_eq]
  refine ⟨_, hloop, ?_, ?_, fun size hreq => ?_⟩
  · simp only [UInt32.zero_add]
    rw [UInt32.toNat_ofNat_of_lt' (show (taken bs).length < 2 ^ 32 by omega), huses]
  · simp only [UInt32.zero_add]
    rw [UInt32.toNat_ofNat_of_lt' (show bytes (taken bs) < 2 ^ 32 by omega),
      UInt32.toNat_ofNat_of_lt' (show bytes (bs.filter (·.free)) < 2 ^ 32 by omega),
      UInt32.toNat_ofNat_of_lt' (show (taken bs).length < 2 ^ 32 by omega),
      UInt32.toNat_ofNat_of_lt' (show (bs.filter (·.free)).length < 2 ^ 32 by omega)]
    omega
  · have hpos := hreq.roundSize.2
    have hwide := widest_lt (show 0 < 2 ^ 32 by omega) fun b hb => (h.laid.sound b hb).small
    have hlarge : (UInt32.ofNat (max 0 (widest bs))).toNat = widest bs := by
      rw [Nat.zero_max]
      exact UInt32.toNat_ofNat_of_lt' hwide
    refine (kmalloc_null_iff (k := 3) h hreq rfl).trans ?_
    refine (allocate_eight (by omega) h.laid.sound).trans ?_
    show widest bs < _ ↔ UInt32.ofNat (max 0 (widest bs)) < roundSize size
    rw [UInt32.lt_iff_toNat_lt, hlarge]

theorem reach_kmemstats_page : ∃ mem st, kmemstats page mem = Part.some ((0, st), mem) ∧
    st.allocnodes.toNat = 1 := by
  obtain ⟨mem, hr⟩ := page_reach_used
  obtain ⟨st, hrun, hnodes, -⟩ := reach_kmemstats hr
  exact ⟨mem, st, hrun, hnodes⟩

/-! ### Nothing is in use -/

/-- **When everything was given back, in whatever order, the pool is one block again**: a request is
answered just if it would have been at the beginning. -/
theorem reach_all_free {s : Client} {size align : UInt32} (hr : Reach pool s) (hlive : s.live = [])
    (hreq : Request size align) :
    kmalloc pool size align s.mem = Part.some (0, s.mem) ↔
      pool.length.toNat < 40 + need (roundSize size).toNat (ptrAlign align).toNat
        (pool.base.toNat + 40) := by
  obtain ⟨bs, h⟩ := hr.heap
  obtain ⟨k, hk, -, -⟩ := hreq.ptrAlign
  have hfree : ∀ b ∈ bs, b.free := by
    obtain ⟨us, hperm, hall⟩ := h.uses
    rw [hlive, List.perm_nil] at hperm
    subst hperm
    have hnone : bs.filter (!·.free) = [] := List.forall₂_nil_left_iff.mp hall
    simpa using hnone
  have hnode := h.placed.node
  have hstop : pool.stop = pool.base.toNat + pool.length.toNat := rfl
  obtain ⟨b, rfl, haddr, hend⟩ := h.laid.tiles.eq_singleton h.apart hfree (by omega)
  have hlen : b.addr + 40 + b.length = pool.stop := hend
  rw [kmalloc_null_iff h hreq hk, allocate_eq_none, hk, ← haddr]
  simp only [List.mem_singleton, forall_eq, Room, hfree b (by simp), true_and, not_le]
  omega

theorem reach_all_free_page : ∃ mem, kmalloc page 4057 0 mem = Part.some (0, mem) := by
  obtain ⟨mem, hr, -⟩ := page_reach
  exact ⟨mem, (reach_all_free hr rfl ⟨by decide, Or.inl rfl⟩).mpr (by decide)⟩

end Xell.Malloc
