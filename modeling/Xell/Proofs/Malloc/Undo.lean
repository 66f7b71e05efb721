/-
Giving back twice, and giving back at once.

A block that is given back loses its node or keeps it.  If the block in front of it is free, the
node is taken up and its seal is cleared, and if not it stays, as the node of a free block.  The
pointer in front of the data is left where it was.  So a second `kfree` finds a node without a seal
and returns, or marks a block as free that is free, and coalesces a list that is coalesced.

A block that was cut off for a request is joined again with the rest when it is given back, and
then the list is the same as before, but for what is noted in a free node.
-/
import Xell.Proofs.Malloc.Heap

namespace Xell.Malloc

open Align

variable {pool : Mempool} {mem mem' : Mem UInt8} {a e n : Nat} {b c : Block}
  {bs cs pre post : List Block}

/-! ### Twice -/

theorem Held.node (h : Held mem bs n) (hb : b ∈ bs) : ∃ n', node (ptr b) mem = header b n' := by
  obtain ⟨pre, post, rfl⟩ := List.append_of_mem hb
  exact ⟨_, (held_append.mp h).2.1⟩

/-- Blocks have different addresses. -/
theorem Laid.eq_of_addr (h : Laid a e mem bs) (hb : b ∈ bs) (hc : c ∈ bs)
    (haddr : b.addr = c.addr) : b = c := by
  by_contra hne
  have := h.tiles.disjoint hb hc hne
  unfold Block.stop at this
  omega

theorem setStatus_self (m : UInt64) (s : MemnodeStatus) (h : getStatus m mem = s.word) :
    setStatus m s mem = mem := by
  unfold setStatus
  rw [← h]
  exact Word.store_load mem _

section Twice

variable (hroot : pool.root = UInt64.ofNat a) (hbase : pool.base.toNat = a)
  (hend : a + pool.length.toNat = e) (hfits : e < 2 ^ 64)

include hroot hbase hend hfits

theorem kfree_kfree (hlaid : Laid a e mem (pre ++ b :: post)) (htaken : b.free = false)
    (hdata : b.data < e)
    (hrun : kfree pool (UInt64.ofNat b.data) mem = Part.some ((), mem')) :
    kfree pool (UInt64.ofNat b.data) mem' = Part.some ((), mem') := by
  obtain ⟨mem'', hfree, hlaid', hspare, hclear⟩ :=
    kfree_eq hroot hbase hend hfits hlaid htaken hdata
  rw [hfree] at hrun
  obtain ⟨-, rfl⟩ := Prod.mk.inj (Part.some_inj.mp hrun)
  have hs := hlaid.sound b (by simp)
  have hab := (hlaid.tiles.mem (b := b) (by simp)).1
  have habove := hs.above
  have hwithin := hs.within
  have hset := hlaid.setFree
  -- the pointer in front of the data is nobody's own, once the block is free
  have hback : Word.load64 mem'' (b.data - 8) = ptr b := by
    rw [← (held_append.mp hlaid.held).2.2.1 htaken]
    refine Word.load64_congr fun i hi => hspare _ fun d hd hdfree ho => ?_
    have hlt := ho.stop (hset.sound d hd)
    obtain ⟨hlo, hhi⟩ := ho
    rw [hdfree] at hhi
    simp only [if_true] at hhi
    by_cases hdb : d = { b with free := true }
    · subst hdb
      dsimp only at hhi
      omega
    · have hdis := hset.tiles.disjoint hd (by simp) hdb
      have hstop : ({ b with free := true } : Block).stop 40 = b.stop 40 := rfl
      rw [hstop] at hdis
      dsimp only at hdis
      omega
  rw [kfree_enter hbase hend hfits hs hab hdata hback]
  rcases hclear { b with free := true } (by simp) with ⟨d, hd, hdb⟩ | hseal
  · have hptr : ptr d = ptr b := congrArg UInt64.ofNat hdb
    obtain ⟨n', hnode⟩ := hlaid'.held.node hd
    obtain ⟨c, hc, hcd, hcfree⟩ := exists_of_mem_coalesce hd
    have hcb : c = { b with free := true } := hset.eq_of_addr hc (by simp) (hcd.trans hdb)
    have hdfree : d.free = true := by rw [← hcfree, hcb]
    rw [hptr] at hnode
    have hseal : getSeal (ptr b) mem'' = memnodeSeal := congrArg Node.seal' hnode
    have hstatus : getStatus (ptr b) mem'' = (status d.free).word := congrArg Node.status hnode
    rw [hdfree] at hstatus
    rw [if_neg (not_not.mpr hseal), setStatus_self _ .free hstatus]
    exact kmemcompact_apart hroot hlaid' (apart_coalesce _) fun hnil => by
      rw [hnil] at hd
      cases hd
  · have hne : getSeal (ptr b) mem'' ≠ memnodeSeal := by
      rw [show getSeal (ptr b) mem'' = 0 from hseal]
      decide
    rw [if_pos hne]

end Twice

/-- **A block that is given back twice in a row is given back once**: the second call changes
nothing. -/
theorem reach_double_free {s : Client} {u : Use} (hr : Reach pool s) (hu : u ∈ s.live)
    (hrun : kfree pool u.ptr s.mem = Part.some ((), mem')) :
    kfree pool u.ptr mem' = Part.some ((), mem') := by
  obtain ⟨bs, h⟩ := hr.heap
  obtain ⟨pre, b, post, -, -, rfl, htaken, hserves, -⟩ := h.find hu
  have hb : b.stop 40 ≤ pool.stop := (h.laid.tiles.mem (by simp)).2
  have hroom := hserves.room
  have hp : u.ptr = UInt64.ofNat b.data := by rw [← hserves.ptr, UInt64.ofNat_toNat]
  rw [hp] at hrun ⊢
  exact kfree_kfree (e := pool.stop) h.placed.root_eq rfl rfl h.placed.fits h.laid htaken (by omega)
    hrun

theorem reach_double_free_page : ∃ mem mem', kfree page 0x1040 mem = Part.some ((), mem') ∧
    kfree page 0x1040 mem' = Part.some ((), mem') := by
  obtain ⟨mem, hr⟩ := page_reach_used
  obtain ⟨bs, h⟩ := hr.heap
  obtain ⟨_, _, _, mem', -, -, hrun, -⟩ := h.free List.mem_cons_self
  exact ⟨mem, mem', hrun, reach_double_free hr List.mem_cons_self hrun⟩

/-! ### At once -/

/-- What `kmalloc` looks at. -/
def shape (b : Block) : Nat × Nat × Bool := (b.addr, b.length, b.free)

/-- Lists of one shape give the same answer. -/
theorem allocate_shape {s al : Nat} (h : bs.map shape = cs.map shape) :
    (allocate s al bs).map (·.1) = (allocate s al cs).map (·.1) := by
  induction bs generalizing cs with
  | nil =>
      rw [List.map_nil] at h
      rw [List.map_eq_nil_iff.mp h.symm]
  | cons b bs ih =>
      cases cs with
      | nil => simp at h
      | cons c cs =>
          obtain ⟨hbc, hrest⟩ := List.cons.inj h
          have haddr : b.addr = c.addr := congrArg (·.1) hbc
          have hlen : b.length = c.length := congrArg (·.2.1) hbc
          have hfree : b.free = c.free := congrArg (·.2.2) hbc
          have hroom : Room s al b ↔ Room s al c := by
            unfold Room
            rw [haddr, hlen, hfree]
          by_cases hb : Room s al b
          · simp [allocate, hb, hroom.mp hb, haddr]
          · simp only [allocate, hb, mt hroom.mpr hb, if_false, Option.map_map]
            exact ih hrest

/-- The block that was cut is joined again. -/
theorem coalesce_cut {s al : Nat} (hroom : Room s al b) (hap : Apart (pre ++ b :: post)) :
    ∃ c rest, cut s al b = c :: rest ∧ c.free = false ∧ c.data = up al (b.addr + 40) ∧
      coalesce 40 (pre ++ { c with free := true } :: (rest ++ post))
        = pre ++ { b with data := up al (b.addr + 40) } :: post := by
  have hfree := hroom.1
  have hap' : Apart (pre ++ { b with data := up al (b.addr + 40) } :: post) := by
    obtain ⟨hpre, hpost, hlast⟩ := List.isChain_append.mp hap
    refine List.isChain_append.mpr ⟨hpre, ?_, ?_⟩
    · exact List.isChain_cons.mpr (List.isChain_cons.mp hpost)
    · intro x hx y hy
      obtain rfl : _ = y := by simpa using hy
      exact hlast x hx b (by simp)
  have hback : coalesce 40 (pre ++ { b with data := up al (b.addr + 40) } :: post)
      = pre ++ { b with data := up al (b.addr + 40) } :: post := coalesce_eq_self hap'
  unfold cut
  dsimp only
  split
  · refine ⟨_, [], rfl, rfl, rfl, ?_⟩
    rw [List.nil_append]
    dsimp only
    rw [← hfree]
    exact hback
  · rename_i hcut
    have hlt := up_add_lt_stop hroom hcut
    have hup := le_up al (b.addr + 40)
    refine ⟨_, _, rfl, rfl, rfl, ?_⟩
    rw [List.singleton_append, coalesce_join rfl rfl]
    -- the two lengths and the node between them are the length that was cut
    have hlen : up al (b.addr + 40) + s - (b.addr + 40)
        + (40 + (b.stop 40 - (up al (b.addr + 40) + s + 40))) = b.length := by
      simp only [Block.stop] at hlt ⊢
      omega
    dsimp only [Block.join]
    rw [hlen, ← hfree]
    exact hback

/-- **A block that is asked for and given back at once leaves the heap as it was**: every further
request is answered as it would have been. -/
theorem reach_kmalloc_kfree {s : Client} {mem₁ mem₂ : Mem UInt8} {p : UInt64}
    {size align size' align' : UInt32} (hr : Reach pool s) (hreq : Request size align)
    (hmalloc : kmalloc pool size align s.mem = Part.some (p, mem₁)) (hp : p ≠ 0)
    (hfree : kfree pool p mem₁ = Part.some ((), mem₂)) (hreq' : Request size' align') :
    (kmalloc pool size' align' mem₂).map (·.1) = (kmalloc pool size' align' s.mem).map (·.1) := by
  obtain ⟨bs, h⟩ := hr.heap
  obtain ⟨k, hk, hk3, hk32⟩ := hreq.ptrAlign
  obtain ⟨hs8, hsize⟩ := hreq.roundSize
  cases hall : allocate (roundSize size).toNat (2 ^ k) bs with
  | none =>
      rw [kmalloc_none h.placed.root_eq h.laid h.nonempty hk hk32 hall] at hmalloc
      exact absurd (Prod.mk.inj (Part.some_inj.mp hmalloc)).1.symm hp
  | some q =>
      obtain ⟨d, cs⟩ := q
      obtain ⟨mem', hsome, hlaid, -⟩ := kmalloc_some h.placed.root_eq h.laid h.nonempty hk hk32 hk3
        hs8 hall
      rw [hsome] at hmalloc
      obtain ⟨rfl, rfl⟩ := Prod.mk.inj (Part.some_inj.mp hmalloc)
      obtain ⟨pre, b, post, rfl, -, hroom, rfl, rfl⟩ := allocate_eq_some hall
      obtain ⟨c, rest, hcut, htaken, hdata, hback⟩ := coalesce_cut hroom h.apart
      have hstop := up_add_le_stop hroom
      have hb : b.stop 40 ≤ pool.stop := (h.laid.tiles.mem (by simp)).2
      rw [hcut, List.cons_append] at hlaid
      obtain ⟨mem'', hrun, hlaid', -⟩ := kfree_eq (e := pool.stop) h.placed.root_eq rfl rfl
        h.placed.fits hlaid htaken (by omega)
      rw [← hdata, hrun] at hfree
      obtain ⟨-, rfl⟩ := Prod.mk.inj (Part.some_inj.mp hfree)
      rw [hback] at hlaid'
      obtain ⟨k', hk', hk3', hk32'⟩ := hreq'.ptrAlign
      have hs8' := hreq'.roundSize.1
      have hshape : (pre ++ { b with data := up (2 ^ k) (b.addr + 40) } :: post).map shape
          = (pre ++ b :: post).map shape := by simp [shape]
      rw [kmalloc_answer h.placed.root_eq hlaid' (by simp) hk' hk32' hk3' hs8',
        kmalloc_answer h.placed.root_eq h.laid h.nonempty hk' hk32' hk3' hs8',
        allocate_shape hshape]

theorem reach_kmalloc_kfree_page : ∃ mem mem₁ mem₂,
    kmalloc page 100 32 mem = Part.some (0x1040, mem₁) ∧ kfree page 0x1040 mem₁ = Part.some ((), mem₂) ∧
    (kmalloc page 100 32 mem₂).map (·.1) = (kmalloc page 100 32 mem).map (·.1) := by
  obtain ⟨mem, hr, h⟩ := page_reach
  obtain ⟨mem₁, hmalloc⟩ := page_kmalloc h
  obtain ⟨bs, h₁⟩ := (hr.step (.malloc 100 32 page_request hmalloc)).heap
  obtain ⟨_, _, _, mem₂, -, -, hfree, -⟩ := h₁.free List.mem_cons_self
  exact ⟨mem, mem₁, mem₂, hmalloc, hfree,
    reach_kmalloc_kfree hr page_request hmalloc (by decide) hfree page_request⟩

end Xell.Malloc
