/-
A program that uses the heap.

`Client` is what such a program has: the memory, and the blocks that it was given and has not given
back.  It may ask for a block, give one back, and write to its blocks and to what is not in the
pool, in any order and as often as it likes (`Step`).

`Heap` is the invariant of all runs: the pool is filled by a list of blocks with their nodes, no
two free blocks are neighbours, and the taken ones are just those of the client.  It is preserved
because the calls do to the list what `allocate` and `coalesce` say, and because the client's bytes
are nobody's own.
-/
import Xell.Proofs.Malloc.Alloc

namespace Xell.Malloc

open Align

variable {pool : Mempool} {mem mem' : Mem UInt8} {bs : List Block}

/-! ### Runs -/

/-- A block in use: where it is, and what was asked for. -/
structure Use where
  ptr : UInt64
  size : UInt32
  align : UInt32
deriving DecidableEq

structure Client where
  mem : Mem UInt8
  live : List Use

/-- A byte of a block in use. -/
def Use.Has (u : Use) (x : Nat) : Prop := u.ptr.toNat ≤ x ∧ x < u.ptr.toNat + u.size.toNat

/-- The end of a pool. -/
def Mempool.stop (pool : Mempool) : Nat := pool.base.toNat + pool.length.toNat

/-- The bytes of a client: those of its blocks, and what is not in the pool. -/
def Client.Has (pool : Mempool) (s : Client) (x : Nat) : Prop :=
  (∃ u ∈ s.live, u.Has x) ∨ x < pool.base.toNat ∨ pool.stop ≤ x

/-- A request that `kmalloc` is made for: a power of two as alignment, or none, and a size that can
be rounded up. -/
structure Request (size align : UInt32) : Prop where
  size : size.toNat ≤ 2 ^ 32 - 8
  align : align = 0 ∨ ∃ k, align.toNat = 2 ^ k

inductive Step (pool : Mempool) : Client → Client → Prop
  | malloc {s : Client} {mem' : Mem UInt8} {p : UInt64} (size align : UInt32)
      (hreq : Request size align) (hrun : kmalloc pool size align s.mem = Part.some (p, mem')) :
      Step pool s ⟨mem', if p = 0 then s.live else ⟨p, size, align⟩ :: s.live⟩
  | free {s : Client} {mem' : Mem UInt8} {u : Use} (hu : u ∈ s.live)
      (hrun : kfree pool u.ptr s.mem = Part.some ((), mem')) :
      Step pool s ⟨mem', s.live.erase u⟩
  | write {s : Client} (x : Nat) (v : UInt8) (hx : s.Has pool x) :
      Step pool s ⟨Function.update s.mem x v, s.live⟩

/-- A buffer that `kmeminit` can be given. -/
structure Buffer (buffer : UInt64) (length : UInt32) : Prop where
  aligned : 8 ∣ buffer.toNat
  start : buffer ≠ 0
  node : 40 ≤ length.toNat
  fits : buffer.toNat + length.toNat < 2 ^ 64

/-- The states that a program can come to with a new pool. -/
inductive Reach (pool : Mempool) : Client → Prop
  | init {mem mem' : Mem UInt8} {buffer : UInt64} {length : UInt32} (hbuf : Buffer buffer length)
      (hrun : kmeminit buffer length mem = Part.some (pool, mem')) : Reach pool ⟨mem', []⟩
  | step {s t : Client} (hr : Reach pool s) (hstep : Step pool s t) : Reach pool t

/-! ### The invariant -/

/-- The blocks that are taken. -/
def taken (bs : List Block) : List Block := bs.filter (!·.free)

/-- A taken block is what was asked for. -/
structure Serves (u : Use) (b : Block) : Prop where
  ptr : u.ptr.toNat = b.data
  room : b.data + max u.size.toNat 1 ≤ b.stop 40
  dvd : (ptrAlign u.align).toNat ∣ b.data

/-- A pool as `kmeminit` makes it. -/
structure Placed (pool : Mempool) : Prop where
  root : pool.root = pool.base
  start : pool.base.toNat ≠ 0
  aligned : 8 ∣ pool.base.toNat
  node : 40 ≤ pool.length.toNat
  fits : pool.stop < 2 ^ 64

/-- The blocks of a pool, in memory, and the client's among them. -/
structure Heap (pool : Mempool) (s : Client) (bs : List Block) : Prop where
  placed : Placed pool
  laid : Laid pool.base.toNat pool.stop s.mem bs
  apart : Apart bs
  uses : ∃ us, us.Perm s.live ∧ List.Forall₂ Serves us (taken bs)

theorem Heap.nonempty {s : Client} (h : Heap pool s bs) : bs ≠ [] := by
  intro hnil
  have htiles := h.laid.tiles
  have hnode := h.placed.node
  rw [hnil, tiles_nil] at htiles
  unfold Mempool.stop at htiles
  omega

theorem Placed.root_eq (h : Placed pool) : pool.root = UInt64.ofNat pool.base.toNat := by
  rw [h.root, UInt64.ofNat_toNat]

/-- A request is for a power of two. -/
theorem Request.ptrAlign {size align : UInt32} (h : Request size align) :
    ∃ k, (ptrAlign align).toNat = 2 ^ k ∧ 3 ≤ k ∧ k < 32 := by
  unfold Malloc.ptrAlign
  split
  · exact ⟨3, rfl, by omega, by omega⟩
  · rename_i hge
    have hge' : 8 ≤ align.toNat := by
      rw [UInt64.lt_iff_toNat_lt, UInt32.toNat_toUInt64] at hge
      exact Nat.le_of_not_lt hge
    rcases h.align with rfl | ⟨k, hk⟩
    · exact absurd hge' (by decide)
    · rw [UInt32.toNat_toUInt64]
      refine ⟨k, hk, ?_, ?_⟩
      · by_contra hlt
        have := Nat.pow_le_pow_right (show 0 < 2 by omega) (show k ≤ 2 by omega)
        omega
      · by_contra hlt
        have := Nat.pow_le_pow_right (show 0 < 2 by omega) (show 32 ≤ k by omega)
        have := align.toNat_lt
        omega

theorem Request.roundSize {size align : UInt32} (h : Request size align) :
    8 ∣ (roundSize size).toNat ∧ max size.toNat 1 ≤ (roundSize size).toNat := by
  rw [toNat_roundSize h.size]
  exact ⟨dvd_up (by omega) _, le_up _ _⟩

/-! ### The first block -/

theorem heap_init {buffer : UInt64} {length : UInt32} (hbuf : Buffer buffer length)
    (hrun : kmeminit buffer length mem = Part.some (pool, mem')) :
    Heap pool ⟨mem', []⟩ [⟨buffer.toNat, length.toNat - 40, true, buffer.toNat + 40⟩] := by
  obtain ⟨rfl, rfl⟩ := Prod.mk.inj (Part.some_inj.mp hrun).symm
  have hfits := hbuf.fits
  have hnode := hbuf.node
  have hlt := length.toNat_lt
  have h0 : buffer.toNat ≠ 0 := fun hz => hbuf.start (UInt64.toNat.inj hz)
  have hptr : UInt64.ofNat buffer.toNat = buffer := UInt64.ofNat_toNat
  refine ⟨⟨rfl, h0, hbuf.aligned, hnode, hfits⟩, ?_, .singleton _, [], .refl _, .nil⟩
  refine ⟨h0, ?_, ⟨rfl, ?_⟩, ?_, ?_, fun hno => absurd hno (by simp), trivial⟩
  · unfold Mempool.stop
    dsimp only
    omega
  · show buffer.toNat + 40 + (length.toNat - 40) = buffer.toNat + length.toNat
    omega
  · intro b hb
    rw [List.mem_singleton.mp hb]
    constructor
    · exact hbuf.aligned
    all_goals
      simp only [Block.stop]
      omega
  · show node (UInt64.ofNat buffer.toNat) _ = _
    rw [hptr, node_setNext, node_setStatus, node_setData, node_setLength, node_setSeal]
    have hlen : length - memnodeSize.toUInt32 = UInt32.ofNat (length.toNat - 40) := by
      apply UInt32.toNat.inj
      have hle : memnodeSize.toUInt32 ≤ length := UInt32.le_iff_toNat_le.mpr hnode
      rw [UInt32.toNat_sub_of_le _ _ hle,
        UInt32.toNat_ofNat_of_lt' (show length.toNat - 40 < 2 ^ 32 by omega)]
      rfl
    have hdata : memnodeData buffer = UInt64.ofNat (buffer.toNat + 40) := by
      rw [UInt64.ofNat_add, hptr]
      rfl
    rw [hlen, hdata]
    rfl

/-! ### A block is asked for -/

/-- What becomes of a list when one block of it is cut. -/
theorem apart_cut {pre post : List Block} {b : Block} (s al : Nat) (hfree : b.free)
    (h : Apart (pre ++ b :: post)) : Apart (pre ++ (cut s al b ++ post)) := by
  obtain ⟨hpre, hpost, -⟩ := List.isChain_append.mp h
  unfold cut
  dsimp only
  split
  · refine List.isChain_append.mpr ⟨hpre, ?_, fun x _ y hy => ?_⟩
    · exact List.isChain_cons.mpr ⟨fun y _ hy => absurd hy.1 (by simp), hpost.tail⟩
    · obtain rfl : _ = y := by simpa using hy
      simp
  · refine List.isChain_append.mpr ⟨hpre, ?_, fun x _ y hy => ?_⟩
    · refine List.isChain_cons_cons.mpr ⟨by simp, List.isChain_cons.mpr ⟨?_, hpost.tail⟩⟩
      intro y hy hboth
      exact (List.isChain_cons.mp hpost).1 y hy ⟨hfree, hboth.2⟩
    · obtain rfl : _ = y := by simpa using hy
      simp

/-- The block that is taken. -/
theorem taken_cut (s al : Nat) (b : Block) : ∃ c, taken (cut s al b) = [c] ∧
    c.data = up al (b.addr + 40) ∧ (Room s al b → c.data + s ≤ c.stop 40) := by
  unfold cut taken
  dsimp only
  split
  · exact ⟨_, rfl, rfl, fun hroom => up_add_le_stop hroom⟩
  · refine ⟨_, rfl, rfl, fun _ => ?_⟩
    have := le_up al (b.addr + 40)
    simp only [Block.stop]
    omega

theorem taken_append (bs cs : List Block) : taken (bs ++ cs) = taken bs ++ taken cs :=
  List.filter_append ..

/-- One more block in use. -/
theorem uses_insert {u : Use} {us live : List Use} {b : Block} {pre post : List Block}
    (hperm : us.Perm live) (hall : List.Forall₂ Serves us (pre ++ post)) (hu : Serves u b) :
    ∃ us', us'.Perm (u :: live) ∧ List.Forall₂ Serves us' (pre ++ b :: post) := by
  have hpre := List.forall₂_take_append us pre post hall
  have hpost := List.forall₂_drop_append us pre post hall
  refine ⟨us.take pre.length ++ u :: us.drop pre.length, ?_, List.rel_append hpre (.cons hu hpost)⟩
  refine List.perm_middle.trans (List.Perm.cons u ?_)
  rw [List.take_append_drop]
  exact hperm

/-- A request is answered, and only free blocks are written to. -/
theorem Heap.malloc {s : Client} {size align : UInt32} (h : Heap pool s bs)
    (hreq : Request size align) : ∃ p mem' bs', kmalloc pool size align s.mem = Part.some (p, mem') ∧
      Heap pool ⟨mem', if p = 0 then s.live else ⟨p, size, align⟩ :: s.live⟩ bs' ∧
      Keeps bs s.mem mem' := by
  obtain ⟨k, hk, hk3, hk32⟩ := hreq.ptrAlign
  obtain ⟨hs8, hsize⟩ := hreq.roundSize
  cases hall : allocate (roundSize size).toNat (2 ^ k) bs with
  | none =>
      have hnull := kmalloc_none h.placed.root_eq h.laid h.nonempty hk hk32 hall
      refine ⟨0, s.mem, bs, hnull, ?_, fun _ _ => rfl⟩
      rw [if_pos rfl]
      exact h
  | some q =>
      obtain ⟨d, cs⟩ := q
      obtain ⟨mem', hsome, hlaid, hkeep⟩ := kmalloc_some h.placed.root_eq h.laid h.nonempty hk hk32
        hk3 hs8 hall
      obtain ⟨pre, b, post, rfl, -, hroom, rfl, rfl⟩ := allocate_eq_some hall
      obtain ⟨c, hcut, hdata, hfit⟩ := taken_cut (roundSize size).toNat (2 ^ k) b
      have hfits := (h.laid.sound b (by simp)).fits
      have hstop := up_add_le_stop hroom
      have hup := le_up (2 ^ k) (b.addr + 40)
      have hp : (UInt64.ofNat (up (2 ^ k) (b.addr + 40))).toNat = up (2 ^ k) (b.addr + 40) :=
        UInt64.toNat_ofNat_of_lt' (show up (2 ^ k) (b.addr + 40) < 2 ^ 64 by omega)
      have hp0 : UInt64.ofNat (up (2 ^ k) (b.addr + 40)) ≠ 0 := by
        intro hz
        rw [hz] at hp
        have : (0 : UInt64).toNat = 0 := rfl
        omega
      have hserves : Serves ⟨UInt64.ofNat (up (2 ^ k) (b.addr + 40)), size, align⟩ c := by
        refine ⟨hp.trans hdata.symm, ?_, ?_⟩
        · have hc := hfit hroom
          dsimp only
          omega
        · rw [hk, hdata]
          exact dvd_up (Nat.two_pow_pos k) _
      obtain ⟨us, hperm, huses⟩ := h.uses
      have hbfree : taken (b :: post) = taken post := by simp [taken, hroom.1]
      rw [taken_append, hbfree] at huses
      obtain ⟨us', hperm', huses'⟩ := uses_insert hperm huses hserves
      refine ⟨_, mem', pre ++ (cut (roundSize size).toNat (2 ^ k) b ++ post), hsome, ?_, hkeep⟩
      rw [if_neg hp0]
      refine ⟨h.placed, hlaid, apart_cut _ _ hroom.1 h.apart, us', hperm', ?_⟩
      rw [taken_append, taken_append, hcut]
      exact huses'

/-! ### A block is given back -/

/-- The block of a use. -/
theorem Heap.find {s : Client} {u : Use} (h : Heap pool s bs) (hu : u ∈ s.live) :
    ∃ pre b post us₁ us₂, bs = pre ++ b :: post ∧ b.free = false ∧ Serves u b ∧
      s.live.Perm (u :: (us₁ ++ us₂)) ∧ List.Forall₂ Serves us₁ (taken pre) ∧
      List.Forall₂ Serves us₂ (taken post) := by
  obtain ⟨us, hperm, huses⟩ := h.uses
  obtain ⟨us₁, us₂, rfl⟩ := List.append_of_mem (hperm.mem_iff.mpr hu)
  have hpre := List.forall₂_take_append _ us₁ (u :: us₂) huses.flip
  have hpost := List.forall₂_drop_append _ us₁ (u :: us₂) huses.flip
  obtain ⟨b, t₂, hb, hrest, hdrop⟩ := List.forall₂_cons_right_iff.mp hpost
  have hsplit : taken bs = (taken bs).take us₁.length ++ b :: t₂ := by
    rw [← hdrop, List.take_append_drop]
  obtain ⟨pre, rest, rfl, htpre, htrest⟩ := List.filter_eq_append_iff.mp hsplit
  obtain ⟨mid, post, rfl, hmid, hbt, htpost⟩ := List.filter_eq_cons_iff.mp htrest
  refine ⟨pre ++ mid, b, post, us₁, us₂, by simp, by simpa using hbt, hb,
    hperm.symm.trans List.perm_middle, ?_, ?_⟩
  · have hmid' : taken mid = [] := List.filter_eq_nil_iff.mpr hmid
    have hpre' : taken pre = (taken (pre ++ (mid ++ b :: post))).take us₁.length := htpre
    rw [taken_append, hmid', List.append_nil, hpre']
    exact hpre.flip
  · have hpost' : taken post = t₂ := htpost
    rw [hpost']
    exact hrest.flip

/-- A byte of a block that serves is in no free block. -/
theorem Serves.not_free {u : Use} {b c : Block} {a e x : Nat} (hserves : Serves u b)
    (ht : Tiles 40 a bs e) (hb : b ∈ bs) (hs : Sound b) (htaken : b.free = false) (hc : c ∈ bs)
    (hfree : c.free) (hx : u.Has x) : x < c.addr ∨ c.stop 40 ≤ x := by
  have habove := hs.above
  have hroom := hserves.room
  obtain ⟨hle, hlt⟩ := hx
  rw [hserves.ptr] at hle hlt
  have hne : c ≠ b := by
    rintro rfl
    rw [htaken] at hfree
    exact absurd hfree (by simp)
  have := ht.disjoint hc hb hne
  omega

theorem Serves.exists_of_mem {us : List Use} {cs : List Block} {u : Use}
    (hall : List.Forall₂ Serves us cs) (hu : u ∈ us) : ∃ c ∈ cs, Serves u c := by
  obtain ⟨i, hi, rfl⟩ := List.getElem_of_mem hu
  have hi' : i < cs.length := hall.length_eq ▸ hi
  exact ⟨cs[i], List.getElem_mem hi', hall.get hi hi'⟩

/-- A block is taken back, and the client's other bytes are left alone. -/
theorem Heap.free {s : Client} {u : Use} (h : Heap pool s bs) (hu : u ∈ s.live) :
    ∃ pre b post mem', bs = pre ++ b :: post ∧ Serves u b ∧
      kfree pool u.ptr s.mem = Part.some ((), mem') ∧
      Heap pool ⟨mem', s.live.erase u⟩ (coalesce 40 (pre ++ { b with free := true } :: post)) ∧
      ∀ x, (Client.mk s.mem (s.live.erase u)).Has pool x → mem' x = s.mem x := by
  obtain ⟨pre, b, post, us₁, us₂, rfl, htaken, hserves, hperm, hpre, hpost⟩ := h.find hu
  have hb : b.stop 40 ≤ pool.stop := (h.laid.tiles.mem (by simp)).2
  have hroom := hserves.room
  have hp : u.ptr = UInt64.ofNat b.data := by
    rw [← hserves.ptr, UInt64.ofNat_toNat]
  have hrest : (us₁ ++ us₂).Perm (s.live.erase u) := by
    have herase := (hperm.erase u).symm
    rwa [List.erase_cons_head] at herase
  have hall : List.Forall₂ Serves (us₁ ++ us₂) (taken (pre ++ post)) := by
    rw [taken_append]
    exact List.rel_append hpre hpost
  obtain ⟨mem', hfree, hlaid, hspare, -⟩ := kfree_eq (e := pool.stop) h.placed.root_eq rfl rfl
    h.placed.fits h.laid htaken (by omega)
  refine ⟨pre, b, post, mem', rfl, hserves, by rw [hp]; exact hfree, ?_, fun x hx => ?_⟩
  · refine ⟨h.placed, hlaid, apart_coalesce _, us₁ ++ us₂, hrest, ?_⟩
    have htk : taken (coalesce 40 (pre ++ { b with free := true } :: post))
        = taken (pre ++ post) := by
      unfold taken
      rw [taken_coalesce, List.filter_append, List.filter_append]
      rfl
    rw [htk]
    exact hall
  · have htiles := h.laid.setFree.tiles
    refine hspare.keeps h.laid.setFree.sound x fun c hc hcfree => ?_
    rcases hx with ⟨v, hv, hvx⟩ | hx
    · obtain ⟨d, hd, hvd⟩ := Serves.exists_of_mem hall (hrest.mem_iff.mpr hv)
      obtain ⟨hdmem, hdtaken⟩ := List.mem_filter.mp hd
      have hdmem' : d ∈ pre ∨ d ∈ post := List.mem_append.mp hdmem
      refine hvd.not_free htiles ?_ (h.laid.sound d ?_) (by simpa using hdtaken) hc hcfree hvx
      · simp only [List.mem_append, List.mem_cons]
        tauto
      · simp only [List.mem_append, List.mem_cons]
        tauto
    · have := htiles.mem hc
      omega

/-! ### A byte is written -/

/-- A byte that the client may write to is nobody's own. -/
theorem Heap.not_own {s : Client} {x : Nat} (h : Heap pool s bs)
    (hx : s.Has pool x) :
    ∀ b ∈ bs, ¬Own b x := by
  intro c hc ho
  have hin := h.laid.tiles.mem hc
  have hlt := ho.stop (h.laid.sound c hc)
  have hcx := ho.1
  rcases hx with ⟨u, hu, hux⟩ | hx
  · obtain ⟨pre, b, post, -, -, rfl, htaken, hserves, -⟩ := h.find hu
    have hs := h.laid.sound b (by simp)
    have habove := hs.above
    have hroom := hserves.room
    obtain ⟨hle, hlt'⟩ := hux
    rw [hserves.ptr] at hle hlt'
    by_cases hbc : c = b
    · subst hbc
      have hown := ho.2
      rw [htaken] at hown
      simp only [Bool.false_eq_true, if_false] at hown
      omega
    · have := h.laid.tiles.disjoint hc (by simp) hbc
      omega
  · omega

theorem Heap.write {s : Client} {x : Nat} {v : UInt8} (h : Heap pool s bs)
    (hx : s.Has pool x) :
    Heap pool ⟨Function.update s.mem x v, s.live⟩ bs := by
  refine ⟨h.placed, h.laid.congr fun b hb y ho => ?_, h.apart, h.uses⟩
  refine Function.update_of_ne (fun hyx => ?_) _ _
  subst hyx
  exact h.not_own hx b hb ho

/-- **The invariant holds in every state that a program can come to.** -/
theorem Reach.heap {s : Client} (hr : Reach pool s) : ∃ bs, Heap pool s bs := by
  induction hr with
  | init hbuf hrun => exact ⟨_, heap_init hbuf hrun⟩
  | step _ hstep ih =>
      obtain ⟨bs, h⟩ := ih
      cases hstep with
      | malloc size align hreq hrun =>
          obtain ⟨p, mem', bs', hrun', h', -⟩ := h.malloc hreq
          rw [hrun'] at hrun
          obtain ⟨rfl, rfl⟩ := Prod.mk.inj (Part.some_inj.mp hrun)
          exact ⟨bs', h'⟩
      | free hu hrun =>
          obtain ⟨_, _, _, mem', -, -, hrun', h', -⟩ := h.free hu
          rw [hrun'] at hrun
          obtain ⟨-, rfl⟩ := Prod.mk.inj (Part.some_inj.mp hrun)
          exact ⟨_, h'⟩
      | write x v hx => exact ⟨bs, h.write hx⟩

/-! ### Blocks in use -/

/-- A block in use is in a block of the pool, and no other one is. -/
theorem Heap.disjoint {s : Client} (h : Heap pool s bs) :
    s.live.Pairwise fun u v => ∀ x, ¬(u.Has x ∧ v.Has x) := by
  obtain ⟨us, hperm, huses⟩ := h.uses
  have hsymm : Std.Symm fun u v : Use => ∀ x, ¬(u.Has x ∧ v.Has x) :=
    ⟨fun _ _ huv x hx => huv x hx.symm⟩
  refine (hperm.pairwise_iff fun huv => hsymm.symm _ _ huv).mp ?_
  have hsub : (taken bs).Sublist bs := List.filter_sublist
  have htiles : (taken bs).Pairwise fun b c => b.stop 40 ≤ c.addr := h.laid.tiles.pairwise.sublist hsub
  have hsound : ∀ b ∈ taken bs, Sound b := fun b hb => h.laid.sound b (hsub.mem hb)
  clear hperm hsub
  generalize taken bs = ts at huses htiles hsound
  induction huses with
  | nil => exact .nil
  | @cons u b us' cs hub hrest ih =>
      obtain ⟨hfirst, hlater⟩ := List.pairwise_cons.mp htiles
      refine .cons (fun v hv x hx => ?_)
        (ih hlater fun c hc => hsound c (List.mem_cons_of_mem b hc))
      obtain ⟨c, hc, hvc⟩ := Serves.exists_of_mem hrest hv
      have hstop := hfirst c hc
      have habove := (hsound c (List.mem_cons_of_mem b hc)).above
      have hroom := hub.room
      have hu := hx.1.2
      have hv := hx.2.1
      rw [hub.ptr] at hu
      rw [hvc.ptr] at hv
      omega

/-- The client's bytes are in no free block. -/
theorem Heap.not_free {s : Client} {x : Nat} (h : Heap pool s bs) (hx : s.Has pool x) :
    ∀ b ∈ bs, b.free → x < b.addr ∨ b.stop 40 ≤ x := by
  intro c hc hfree
  rcases hx with ⟨u, hu, hux⟩ | hx
  · obtain ⟨pre, b, post, -, -, rfl, htaken, hserves, -⟩ := h.find hu
    exact hserves.not_free h.laid.tiles (by simp) (h.laid.sound b (by simp)) htaken hc hfree hux
  · have := h.laid.tiles.mem hc
    omega

/-- A block in use lies in the pool, behind a node, and is aligned. -/
theorem Heap.within {s : Client} {u : Use} (h : Heap pool s bs) (hu : u ∈ s.live) :
    pool.base.toNat + 40 ≤ u.ptr.toNat ∧ u.ptr.toNat + u.size.toNat ≤ pool.stop ∧
      (ptrAlign u.align).toNat ∣ u.ptr.toNat := by
  obtain ⟨pre, b, post, -, -, rfl, -, hserves, -⟩ := h.find hu
  have hin := h.laid.tiles.mem (b := b) (by simp)
  have habove := (h.laid.sound b (by simp)).above
  have hroom := hserves.room
  rw [hserves.ptr]
  exact ⟨by omega, by omega, hserves.dvd⟩

/-- What a client may rely on: its blocks do not overlap, lie in the pool and are aligned, and the
calls return and leave its bytes alone. -/
structure Safe (pool : Mempool) (s : Client) : Prop where
  disjoint : s.live.Pairwise fun u v => ∀ x, ¬(u.Has x ∧ v.Has x)
  within : ∀ u ∈ s.live, pool.base.toNat + 40 ≤ u.ptr.toNat ∧
    u.ptr.toNat + u.size.toNat ≤ pool.stop ∧ (ptrAlign u.align).toNat ∣ u.ptr.toNat
  malloc : ∀ size align, Request size align → ∃ p mem',
    kmalloc pool size align s.mem = Part.some (p, mem') ∧ ∀ x, s.Has pool x → mem' x = s.mem x
  free : ∀ u ∈ s.live, ∃ mem', kfree pool u.ptr s.mem = Part.some ((), mem') ∧
    ∀ x, (Client.mk s.mem (s.live.erase u)).Has pool x → mem' x = s.mem x

/-- **In every run, whatever a program does with the heap, it is safe.** -/
theorem reach_safe {s : Client} (hr : Reach pool s) : Safe pool s := by
  obtain ⟨bs, h⟩ := hr.heap
  refine ⟨h.disjoint, fun u hu => h.within hu, fun size align hreq => ?_, fun u hu => ?_⟩
  · obtain ⟨p, mem', bs', hrun, -, hkeep⟩ := h.malloc hreq
    exact ⟨p, mem', hrun, fun x hx => hkeep x (h.not_free hx)⟩
  · obtain ⟨_, _, _, mem', -, -, hrun, -, hkeep⟩ := h.free hu
    exact ⟨mem', hrun, hkeep⟩

/-! A pool of a page, new and with a block in use. -/

def page : Mempool := ⟨0x1000, 0x1000, 0x1000⟩

theorem page_reach : ∃ mem, Reach page ⟨mem, []⟩ ∧
    Heap page ⟨mem, []⟩ [⟨0x1000, 0xFD8, true, 0x1028⟩] := by
  have hbuf : Buffer 0x1000 0x1000 := ⟨by decide, by decide, by decide, by decide⟩
  obtain ⟨mem, hinit⟩ : ∃ mem, kmeminit 0x1000 0x1000 (fun _ => 0) = Part.some (page, mem) :=
    ⟨_, rfl⟩
  exact ⟨mem, .init hbuf hinit, heap_init hbuf hinit⟩

theorem page_request : Request 100 32 := ⟨by decide, Or.inr ⟨5, rfl⟩⟩

theorem page_kmalloc (h : Heap page ⟨mem, []⟩ [⟨0x1000, 0xFD8, true, 0x1028⟩]) :
    ∃ mem', kmalloc page 100 32 mem = Part.some (0x1040, mem') := by
  have hk : (ptrAlign 32).toNat = 2 ^ 5 := rfl
  have hall : allocate (roundSize 100).toNat (2 ^ 5) [⟨0x1000, 0xFD8, true, 0x1028⟩]
      = some (0x1040, [⟨0x1000, 0x80, false, 0x1040⟩, ⟨0x10A8, 0xF30, true, 0x10D0⟩]) := rfl
  obtain ⟨mem', hrun, -⟩ := kmalloc_some h.placed.root_eq h.laid h.nonempty hk (by decide)
    (by decide) (by decide) hall
  exact ⟨mem', hrun⟩

theorem page_reach_used : ∃ mem, Reach page ⟨mem, [⟨0x1040, 100, 32⟩]⟩ := by
  obtain ⟨mem, hr, h⟩ := page_reach
  obtain ⟨mem', hrun⟩ := page_kmalloc h
  have hr' := hr.step (.malloc 100 32 page_request hrun)
  rw [if_neg (by decide)] at hr'
  exact ⟨mem', hr'⟩

theorem reach_safe_page : ∃ mem, Safe page ⟨mem, [⟨0x1040, 100, 32⟩]⟩ := by
  obtain ⟨mem, hr⟩ := page_reach_used
  exact ⟨mem, reach_safe hr⟩

end Xell.Malloc
