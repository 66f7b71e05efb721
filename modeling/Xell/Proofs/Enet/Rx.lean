/-
The receive ring.

The frames that were stored and not yet taken out lie in the slots from the driver's place on;
all other descriptors wait for a frame, as `rx_init` left them.  While `enet_linkinput` reclaims
a descriptor its slot is neither: the frame has been read, but the chip does not have the slot
back.  Such a slot is an item of the queue without a frame, so that the queue keeps its shape
until the ownership bit is written.

`RxOK` is the invariant.  It is stated for every place in the driver where the chip may come
in, and what the chip does is the same push everywhere.
-/
import Xell.Proofs.Enet.Descr

namespace Xell.Enet

/-! ### One slot -/

/-- Descriptor `d` is the driver's, and holds the frame `f`. -/
structure Stored (m : Mem UInt8) (descr : Mem (BitVec 32)) (d : Nat) (f : List UInt8) : Prop where
  given : busy descr d = false
  fits : f.length ≤ mtu
  len : (swap32 (descr (d * 4 + 0)) &&& 0xFFFF).toNat = f.length
  bytes : m.slice (rxBuffer d) f.length = f

/-- An item of the queue: a frame, or a slot whose frame has been read. -/
def Item (m : Mem UInt8) (descr : Mem (BitVec 32)) (d : Nat) : Option (List UInt8) → Prop
  | some f => Stored m descr d f
  | none => busy descr d = false

/-- Descriptor `d` waits for a frame. -/
def Waiting (descr : Mem (BitVec 32)) (d : Nat) : Prop := ∀ k < 4, descr (d * 4 + k) = rxWord d k

theorem Waiting.busy {descr : Mem (BitVec 32)} {d : Nat} (h : Waiting descr d) :
    busy descr d = true := by
  unfold Enet.busy
  rw [h 1 (by decide), show rxWord d 1 = swap32 0xc0000000 from rfl]
  decide

theorem mem_virtToPhys_rxBuffer {d : Nat} (hd : d < 16) :
    mem (virtToPhys (rxBuffer d)).toNat = rxBuffer d := by
  unfold mem virtToPhys rxBuffer rxBase mem rxDescriptorNum mtu
  rw [BitVec.toNat_ofNat]
  omega

/-- A frame stored in one buffer is in no other. -/
theorem slice_store_rxBuffer {m : Mem UInt8} {d k n l : Nat} (h : d ≠ k) (hn : n ≤ mtu)
    (hl : l ≤ mtu) (g : Nat → UInt8) :
    (m.store (rxBuffer k) l g).slice (rxBuffer d) n = m.slice (rxBuffer d) n := by
  rcases buffers_apart (b := rxBase + rxDescriptorNum * 0x10) h hn hl with hlt | hgt
  · exact Mem.slice_store_after m l g hlt
  · exact Mem.slice_store_before m l g hgt

section Slot

variable {m : Mem UInt8} {descr : Mem (BitVec 32)} {d k j : Nat} {x : Option (List UInt8)}

theorem Item.given (h : Item m descr d x) : busy descr d = false := by
  cases x with
  | none => exact h
  | some f => exact Stored.given h

theorem Item.update_descr (h : Item m descr d x) (hne : d ≠ k) (hj : j < 4) (w : BitVec 32) :
    Item m (Function.update descr (k * 4 + j) w) d x := by
  cases x with
  | none =>
      show busy _ d = false
      rw [busy_update_ne hne hj]
      exact h
  | some f =>
      obtain ⟨hgiven, hfits, hlen, hbytes⟩ : Stored m descr d f := h
      refine ⟨?_, hfits, ?_, hbytes⟩
      · rw [busy_update_ne hne hj]
        exact hgiven
      · rw [word_update_ne (Or.inl hne) hj (by decide)]
        exact hlen

theorem Item.store (h : Item m descr d x) {l : Nat} (hne : d ≠ k) (hl : l ≤ mtu)
    (g : Nat → UInt8) : Item (m.store (rxBuffer k) l g) descr d x := by
  cases x with
  | none => exact h
  | some f =>
      obtain ⟨hgiven, hfits, hlen, hbytes⟩ : Stored m descr d f := h
      refine ⟨hgiven, hfits, hlen, ?_⟩
      rw [slice_store_rxBuffer hne hfits hl]
      exact hbytes

theorem Waiting.update_descr (h : Waiting descr d) (hne : d ≠ k) (hj : j < 4) (w : BitVec 32) :
    Waiting (Function.update descr (k * 4 + j) w) d := by
  intro i hi
  rw [word_update_ne (Or.inl hne) hj hi]
  exact h i hi

end Slot

/-! ### The invariant -/

/-- The first slot of the queue. -/
def firstSlot (s : Rx) : Nat :=
  match s.pc with
  | .advance _ => (s.rptr + 1) % 16
  | _ => s.rptr

/-- The slot that is being reclaimed. -/
def reclaimed : RxPc → List (Option (List UInt8))
  | .word2 _ => [none]
  | .word3 _ => [none]
  | .word0 _ => [none]
  | .word1 _ => [none]
  | _ => []

/-- What the call that runs is going to return. -/
def result : RxPc → List Input
  | .word2 p => [p]
  | .word3 p => [p]
  | .word0 p => [p]
  | .word1 p => [p]
  | .advance p => [p]
  | _ => []

def queue (s : Rx) (q : List (List UInt8)) : List (Option (List UInt8)) :=
  reclaimed s.pc ++ q.map some

/-- The frame was returned, unless there was no `pbuf` for it. -/
def Outcome (o : Input) (f : List UInt8) : Prop := o = .returned f ∨ o = .dropped

/-- What holds of the slot at the driver's place. -/
def AtPlace (s : Rx) (q : List (List UInt8)) : RxPc → Prop
  | .size _ => ∃ f q', q = f :: q'
  | .copy n lens rptr got => ∃ f q', q = f :: q' ∧ rptr + (n + lens.sum) = f.length ∧
      got = s.mem.slice (rxBuffer s.rptr) rptr
  | .word3 _ => ∀ k ∈ [2], s.descr (s.rptr * 4 + k) = rxWord s.rptr k
  | .word0 _ => ∀ k ∈ [3, 2], s.descr (s.rptr * 4 + k) = rxWord s.rptr k
  | .word1 _ => ∀ k ∈ [0, 3, 2], s.descr (s.rptr * 4 + k) = rxWord s.rptr k
  | _ => True

/-- The frames `q` are stored and not yet taken out. -/
structure RxOK (s : Rx) (q : List (List UInt8)) : Prop where
  rptr : s.rptr < 16
  slots : Slots 16 (firstSlot s) (queue s q) (Item s.mem s.descr) (Waiting s.descr)
  nic : s.nic = Slots.back 16 (firstSlot s) (queue s q)
  books : ∃ taken, List.Forall₂ Outcome (s.out ++ result s.pc) taken ∧ s.stored = taken ++ q
  atPlace : AtPlace s q s.pc

theorem firstSlot_lt {s : Rx} (h : s.rptr < 16) : firstSlot s < 16 := by
  unfold firstSlot
  split
  · exact Nat.mod_lt _ (by decide)
  · exact h

theorem rxInit_ok (m : Mem UInt8) (descr : Mem (BitVec 32)) : RxOK (rxInit m descr) [] where
  rptr := Nat.two_pow_pos 4
  slots := by
    refine Slots.empty (by decide) fun d hd k hk => ?_
    unfold rxInit rxDescriptorNum
    dsimp only
    rw [← Nat.zero_add (d * 4 + k), Mem.store_at _ _ _ (by omega)]
    rw [show (d * 4 + k) / 4 = d by omega, show (d * 4 + k) % 4 = k by omega]
  nic := rfl
  books := ⟨[], List.Forall₂.nil, rfl⟩
  atPlace := trivial

/-! ### The chip -/

section Chip

variable {s : Rx} {q : List (List UInt8)} {frame : List UInt8} {status : BitVec 16}

/-- The state after the chip has stored a frame. -/
def storedOne (s : Rx) (frame : List UInt8) (status : BitVec 16) : Rx :=
  { s with
    mem := s.mem.store (rxBuffer s.nic) frame.length fun i => frame.getD i 0
    descr := Function.update
      (Function.update s.descr (s.nic * 4 + 0)
        (swap32 ((status ++ BitVec.ofNat 16 frame.length : BitVec 32))))
      (s.nic * 4 + 1) (release (s.descr (s.nic * 4 + 1)))
    nic := (s.nic + 1) % 16
    stored := s.stored ++ [frame] }

theorem storedOne_mem (s : Rx) (frame : List UInt8) (status : BitVec 16) :
    (storedOne s frame status).mem
      = s.mem.store (rxBuffer s.nic) frame.length fun i => frame.getD i 0 := by
  unfold storedOne
  rfl

theorem RxOK.nic_lt (h : RxOK s q) : s.nic < 16 := by
  rw [h.nic]
  exact Nat.mod_lt _ (by decide)

/-- A full ring has nothing for the chip. -/
theorem rxNic_full (h : RxOK s q) (hfull : (queue s q).length = 16) :
    rxNic frame status s = s := by
  have hback : s.nic = firstSlot s := by
    rw [h.nic]
    unfold Slots.back
    rw [hfull, Nat.add_mod_right, Nat.mod_eq_of_lt (firstSlot_lt h.rptr)]
  have hgiven : busy s.descr s.nic = false := by
    cases hq : queue s q with
    | nil => simp [hq] at hfull
    | cons x xs =>
        have hslots := h.slots
        rw [hq] at hslots
        rw [hback]
        exact (hslots.head (firstSlot_lt h.rptr)).given
  unfold rxNic
  rw [if_neg (by simp [hgiven])]

theorem rxNic_room (h : RxOK s q) (hroom : (queue s q).length < 16) :
    rxNic frame status s = storedOne s frame status := by
  have hwait : Waiting s.descr s.nic := by
    rw [h.nic]
    exact h.slots.back_free hroom
  have hdata : swap32 (s.descr (s.nic * 4 + 2)) = virtToPhys (rxBuffer s.nic) := by
    rw [hwait 2 (by decide)]
    exact swap32_swap32 _
  unfold rxNic storedOne
  rw [if_pos hwait.busy]
  dsimp only
  rw [hdata, mem_virtToPhys_rxBuffer h.nic_lt]
  rfl

theorem lengthBits {n : Nat} (hn : n ≤ mtu) :
    ((status ++ BitVec.ofNat 16 n : BitVec 32) &&& 0xFFFF).toNat = n := by
  unfold mtu at hn
  rw [BitVec.toNat_and, BitVec.toNat_append, BitVec.toNat_ofNat, Nat.mod_eq_of_lt (by omega)]
  show (status.toNat <<< 16 ||| n) &&& (2 ^ 16 - 1) = n
  rw [Nat.and_two_pow_sub_one_eq_mod, Nat.or_mod_two_pow, Nat.shiftLeft_eq, Nat.mul_mod_left,
    Nat.zero_or]
  omega

/-- The slot the chip has just filled. -/
theorem storedOne_item (hfits : frame.length ≤ mtu) :
    Item (storedOne s frame status).mem (storedOne s frame status).descr s.nic (some frame) where
  given := by
    unfold storedOne
    have hword : s.descr (s.nic * 4 + 1) = Function.update s.descr (s.nic * 4 + 0)
        (swap32 ((status ++ BitVec.ofNat 16 frame.length : BitVec 32))) (s.nic * 4 + 1) :=
      (word_update_ne (Or.inr (by decide)) (by decide) (by decide) _).symm
    dsimp only
    rw [hword]
    exact busy_release
  fits := hfits
  len := by
    unfold storedOne
    dsimp only
    rw [word_update_ne (Or.inr (by decide)) (by decide) (by decide), Function.update_self,
      swap32_swap32, lengthBits hfits]
  bytes := by
    rw [storedOne_mem, Mem.slice_store, Mem.map_getD]

theorem queue_append (s : Rx) (q : List (List UInt8)) (f : List UInt8) :
    queue s (q ++ [f]) = queue s q ++ [some f] := by
  unfold queue
  rw [List.map_append, List.append_assoc]
  rfl

/-- What the chip does changes nothing of another slot. -/
theorem storedOne_word {d k : Nat} (hne : d ≠ s.nic) (hk : k < 4) :
    (storedOne s frame status).descr (d * 4 + k) = s.descr (d * 4 + k) := by
  unfold storedOne
  dsimp only
  rw [word_update_ne (Or.inl hne) (by decide) hk, word_update_ne (Or.inl hne) (by decide) hk]

theorem storedOne_bytes {d n : Nat} (hne : d ≠ s.nic) (hn : n ≤ mtu) (hfits : frame.length ≤ mtu) :
    (storedOne s frame status).mem.slice (rxBuffer d) n = s.mem.slice (rxBuffer d) n := by
  rw [storedOne_mem, slice_store_rxBuffer hne hn hfits]

theorem storedOne_slots (h : RxOK s q) (hroom : (queue s q).length < 16)
    (hfits : frame.length ≤ mtu) :
    Slots 16 (firstSlot s) (queue s (q ++ [frame])) (Item (storedOne s frame status).mem
      (storedOne s frame status).descr) (Waiting (storedOne s frame status).descr) := by
  rw [queue_append]
  refine h.slots.push hroom ?_ ?_ ?_
  · rw [← h.nic]
    exact storedOne_item hfits
  · intro d _ hne x hx
    rw [← h.nic] at hne
    rw [storedOne_mem]
    have hw0 := (hx.store hne hfits fun i => frame.getD i 0).update_descr hne (j := 0) (by decide)
    exact (hw0 _).update_descr hne (j := 1) (by decide) _
  · intro d _ hne hd
    rw [← h.nic] at hne
    have hw0 := hd.update_descr hne (j := 0) (by decide)
    exact (hw0 _).update_descr hne (j := 1) (by decide) _

/-- The driver's slot is not the chip's, as long as there is an item in it. -/
theorem RxOK.rptr_ne_nic (h : RxOK s q) (hroom : (queue s q).length < 16)
    (hfirst : firstSlot s = s.rptr) (hne : queue s q ≠ []) : s.rptr ≠ s.nic := by
  rw [h.nic, hfirst]
  obtain ⟨x, xs, hq⟩ := List.exists_cons_of_ne_nil hne
  rw [hq] at hroom ⊢
  exact Slots.head_ne_back h.rptr hroom

theorem storedOne_atPlace (h : RxOK s q) (hroom : (queue s q).length < 16)
    (hfits : frame.length ≤ mtu) :
    AtPlace (storedOne s frame status) (q ++ [frame]) s.pc := by
  have hp := h.atPlace
  have hne := h.rptr_ne_nic hroom
  have hwords : s.rptr ≠ s.nic → ∀ ks : List Nat, (∀ k ∈ ks, k < 4) →
      (∀ k ∈ ks, s.descr (s.rptr * 4 + k) = rxWord s.rptr k) →
      ∀ k ∈ ks, (storedOne s frame status).descr (s.rptr * 4 + k) = rxWord s.rptr k := by
    intro hne ks hks h k hk
    rw [storedOne_word hne (hks k hk)]
    exact h k hk
  unfold firstSlot queue at hne
  cases hpc : s.pc with
  | idle => trivial
  | check _ => trivial
  | size _ =>
      rw [hpc] at hp
      obtain ⟨f, q', rfl⟩ := hp
      exact ⟨f, q' ++ [frame], rfl⟩
  | copy n lens rptr got =>
      rw [hpc] at hp hne
      obtain ⟨f, q', rfl, hlen, hgot⟩ := hp
      have hslots := h.slots
      unfold queue at hslots
      rw [hpc] at hslots
      have hf : f.length ≤ mtu := Stored.fits (hslots.head (firstSlot_lt h.rptr))
      refine ⟨f, q' ++ [frame], rfl, hlen, ?_⟩
      rw [hgot]
      exact (storedOne_bytes (hne rfl (by simp)) (by omega) hfits).symm
  | word2 _ => trivial
  | word3 _ =>
      rw [hpc] at hp hne
      exact hwords (hne rfl (by simp [reclaimed])) _ (by decide) hp
  | word0 _ =>
      rw [hpc] at hp hne
      exact hwords (hne rfl (by simp [reclaimed])) _ (by decide) hp
  | word1 _ =>
      rw [hpc] at hp hne
      exact hwords (hne rfl (by simp [reclaimed])) _ (by decide) hp
  | advance _ => trivial

theorem storedOne_ok (h : RxOK s q) (hroom : (queue s q).length < 16)
    (hfits : frame.length ≤ mtu) : RxOK (storedOne s frame status) (q ++ [frame]) := by
  have hfirst : firstSlot (storedOne s frame status) = firstSlot s := rfl
  have hqueue : queue (storedOne s frame status) (q ++ [frame]) = queue s (q ++ [frame]) := rfl
  refine ⟨h.rptr, ?_, ?_, ?_, ?_⟩
  · rw [hfirst, hqueue]
    exact storedOne_slots h hroom hfits
  · rw [hfirst, hqueue, queue_append, Slots.back_push, ← h.nic]
    rfl
  · obtain ⟨taken, hout, hstored⟩ := h.books
    refine ⟨taken, hout, ?_⟩
    show s.stored ++ [frame] = _
    rw [hstored, List.append_assoc]
  · exact storedOne_atPlace h hroom hfits

theorem rxNic_ok (h : RxOK s q) (hfits : frame.length ≤ mtu) :
    ∃ q', RxOK (rxNic frame status s) q' := by
  rcases Nat.lt_or_ge (queue s q).length 16 with hroom | hfull
  · rw [rxNic_room h hroom]
    exact ⟨q ++ [frame], storedOne_ok h hroom hfits⟩
  · rw [rxNic_full h (Nat.le_antisymm h.slots.fits hfull)]
    exact ⟨q, h⟩

end Chip

/-! ### The driver -/

section Driver

variable {s : Rx} {q : List (List UInt8)} {f : List UInt8}

theorem RxOK.queue_eq (h : RxOK s q) {r : List (Option (List UInt8))} {d : Nat}
    (hr : reclaimed s.pc = r) (hd : firstSlot s = d) :
    Slots 16 d (r ++ q.map some) (Item s.mem s.descr) (Waiting s.descr) ∧
      s.nic = Slots.back 16 d (r ++ q.map some) := by
  subst hr hd
  exact ⟨h.slots, h.nic⟩

/-- A descriptor that the chip has given back holds a frame. -/
theorem check_ok {alloc : Alloc} (h : RxOK s q) (hpc : s.pc = .check alloc)
    (hgiven : busy s.descr s.rptr = false) : RxOK { s with pc := .size alloc } q := by
  obtain ⟨hslots, hnic⟩ := h.queue_eq (r := []) (by rw [hpc]; rfl) (by unfold firstSlot; rw [hpc])
  have hbooks := h.books
  rw [hpc] at hbooks
  refine ⟨h.rptr, hslots, hnic, hbooks, ?_⟩
  cases q with
  | cons f q' => exact ⟨f, q', rfl⟩
  | nil =>
      have hwait := hslots.free 0 (Nat.le_refl 0) (by decide)
      rw [Slots.slot_zero h.rptr] at hwait
      rw [hwait.busy] at hgiven
      simp at hgiven

/-- The frame at the driver's place has been read, and is going to be `p`. -/
theorem taken_ok {p : Input} (h : RxOK s (f :: q)) (hr : reclaimed s.pc = [])
    (hd : firstSlot s = s.rptr) (hres : result s.pc = []) (hp : Outcome p f) :
    RxOK { s with pc := .word2 p } q := by
  obtain ⟨hslots, hnic⟩ := h.queue_eq hr hd
  have hbooks := h.books
  rw [hres, List.append_nil] at hbooks
  obtain ⟨taken, hout, hstored⟩ := hbooks
  refine ⟨h.rptr, ?_, hnic, ⟨taken ++ [f], ?_, ?_⟩, trivial⟩
  · exact hslots.set_head h.rptr (hslots.head h.rptr).given (fun _ _ _ _ hx => hx)
      fun _ _ _ hx => hx
  · exact List.rel_append hout (List.Forall₂.cons hp List.Forall₂.nil)
  · show s.stored = _
    rw [hstored, List.append_assoc]
    rfl

theorem size_ok {alloc : Alloc} (h : RxOK s q) (hpc : s.pc = .size alloc) :
    ∃ q', RxOK (rxDriver s) q' := by
  have hp := h.atPlace
  rw [hpc] at hp
  obtain ⟨f, q', rfl⟩ := hp
  have hr : reclaimed s.pc = [] := by rw [hpc]; rfl
  have hd : firstSlot s = s.rptr := by unfold firstSlot; rw [hpc]
  obtain ⟨hslots, hnic⟩ := h.queue_eq hr hd
  have hlen : _ = f.length := Stored.len (hslots.head h.rptr)
  unfold rxDriver
  rw [hpc]
  dsimp only
  rw [hlen]
  cases hchain : alloc.chain f.length with
  | none => exact ⟨q', taken_ok h hr hd (by rw [hpc]; rfl) (Or.inr rfl)⟩
  | some lens =>
      have hbooks := h.books
      rw [hpc] at hbooks
      refine ⟨f :: q', h.rptr, hslots, hnic, hbooks, f, q', rfl, ?_, rfl⟩
      rw [Nat.zero_add, Nat.zero_add]
      exact alloc.sum_eq _ _ hchain

theorem copy_ok {n rptr : Nat} {lens : List Nat} {got : List UInt8} (h : RxOK s q)
    (hpc : s.pc = .copy n lens rptr got) : ∃ q', RxOK (rxDriver s) q' := by
  have hp := h.atPlace
  rw [hpc] at hp
  obtain ⟨f, q', rfl, hlen, hgot⟩ := hp
  have hr : reclaimed s.pc = [] := by rw [hpc]; rfl
  have hd : firstSlot s = s.rptr := by unfold firstSlot; rw [hpc]
  obtain ⟨hslots, hnic⟩ := h.queue_eq hr hd
  have hbooks := h.books
  rw [hpc] at hbooks
  unfold rxDriver
  rw [hpc]
  cases n with
  | succ n =>
      refine ⟨f :: q', h.rptr, hslots, hnic, hbooks, f, q', rfl, by omega, ?_⟩
      show got ++ [_] = s.mem.slice (rxBuffer s.rptr) (rptr + 1)
      rw [Mem.slice_add, Mem.slice_one, hgot]
  | zero =>
      cases lens with
      | cons len lens =>
          rw [List.sum_cons] at hlen
          exact ⟨f :: q', h.rptr, hslots, hnic, hbooks, f, q', rfl, by omega, hgot⟩
      | nil =>
          have hf : got = f := by
            rw [hgot, show rptr = f.length by simpa using hlen]
            exact Stored.bytes (hslots.head h.rptr)
          exact ⟨q', taken_ok h hr hd (by rw [hpc]; rfl) (Or.inl (by rw [hf]))⟩

/-- A word of the slot that is being reclaimed, if it is not word 1. -/
theorem reclaim_slots (h : RxOK s q) (hr : reclaimed s.pc = [none]) (hd : firstSlot s = s.rptr)
    {k : Nat} (hk : k < 4) (h1 : k ≠ 1) (w : BitVec 32) :
    Slots 16 s.rptr ([none] ++ q.map some)
      (Item s.mem (Function.update s.descr (s.rptr * 4 + k) w))
      (Waiting (Function.update s.descr (s.rptr * 4 + k) w)) := by
  obtain ⟨hslots, -⟩ := h.queue_eq hr hd
  refine hslots.set_head h.rptr ?_ ?_ ?_
  · show busy _ _ = false
    rw [busy_update_other h1 hk]
    exact (hslots.head h.rptr).given
  · intro d _ hne x hx
    exact hx.update_descr hne hk w
  · intro d _ hne hx
    exact hx.update_descr hne hk w

/-- The words written so far stay, and one more is as it should be. -/
theorem words_update {ks : List Nat} {descr : Mem (BitVec 32)} {d k : Nat} (hk : k < 4)
    (hks : ∀ j ∈ ks, j < 4 ∧ j ≠ k) (h : ∀ j ∈ ks, descr (d * 4 + j) = rxWord d j) :
    ∀ j ∈ k :: ks, Function.update descr (d * 4 + k) (rxWord d k) (d * 4 + j) = rxWord d j := by
  intro j hj
  rcases List.mem_cons.mp hj with rfl | hj
  · exact Function.update_self ..
  · rw [word_update_ne (Or.inr (Ne.symm (hks j hj).2)) hk (hks j hj).1]
    exact h j hj

/-- The last word hands the slot over. -/
theorem word1_ok {p : Input} (h : RxOK s q) (hpc : s.pc = .word1 p) :
    RxOK { s with
      descr := Function.update s.descr (s.rptr * 4 + 1) (swap32 0xc0000000)
      pc := .advance p } q := by
  have hp := h.atPlace
  obtain ⟨hslots, hnic⟩ := h.queue_eq (r := [none]) (by rw [hpc]; rfl)
    (by unfold firstSlot; rw [hpc])
  have hbooks := h.books
  rw [hpc] at hbooks hp
  have hwords := words_update (k := 1) (by decide) (by decide) hp
  refine ⟨h.rptr, ?_, ?_, hbooks, trivial⟩
  · refine Slots.pop hslots h.rptr ?_ ?_ ?_
    · intro k hk
      refine hwords k ?_
      interval_cases k <;> decide
    · intro d _ hne x hx
      exact hx.update_descr hne (by decide) _
    · intro d _ hne hx
      exact hx.update_descr hne (by decide) _
  · rw [hnic]
    exact (Slots.back_pop 16 s.rptr none (q.map some)).symm

theorem rxDriver_ok (h : RxOK s q) : ∃ q', RxOK (rxDriver s) q' := by
  have hp := h.atPlace
  have hbooks := h.books
  cases hpc : s.pc with
  | idle =>
      unfold rxDriver
      rw [hpc]
      exact ⟨q, h⟩
  | check alloc =>
      obtain ⟨hslots, hnic⟩ := h.queue_eq (r := []) (by rw [hpc]; rfl)
        (by unfold firstSlot; rw [hpc])
      rw [hpc] at hbooks
      unfold rxDriver
      rw [hpc]
      dsimp only
      split
      · exact ⟨q, h.rptr, hslots, hnic, hbooks, trivial⟩
      · rename_i hgiven
        exact ⟨q, check_ok h hpc (by simpa using hgiven)⟩
  | size alloc => exact size_ok h hpc
  | copy n lens rptr got => exact copy_ok h hpc
  | word2 p =>
      have hr : reclaimed s.pc = [none] := by rw [hpc]; rfl
      have hd : firstSlot s = s.rptr := by unfold firstSlot; rw [hpc]
      rw [hpc] at hbooks
      unfold rxDriver
      rw [hpc]
      refine ⟨q, h.rptr, reclaim_slots h hr hd (by decide) (by decide) _,
        (h.queue_eq hr hd).2, hbooks, ?_⟩
      exact words_update (k := 2) (by decide) (List.forall_mem_nil _) (List.forall_mem_nil _)
  | word3 p =>
      have hr : reclaimed s.pc = [none] := by rw [hpc]; rfl
      have hd : firstSlot s = s.rptr := by unfold firstSlot; rw [hpc]
      rw [hpc] at hbooks hp
      unfold rxDriver
      rw [hpc]
      refine ⟨q, h.rptr, reclaim_slots h hr hd (by decide) (by decide) _,
        (h.queue_eq hr hd).2, hbooks, ?_⟩
      exact words_update (k := 3) (by decide) (by decide) hp
  | word0 p =>
      have hr : reclaimed s.pc = [none] := by rw [hpc]; rfl
      have hd : firstSlot s = s.rptr := by unfold firstSlot; rw [hpc]
      rw [hpc] at hbooks hp
      unfold rxDriver
      rw [hpc]
      refine ⟨q, h.rptr, reclaim_slots h hr hd (by decide) (by decide) _,
        (h.queue_eq hr hd).2, hbooks, ?_⟩
      exact words_update (k := 0) (by decide) (by decide) hp
  | word1 p =>
      unfold rxDriver
      rw [hpc]
      exact ⟨q, word1_ok h hpc⟩
  | advance p =>
      obtain ⟨hslots, hnic⟩ := h.queue_eq (r := []) (by rw [hpc]; rfl)
        (by unfold firstSlot; rw [hpc])
      obtain ⟨taken, hout, hstored⟩ := hbooks
      rw [hpc] at hout
      unfold rxDriver
      rw [hpc]
      refine ⟨q, Nat.mod_lt _ (by decide), hslots, hnic, ⟨taken, ?_, hstored⟩, trivial⟩
      show List.Forall₂ Outcome ((s.out ++ [p]) ++ []) taken
      rw [List.append_nil]
      exact hout

end Driver

/-! ### Runs -/

theorem linkinput_ok {s : Rx} {q : List (List UInt8)} (h : RxOK s q) (alloc : Alloc) :
    RxOK (rxStep s (.linkinput alloc)) q := by
  unfold rxStep
  cases hpc : s.pc with
  | idle =>
      obtain ⟨hslots, hnic⟩ := h.queue_eq (r := []) (by rw [hpc]; rfl)
        (by unfold firstSlot; rw [hpc])
      have hbooks := h.books
      rw [hpc] at hbooks
      exact ⟨h.rptr, hslots, hnic, hbooks, trivial⟩
  | check _ => exact h
  | size _ => exact h
  | copy _ _ _ _ => exact h
  | word2 _ => exact h
  | word3 _ => exact h
  | word0 _ => exact h
  | word1 _ => exact h
  | advance _ => exact h

theorem rxStep_ok {s : Rx} {q : List (List UInt8)} (h : RxOK s q) (e : RxEvent) :
    ∃ q', RxOK (rxStep s e) q' := by
  cases e with
  | linkinput alloc => exact ⟨q, linkinput_ok h alloc⟩
  | driver => exact rxDriver_ok h
  | nic frame status fits => exact rxNic_ok h fits

theorem rxRun_ok :
    ∀ (es : List RxEvent) (s : Rx) (q : List (List UInt8)), RxOK s q → ∃ q', RxOK (rxRun s es) q' := by
  intro es
  induction es with
  | nil => intro s q h; exact ⟨q, h⟩
  | cons e es ih =>
      intro s q h
      obtain ⟨q', h'⟩ := rxStep_ok h e
      exact ih (rxStep s e) q' h'

/-! ### A call on its own -/

/-- `n` accesses of the driver, with none of the chip in between. -/
def drive (n : Nat) (s : Rx) : Rx := rxRun s (List.replicate n .driver)

theorem drive_succ (n : Nat) (s : Rx) : drive (n + 1) s = drive n (rxDriver s) := rfl

theorem drive_add : ∀ (n k : Nat) (s : Rx), drive (n + k) s = drive k (drive n s) := by
  intro n
  induction n with
  | zero => intro k s; rw [Nat.zero_add]; rfl
  | succ n ih =>
      intro k s
      rw [Nat.succ_add, drive_succ, ih, drive_succ]

/-- One `pbuf` is filled. -/
theorem drive_bytes :
    ∀ (n rptr : Nat) (lens : List Nat) (got : List UInt8) (s : Rx), s.pc = .copy n lens rptr got →
      drive n s = { s with
        pc := .copy 0 lens (rptr + n) (got ++ s.mem.slice (rxBuffer s.rptr + rptr) n) } := by
  intro n
  induction n with
  | zero =>
      intro rptr lens got s hpc
      rw [Mem.slice_zero, List.append_nil, Nat.add_zero, ← hpc]
      rfl
  | succ n ih =>
      intro rptr lens got s hpc
      have hstep : rxDriver s = { s with
          pc := .copy n lens (rptr + 1) (got ++ [s.mem (rxBuffer s.rptr + rptr)]) } := by
        unfold rxDriver
        rw [hpc]
      rw [drive_succ, hstep, ih _ _ _ _ rfl, Mem.slice_succ]
      simp only [List.append_assoc, List.singleton_append, Nat.add_assoc, Nat.add_comm 1 n]

/-- The copy ends, with as many bytes as the chain has room for. -/
theorem drive_copy :
    ∀ (lens : List Nat) (n rptr : Nat) (got : List UInt8) (s : Rx),
      s.pc = .copy n lens rptr got → ∃ k, drive k s = { s with
        pc := .word2 (.returned (got ++ s.mem.slice (rxBuffer s.rptr + rptr) (n + lens.sum))) } := by
  intro lens
  induction lens with
  | nil =>
      intro n rptr got s hpc
      refine ⟨n + 1, ?_⟩
      rw [drive_add, drive_bytes n rptr [] got s hpc, List.sum_nil, Nat.add_zero]
      rfl
  | cons len lens ih =>
      intro n rptr got s hpc
      obtain ⟨k, hk⟩ := ih len (rptr + n) (got ++ s.mem.slice (rxBuffer s.rptr + rptr) n)
        { s with pc := _ } rfl
      refine ⟨n + (1 + k), ?_⟩
      rw [drive_add, drive_bytes n rptr (len :: lens) got s hpc, drive_add]
      refine Eq.trans hk ?_
      rw [List.sum_cons, Mem.slice_add _ _ n, List.append_assoc, Nat.add_assoc]

/-- What a call comes to when it finds the frame `f`. -/
def answer (alloc : Alloc) (f : List UInt8) : Input :=
  match alloc.chain f.length with
  | some _ => .returned f
  | none => .dropped

theorem drive_reclaim (s : Rx) (p : Input) :
    (drive 5 { s with pc := .word2 p }).pc = .idle ∧
      (drive 5 { s with pc := .word2 p }).out = s.out ++ [p] :=
  ⟨rfl, rfl⟩

/-- From the size on, the call ends with the frame `f`. -/
theorem drive_size {s : Rx} {f : List UInt8} (h : Stored s.mem s.descr s.rptr f) (alloc : Alloc) :
    ∃ n, drive n { s with pc := .size alloc } = { s with pc := .word2 (answer alloc f) } := by
  have hsize : drive 1 { s with pc := .size alloc } = rxDriver { s with pc := .size alloc } := rfl
  unfold rxDriver at hsize
  dsimp only at hsize
  rw [h.len] at hsize
  unfold answer
  cases hchain : alloc.chain f.length with
  | none =>
      rw [hchain] at hsize
      exact ⟨1, hsize⟩
  | some lens =>
      rw [hchain] at hsize
      obtain ⟨k, hk⟩ := drive_copy lens 0 0 [] { s with pc := .copy 0 lens 0 [] } rfl
      refine ⟨1 + k, ?_⟩
      rw [drive_add, hsize]
      refine Eq.trans hk ?_
      rw [List.nil_append, Nat.zero_add, alloc.sum_eq _ _ hchain, Nat.add_zero, h.bytes]

/-- A call ends with the first frame that is stored, if there is one. -/
theorem linkinput_ends {s : Rx} {q : List (List UInt8)} (h : RxOK s q) (hpc : s.pc = .idle)
    (alloc : Alloc) :
    ∃ n, (drive n (rxStep s (.linkinput alloc))).pc = .idle ∧
      (drive n (rxStep s (.linkinput alloc))).out = s.out ++ (q.head?.map (answer alloc)).toList := by
  obtain ⟨hslots, -⟩ := h.queue_eq (r := []) (by rw [hpc]; rfl) (by unfold firstSlot; rw [hpc])
  have hcall : rxStep s (.linkinput alloc) = { s with pc := .check alloc } := by
    unfold rxStep
    rw [hpc]
  rw [hcall]
  cases q with
  | nil =>
      have hwait := hslots.free 0 (Nat.le_refl 0) (by decide)
      rw [Slots.slot_zero h.rptr] at hwait
      have hcheck : drive 1 { s with pc := .check alloc } = { s with pc := .idle } :=
        if_pos hwait.busy
      refine ⟨1, ?_⟩
      rw [hcheck]
      exact ⟨rfl, (List.append_nil _).symm⟩
  | cons f q =>
      have hstored : Stored s.mem s.descr s.rptr f := hslots.head h.rptr
      have hcheck : drive 1 { s with pc := .check alloc } = { s with pc := .size alloc } :=
        if_neg (by simp [hstored.given])
      obtain ⟨k, hk⟩ := drive_size hstored alloc
      refine ⟨1 + k + 5, ?_⟩
      rw [drive_add, drive_add, hcheck, hk]
      exact drive_reclaim s (answer alloc f)

/-! ### What goes over the wire -/

/-- The ring does what it is for: the frames stored are those taken out, in order, followed by
those still in the ring; every descriptor that holds none of these waits as `rx_init` left it;
and a call that is let run ends with the first of them. -/
def RxGood (s : Rx) : Prop :=
  ∃ taken pending, List.Forall₂ Outcome s.out taken ∧ s.stored = taken ++ pending ∧
    (∀ d < rxDescriptorNum, (∀ i < pending.length, d ≠ (s.rptr + i) % rxDescriptorNum) →
      ∀ k < 4, s.descr (d * 4 + k) = rxWord d k) ∧
    (s.pc = .idle → ∀ alloc, ∃ n, (drive n (rxStep s (.linkinput alloc))).pc = .idle ∧
      (drive n (rxStep s (.linkinput alloc))).out
        = s.out ++ (pending.head?.map (answer alloc)).toList)

/-- The slots that hold no item wait for a frame. -/
theorem RxOK.waiting {s : Rx} {q : List (List UInt8)} (h : RxOK s q) {d : Nat} (hd : d < 16)
    (hfree : ∀ i < (queue s q).length, d ≠ (firstSlot s + i) % 16) : Waiting s.descr d := by
  have hfirst := firstSlot_lt h.rptr
  -- `d` is some number of slots from the first
  have hslot : (firstSlot s + (d + 16 - firstSlot s) % 16) % 16 = d := by omega
  rw [← hslot]
  refine h.slots.free _ ?_ (Nat.mod_lt _ (by decide))
  by_contra hlt
  exact hfree _ (Nat.lt_of_not_le hlt) hslot.symm

/-- No frame is on its way out. -/
theorem RxOK.good_resting {s : Rx} {q : List (List UInt8)} (h : RxOK s q)
    (hr : reclaimed s.pc = []) (hd : firstSlot s = s.rptr) (hres : result s.pc = []) :
    RxGood s := by
  obtain ⟨taken, hout, hstored⟩ := h.books
  rw [hres, List.append_nil] at hout
  refine ⟨taken, q, hout, hstored, ?_, fun hpc alloc => linkinput_ends h hpc alloc⟩
  intro d hlt hfree
  refine h.waiting hlt ?_
  unfold queue
  rw [hr, hd, List.nil_append, List.length_map]
  exact hfree

theorem forall₂_snoc {α β : Type} {R : α → β → Prop} {l : List α} {a : α} {u : List β}
    (h : List.Forall₂ R (l ++ [a]) u) : ∃ u' b, List.Forall₂ R l u' ∧ u = u' ++ [b] := by
  have hinit := List.forall₂_take l.length h
  have hlast := List.forall₂_drop l.length h
  rw [List.take_left] at hinit
  rw [List.drop_left, List.forall₂_cons_left_iff] at hlast
  obtain ⟨b, rest, -, hnil, hdrop⟩ := hlast
  rw [List.forall₂_nil_left_iff.mp hnil] at hdrop
  exact ⟨u.take l.length, b, hinit, by rw [← hdrop, List.take_append_drop]⟩

/-- A frame is on its way out: its slot is reclaimed, or already the chip's again. -/
theorem RxOK.good_taking {s : Rx} {q : List (List UInt8)} (h : RxOK s q) {p : Input}
    (hres : result s.pc = [p]) (hbusy : s.pc ≠ .idle)
    (hslot : ∀ i < (queue s q).length, ∃ j < q.length + 1,
      (firstSlot s + i) % 16 = (s.rptr + j) % 16) : RxGood s := by
  obtain ⟨taken, hout, hstored⟩ := h.books
  rw [hres] at hout
  obtain ⟨taken', f, hout', rfl⟩ := forall₂_snoc hout
  refine ⟨taken', f :: q, hout', by rw [hstored, List.append_assoc]; rfl, ?_,
    fun hpc => absurd hpc hbusy⟩
  intro d hlt hfree
  refine h.waiting hlt fun i hi => ?_
  obtain ⟨j, hj, heq⟩ := hslot i hi
  rw [heq]
  exact hfree j hj

theorem RxOK.good {s : Rx} {q : List (List UInt8)} (h : RxOK s q) : RxGood s := by
  have hreclaim : reclaimed s.pc = [none] → firstSlot s = s.rptr →
      ∀ i < (queue s q).length, ∃ j < q.length + 1, (firstSlot s + i) % 16 = (s.rptr + j) % 16 := by
    intro hr hd i hi
    unfold queue at hi
    rw [hr] at hi
    rw [hd]
    exact ⟨i, by simpa using hi, rfl⟩
  cases hpc : s.pc with
  | idle => exact h.good_resting (by rw [hpc]; rfl) (by unfold firstSlot; rw [hpc]) (by rw [hpc]; rfl)
  | check _ =>
      exact h.good_resting (by rw [hpc]; rfl) (by unfold firstSlot; rw [hpc]) (by rw [hpc]; rfl)
  | size _ =>
      exact h.good_resting (by rw [hpc]; rfl) (by unfold firstSlot; rw [hpc]) (by rw [hpc]; rfl)
  | copy _ _ _ _ =>
      exact h.good_resting (by rw [hpc]; rfl) (by unfold firstSlot; rw [hpc]) (by rw [hpc]; rfl)
  | word2 p =>
      exact h.good_taking (p := p) (by rw [hpc]; rfl) (by simp [hpc])
        (hreclaim (by rw [hpc]; rfl) (by unfold firstSlot; rw [hpc]))
  | word3 p =>
      exact h.good_taking (p := p) (by rw [hpc]; rfl) (by simp [hpc])
        (hreclaim (by rw [hpc]; rfl) (by unfold firstSlot; rw [hpc]))
  | word0 p =>
      exact h.good_taking (p := p) (by rw [hpc]; rfl) (by simp [hpc])
        (hreclaim (by rw [hpc]; rfl) (by unfold firstSlot; rw [hpc]))
  | word1 p =>
      exact h.good_taking (p := p) (by rw [hpc]; rfl) (by simp [hpc])
        (hreclaim (by rw [hpc]; rfl) (by unfold firstSlot; rw [hpc]))
  | advance p =>
      refine h.good_taking (p := p) (by rw [hpc]; rfl) (by simp [hpc]) fun i hi => ?_
      unfold queue at hi
      unfold firstSlot
      rw [hpc] at hi ⊢
      refine ⟨i + 1, ?_, ?_⟩
      · rw [show reclaimed (.advance p) = [] from rfl, List.nil_append, List.length_map] at hi
        omega
      · rw [Nat.mod_add_mod]
        congr 1
        omega

/--
**The receive ring returns what was stored**, in every state of every run of the driver and
the chip.
-/
theorem rx_ring (m : Mem UInt8) (descr : Mem (BitVec 32)) (es : List RxEvent) :
    RxGood (rxRun (rxInit m descr) es) := by
  obtain ⟨q, h⟩ := rxRun_ok es (rxInit m descr) [] (rxInit_ok m descr)
  exact h.good

end Xell.Enet
