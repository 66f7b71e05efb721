/-
The transmit ring.

As long as `enet_linkoutput` is only called when the chip has given back the descriptor it is
about to use, the ring is a queue: the frames the chip has not sent yet lie in the slots from
its place on, each with its own bytes, and the frame being copied goes into the first free
one.  `TxOK` is that statement, for every place in the driver where the chip may come in.

The call does not wait for that descriptor before it copies, only after.  With all sixteen
frames still to be sent it writes over the oldest of them, and `tx_overwrites` shows it.
-/
import Xell.Proofs.Enet.Descr

namespace Xell.Enet

/-! ### One slot -/

/-- The chip owns descriptor `d`, and what it would transmit from it is `f`. -/
structure Handed (m : Mem UInt8) (descr : Mem (BitVec 32)) (d : Nat) (f : List UInt8) : Prop where
  owned : busy descr d = true
  fits : f.length ≤ mtu
  len : descr (d * 4 + 0) = swap32 (BitVec.ofNat 32 f.length)
  data : descr (d * 4 + 2) = swap32 (virtToPhys (txBuffer d))
  bytes : m.slice (txBuffer d) f.length = f

theorem mem_virtToPhys_txBuffer {d : Nat} (hd : d < 16) :
    mem (virtToPhys (txBuffer d)).toNat = txBuffer d := by
  unfold mem virtToPhys txBuffer txBase mem txDescriptorNum mtu
  rw [BitVec.toNat_ofNat]
  omega

/-- The bytes of one buffer are none of another. -/
theorem txBuffer_apart {d k n o : Nat} (h : d ≠ k) (hn : n ≤ mtu) (ho : o < mtu) :
    txBuffer k + o < txBuffer d ∨ txBuffer d + n ≤ txBuffer k + o := by
  have := buffers_apart (b := txBase + txDescriptorNum * 0x10) h hn (Nat.succ_le_of_lt ho)
  unfold txBuffer
  omega

namespace Handed

variable {m : Mem UInt8} {descr : Mem (BitVec 32)} {d k : Nat} {f : List UInt8}

theorem update_mem (h : Handed m descr d f) {o : Nat} (hne : d ≠ k) (ho : o < mtu) (b : UInt8) :
    Handed (Function.update m (txBuffer k + o) b) descr d f where
  owned := h.owned
  fits := h.fits
  len := h.len
  data := h.data
  bytes := by
    rw [Mem.slice_update_outside m b (txBuffer_apart hne h.fits ho)]
    exact h.bytes

theorem update_descr (h : Handed m descr d f) {j : Nat} (hne : d ≠ k) (hj : j < 4)
    (w : BitVec 32) : Handed m (Function.update descr (k * 4 + j) w) d f where
  owned := by rw [busy_update_ne hne hj]; exact h.owned
  fits := h.fits
  len := by rw [word_update_ne (Or.inl hne) hj (by decide)]; exact h.len
  data := by rw [word_update_ne (Or.inl hne) hj (by decide)]; exact h.data
  bytes := h.bytes

/-- What the chip reads is the frame. -/
theorem transmitted (h : Handed m descr d f) (hd : d < 16) :
    m.slice (mem (swap32 (descr (d * 4 + 2))).toNat) (swap32 (descr (d * 4 + 0))).toNat = f := by
  have hlen : (BitVec.ofNat 32 f.length).toNat = f.length := by
    have := h.fits
    unfold mtu at this
    rw [BitVec.toNat_ofNat]
    omega
  rw [h.len, h.data, swap32_swap32, swap32_swap32, hlen, mem_virtToPhys_txBuffer hd]
  exact h.bytes

end Handed

/-! ### The invariant -/

/-- The frames the chip still owns, in the slots from its place on. -/
def TxQueue (s : Tx) (q : List (List UInt8)) : Prop :=
  Slots 16 s.nic q (Handed s.mem s.descr) fun d => busy s.descr d = false

/-- A frame is on its way into the first free slot. -/
structure Filling (s : Tx) (q : List (List UInt8)) (f : List UInt8) : Prop where
  place : s.wptr = Slots.back 16 s.nic q
  room : q.length < 16
  passed : s.passed = s.sent ++ q ++ [f]
  fits : f.length ≤ mtu

/-- No frame is on its way. -/
structure Resting (s : Tx) (q : List (List UInt8)) (next : Nat) : Prop where
  place : next = Slots.back 16 s.nic q
  passed : s.passed = s.sent ++ q

/-- The whole frame is in the buffer of the slot. -/
def Copied (s : Tx) (f : List UInt8) : Prop := s.mem.slice (txBuffer s.wptr) f.length = f

/-- What holds at each place of the driver. -/
def Progress (s : Tx) (q : List (List UInt8)) : TxPc → Prop
  | .idle => Resting s q s.wptr
  | .copy dstptr totLen cur rest offset => ∃ f, Filling s q f ∧ dstptr = txBuffer s.wptr ∧
      totLen = f.length ∧ s.mem.slice dstptr offset ++ (cur ++ rest.flatten) = f
  | .wait data len => ∃ f, Filling s q f ∧ Copied s f ∧ data = txBuffer s.wptr ∧ len = f.length
  | .word0 data len => ∃ f, Filling s q f ∧ Copied s f ∧ data = txBuffer s.wptr ∧ len = f.length
  | .word2 data len => ∃ f, Filling s q f ∧ Copied s f ∧ data = txBuffer s.wptr ∧ len = f.length ∧
      s.descr (s.wptr * 4 + 0) = swap32 (BitVec.ofNat 32 f.length)
  | .word3 len => ∃ f, Filling s q f ∧ Copied s f ∧ len = f.length ∧
      s.descr (s.wptr * 4 + 0) = swap32 (BitVec.ofNat 32 f.length) ∧
      s.descr (s.wptr * 4 + 2) = swap32 (virtToPhys (txBuffer s.wptr))
  | .word1 => ∃ f, Filling s q f ∧ Copied s f ∧
      s.descr (s.wptr * 4 + 0) = swap32 (BitVec.ofNat 32 f.length) ∧
      s.descr (s.wptr * 4 + 2) = swap32 (virtToPhys (txBuffer s.wptr))
  | .advance => Resting s q ((s.wptr + 1) % 16)

structure TxOK (s : Tx) (q : List (List UInt8)) : Prop where
  nic : s.nic < 16
  wptr : s.wptr < 16
  queue : TxQueue s q
  progress : Progress s q s.pc

theorem txInit_ok (m : Mem UInt8) (descr : Mem (BitVec 32)) : TxOK (txInit m descr) [] where
  nic := Nat.two_pow_pos 4
  wptr := Nat.two_pow_pos 4
  queue := by
    refine Slots.empty (by decide) fun k hk => ?_
    show busy (Mem.store _ _ _ _) k = false
    unfold busy txDescriptorNum
    rw [← Nat.zero_add (k * 4 + 1), Mem.store_at _ _ _ (by omega), if_neg (by omega)]
    decide
  progress := ⟨rfl, rfl⟩

/-! ### The chip -/

section Chip

variable {s : Tx} {q : List (List UInt8)} {f g : List UInt8}

/-- The state after the chip has transmitted `f`. -/
def sentOne (s : Tx) (f : List UInt8) : Tx :=
  { s with
    descr := Function.update s.descr (s.nic * 4 + 1) (release (s.descr (s.nic * 4 + 1)))
    nic := (s.nic + 1) % 16
    sent := s.sent ++ [f] }

theorem txNic_nil (h : TxOK s []) : txNic s = s := by
  have hfree := h.queue.free 0 (Nat.le_refl 0) (by decide)
  rw [Slots.slot_zero h.nic] at hfree
  unfold txNic
  rw [if_neg (by simp [hfree])]

theorem txNic_cons (h : TxOK s (f :: q)) : txNic s = sentOne s f := by
  have hhead := h.queue.head h.nic
  unfold txNic sentOne
  rw [if_pos hhead.owned]
  dsimp only
  rw [hhead.transmitted h.nic]
  rfl

theorem Filling.sentOne (h : Filling s (f :: q) g) : Filling (sentOne s f) q g where
  place := by
    show s.wptr = _
    rw [h.place]
    exact (Slots.back_pop 16 s.nic f q).symm
  room := by
    have := h.room
    rw [List.length_cons] at this
    omega
  passed := by
    show s.passed = s.sent ++ [f] ++ q ++ [g]
    rw [h.passed]
    simp
  fits := h.fits

theorem Resting.sentOne {next : Nat} (h : Resting s (f :: q) next) :
    Resting (sentOne s f) q next where
  place := by
    rw [h.place]
    exact (Slots.back_pop 16 s.nic f q).symm
  passed := by
    show s.passed = s.sent ++ [f] ++ q
    rw [h.passed]
    simp

/-- The chip only writes the ownership bit. -/
theorem sentOne_word (s : Tx) (f : List UInt8) {d k : Nat} (hk : k < 4) (h1 : k ≠ 1) :
    (sentOne s f).descr (d * 4 + k) = s.descr (d * 4 + k) :=
  word_update_ne (Or.inr (Ne.symm h1)) (by decide) hk _

theorem sentOne_progress (pc : TxPc) (h : Progress s (f :: q) pc) :
    Progress (sentOne s f) q pc := by
  have hword : ∀ k < 4, k ≠ 1 → (sentOne s f).descr ((sentOne s f).wptr * 4 + k)
      = s.descr (s.wptr * 4 + k) := fun k hk h1 => sentOne_word s f hk h1
  cases pc with
  | idle => exact h.sentOne
  | copy dstptr totLen cur rest offset =>
      obtain ⟨g, hg, hrest⟩ := h
      exact ⟨g, hg.sentOne, hrest⟩
  | wait data len =>
      obtain ⟨g, hg, hrest⟩ := h
      exact ⟨g, hg.sentOne, hrest⟩
  | word0 data len =>
      obtain ⟨g, hg, hrest⟩ := h
      exact ⟨g, hg.sentOne, hrest⟩
  | word2 data len =>
      obtain ⟨g, hg, hc, hdata, hlen, h0⟩ := h
      exact ⟨g, hg.sentOne, hc, hdata, hlen, (hword 0 (by decide) (by decide)).trans h0⟩
  | word3 len =>
      obtain ⟨g, hg, hc, hlen, h0, h2⟩ := h
      exact ⟨g, hg.sentOne, hc, hlen, (hword 0 (by decide) (by decide)).trans h0,
        (hword 2 (by decide) (by decide)).trans h2⟩
  | word1 =>
      obtain ⟨g, hg, hc, h0, h2⟩ := h
      exact ⟨g, hg.sentOne, hc, (hword 0 (by decide) (by decide)).trans h0,
        (hword 2 (by decide) (by decide)).trans h2⟩
  | advance => exact h.sentOne

theorem sentOne_ok (h : TxOK s (f :: q)) : TxOK (sentOne s f) q where
  nic := Nat.mod_lt _ (by decide)
  wptr := h.wptr
  queue := by
    refine h.queue.pop h.nic busy_release ?_ ?_
    · intro k _ hne y hy
      exact hy.update_descr hne (by decide) _
    · intro k _ hne hk
      rw [← hk]
      exact busy_update_ne hne (by decide) _
  progress := sentOne_progress s.pc h.progress

end Chip

theorem txNic_ok {s : Tx} {q : List (List UInt8)} (h : TxOK s q) : ∃ q', TxOK (txNic s) q' := by
  cases q with
  | nil =>
      rw [txNic_nil h]
      exact ⟨[], h⟩
  | cons f q =>
      rw [txNic_cons h]
      exact ⟨q, sentOne_ok h⟩

/-! ### The driver -/

section Driver

variable {s : Tx} {q : List (List UInt8)} {f : List UInt8}

/-- The slot that is being filled is not the chip's. -/
theorem Filling.free (h : Filling s q f) (hq : TxQueue s q) : busy s.descr s.wptr = false := by
  rw [h.place]
  exact hq.back_free h.room

/-- A byte into the buffer of that slot changes no frame of the queue. -/
theorem Filling.queue_mem (h : Filling s q f) (hq : TxQueue s q) {o : Nat} (ho : o < mtu)
    (b : UInt8) (pc : TxPc) :
    TxQueue { s with mem := Function.update s.mem (txBuffer s.wptr + o) b, pc := pc } q := by
  refine Slots.touch_back hq h.room ?_ fun _ _ hk => hk
  intro k _ hne y hy
  rw [← h.place] at hne
  exact hy.update_mem hne ho b

/-- Nor does a word of its descriptor, if it is not word 1. -/
theorem Filling.queue_descr (h : Filling s q f) (hq : TxQueue s q) {k : Nat} (hk : k < 4)
    (h1 : k ≠ 1) (w : BitVec 32) (pc : TxPc) :
    TxQueue { s with descr := Function.update s.descr (s.wptr * 4 + k) w, pc := pc } q := by
  refine Slots.touch_back hq h.room ?_ ?_
  · intro d _ hne y hy
    rw [← h.place] at hne
    exact hy.update_descr hne hk w
  · intro d _ hd
    rw [← hd]
    exact busy_update_other h1 hk w

/-- Word 1 hands the slot over. -/
theorem Filling.queue_give (h : Filling s q f) (hq : TxQueue s q) (hc : Copied s f)
    (hlen : s.descr (s.wptr * 4 + 0) = swap32 (BitVec.ofNat 32 f.length))
    (hdata : s.descr (s.wptr * 4 + 2) = swap32 (virtToPhys (txBuffer s.wptr))) (pc : TxPc) :
    TxQueue { s with
      descr := Function.update s.descr (s.wptr * 4 + 1) (swap32 0xc0230000), pc := pc }
      (q ++ [f]) := by
  refine Slots.push hq h.room ?_ ?_ ?_
  · rw [← h.place]
    exact
      { owned := busy_give (by decide)
        fits := h.fits
        len := by rw [← hlen]; exact word_update_ne (Or.inr (by decide)) (by decide) (by decide) _
        data := by rw [← hdata]; exact word_update_ne (Or.inr (by decide)) (by decide) (by decide) _
        bytes := hc }
  · intro d _ hne y hy
    rw [← h.place] at hne
    exact hy.update_descr hne (by decide) _
  · intro d _ hne hd
    rw [← h.place] at hne
    rw [← hd]
    exact busy_update_ne hne (by decide) _

/-- One byte of the frame goes into the buffer. -/
theorem copyByte_ok (h : TxOK s q) {totLen offset : Nat} {b : UInt8} {cur : List UInt8}
    {rest : List (List UInt8)} (hf : Filling s q f) (htot : totLen = f.length)
    (hcopied : s.mem.slice (txBuffer s.wptr) offset ++ (b :: cur ++ rest.flatten) = f) :
    TxOK { s with
      mem := Function.update s.mem (txBuffer s.wptr + offset) b
      pc := .copy (txBuffer s.wptr) totLen cur rest (offset + 1) } q := by
  have ho : offset < mtu := by
    have hlen := congrArg List.length hcopied
    simp only [List.length_append, Mem.slice_length, List.length_cons] at hlen
    have := hf.fits
    omega
  refine ⟨h.nic, h.wptr, hf.queue_mem h.queue ho b _, ?_⟩
  refine ⟨f, ⟨hf.place, hf.room, hf.passed, hf.fits⟩, rfl, htot, ?_⟩
  show Mem.slice (Function.update s.mem (txBuffer s.wptr + offset) b) _ _ ++ _ = f
  rw [Mem.slice_update_end, ← hcopied]
  simp

/-- The last byte was copied. -/
theorem copied_of_slice {offset : Nat} (h : s.mem.slice (txBuffer s.wptr) offset = f) :
    Copied s f := by
  have hlen : offset = f.length := by
    rw [← h, Mem.slice_length]
  unfold Copied
  rw [← hlen]
  exact h

/-- A word of the descriptor that is being filled, but not the word that gives it away. -/
theorem Filling.setWord (hf : Filling s q f) (h : TxOK s q) {k : Nat} (hk : k < 4) (h1 : k ≠ 1)
    (w : BitVec 32) (pc : TxPc) {s' : Tx}
    (hs' : s' = { s with descr := Function.update s.descr (s.wptr * 4 + k) w, pc := pc })
    (hprogress : Filling s' q f → s'.descr (s'.wptr * 4 + k) = w →
      (∀ j < 4, j ≠ k → s'.descr (s'.wptr * 4 + j) = s.descr (s.wptr * 4 + j)) →
      Progress s' q s'.pc) :
    TxOK s' q := by
  subst hs'
  refine ⟨h.nic, h.wptr, hf.queue_descr h.queue hk h1 w pc, hprogress ?_ ?_ ?_⟩
  · exact ⟨hf.place, hf.room, hf.passed, hf.fits⟩
  · exact Function.update_self ..
  · intro j hj hne
    exact word_update_ne (Or.inr hne.symm) hk hj w

theorem txDriver_ok (h : TxOK s q) : ∃ q', TxOK (txDriver s) q' := by
  have hp := h.progress
  unfold txDriver
  cases hpc : s.pc with
  | idle => exact ⟨q, h⟩
  | copy dstptr totLen cur rest offset =>
      rw [hpc] at hp
      obtain ⟨f, hf, rfl, htot, hcopied⟩ := hp
      cases cur with
      | cons b cur => exact ⟨q, copyByte_ok h hf htot hcopied⟩
      | nil =>
          cases rest with
          | cons q' rest =>
              exact ⟨q, h.nic, h.wptr, h.queue, f, ⟨hf.place, hf.room, hf.passed, hf.fits⟩, rfl,
                htot, hcopied⟩
          | nil =>
              rw [List.flatten_nil, List.append_nil, List.append_nil] at hcopied
              exact ⟨q, h.nic, h.wptr, h.queue, f, ⟨hf.place, hf.room, hf.passed, hf.fits⟩,
                copied_of_slice hcopied, rfl, htot⟩
  | wait data len =>
      rw [hpc] at hp
      obtain ⟨f, hf, hc, rfl, rfl⟩ := hp
      dsimp only
      rw [if_neg (by simp [hf.free h.queue])]
      exact ⟨q, h.nic, h.wptr, h.queue, f, ⟨hf.place, hf.room, hf.passed, hf.fits⟩, hc, rfl, rfl⟩
  | word0 data len =>
      rw [hpc] at hp
      obtain ⟨f, hf, hc, rfl, rfl⟩ := hp
      refine ⟨q, hf.setWord h (k := 0) (by decide) (by decide) _ _ rfl ?_⟩
      intro hf' hlen _
      exact ⟨f, hf', hc, rfl, rfl, hlen⟩
  | word2 data len =>
      rw [hpc] at hp
      obtain ⟨f, hf, hc, rfl, rfl, hlen⟩ := hp
      refine ⟨q, hf.setWord h (k := 2) (by decide) (by decide) _ _ rfl ?_⟩
      intro hf' hdata hsame
      exact ⟨f, hf', hc, rfl, (hsame 0 (by decide) (by decide)).trans hlen, hdata⟩
  | word3 len =>
      rw [hpc] at hp
      obtain ⟨f, hf, hc, rfl, hlen, hdata⟩ := hp
      refine ⟨q, hf.setWord h (k := 3) (by decide) (by decide) _ _ rfl ?_⟩
      intro hf' _ hsame
      exact ⟨f, hf', hc, (hsame 0 (by decide) (by decide)).trans hlen,
        (hsame 2 (by decide) (by decide)).trans hdata⟩
  | word1 =>
      rw [hpc] at hp
      obtain ⟨f, hf, hc, hlen, hdata⟩ := hp
      refine ⟨q ++ [f], h.nic, h.wptr, hf.queue_give h.queue hc hlen hdata _, ?_, ?_⟩
      · show (s.wptr + 1) % 16 = _
        rw [hf.place]
        exact (Slots.back_push 16 s.nic f q).symm
      · show s.passed = s.sent ++ (q ++ [f])
        rw [hf.passed, List.append_assoc]
  | advance =>
      rw [hpc] at hp
      exact ⟨q, h.nic, Nat.mod_lt _ (by decide), h.queue, hp.place, hp.passed⟩

end Driver

/-! ### Runs -/

/-- The condition on an event, in the state before it: a frame is only passed to the driver
when the chip has given the descriptor for it back. -/
def HasRoom (s : Tx) : TxEvent → Prop
  | .linkoutput _ _ => busy s.descr s.wptr = false
  | .driver => True
  | .nic => True

instance HasRoom.decidable (s : Tx) : (e : TxEvent) → Decidable (HasRoom s e)
  | .linkoutput _ _ => inferInstanceAs (Decidable (busy s.descr s.wptr = false))
  | .driver => isTrue trivial
  | .nic => isTrue trivial

theorem linkoutput_ok {s : Tx} {q : List (List UInt8)} (h : TxOK s q) (p : Pbuf)
    (fits : p.totLen ≤ mtu) (hroom : busy s.descr s.wptr = false) :
    ∃ q', TxOK (txStep s (.linkoutput p fits)) q' := by
  have hp := h.progress
  unfold txStep
  cases hpc : s.pc with
  | idle =>
      rw [hpc] at hp
      have hlen : q.length < 16 := by
        -- a full ring ends where it starts, at a descriptor of the chip
        by_contra hfull
        have hle := h.queue.fits
        cases q with
        | nil => simp at hfull
        | cons f q =>
            have hback : s.wptr = s.nic := by
              rw [hp.place]
              unfold Slots.back
              rw [show (f :: q).length = 16 by omega, Nat.add_mod_right, Nat.mod_eq_of_lt h.nic]
            have howned := (h.queue.head h.nic).owned
            rw [hback, howned] at hroom
            simp at hroom
      refine ⟨q, h.nic, h.wptr, h.queue, p.payloads.flatten, ⟨hp.place, hlen, ?_, ?_⟩, rfl,
        p.totLen_eq, ?_⟩
      · show s.passed ++ [p.payloads.flatten] = _
        rw [hp.passed]
      · rw [← p.totLen_eq]
        exact fits
      · simp [Mem.slice]
  | copy _ _ _ _ _ => exact ⟨q, h⟩
  | wait _ _ => exact ⟨q, h⟩
  | word0 _ _ => exact ⟨q, h⟩
  | word2 _ _ => exact ⟨q, h⟩
  | word3 _ => exact ⟨q, h⟩
  | word1 => exact ⟨q, h⟩
  | advance => exact ⟨q, h⟩

theorem txStep_ok {s : Tx} {q : List (List UInt8)} (h : TxOK s q) (e : TxEvent)
    (hroom : HasRoom s e) : ∃ q', TxOK (txStep s e) q' := by
  cases e with
  | linkoutput p fits => exact linkoutput_ok h p fits hroom
  | driver => exact txDriver_ok h
  | nic => exact txNic_ok h

/-- Every event of the run finds the room it needs. -/
def RoomRun : Tx → List TxEvent → Prop
  | _, [] => True
  | s, e :: es => HasRoom s e ∧ RoomRun (txStep s e) es

instance RoomRun.decidable : (s : Tx) → (es : List TxEvent) → Decidable (RoomRun s es)
  | _, [] => isTrue trivial
  | s, e :: es =>
      have := RoomRun.decidable (txStep s e) es
      inferInstanceAs (Decidable (HasRoom s e ∧ RoomRun (txStep s e) es))

theorem txRun_ok :
    ∀ (es : List TxEvent) (s : Tx) (q : List (List UInt8)), TxOK s q → RoomRun s es →
      ∃ q', TxOK (txRun s es) q' := by
  intro es
  induction es with
  | nil => intro s q h _; exact ⟨q, h⟩
  | cons e es ih =>
      intro s q h hroom
      obtain ⟨q', h'⟩ := txStep_ok h e hroom.1
      exact ih (txStep s e) q' h' hroom.2

/-! ### What goes over the wire -/

/-- The address the driver writes to next, if that is in a buffer. -/
def nextWrite (s : Tx) : Option Nat :=
  match s.pc with
  | .copy dstptr _ (_ :: _) _ offset => some (dstptr + offset)
  | _ => none

/-- The ring does what it is for: what was sent is what was passed, in order; what is not yet
sent will be, once the chip comes to it; and no buffer of the chip's is written to. -/
structure TxGood (s : Tx) : Prop where
  prefix_passed : s.sent <+: s.passed
  drained : s.pc = .idle → (txRun s (List.replicate txDescriptorNum .nic)).sent = s.passed
  untouched : ∀ a, nextWrite s = some a → ∀ d < txDescriptorNum, busy s.descr d = true →
    a < txBuffer d ∨ txBuffer d + mtu ≤ a

theorem Progress.prefix_passed {s : Tx} {q : List (List UInt8)} (pc : TxPc)
    (h : Progress s q pc) : s.sent <+: s.passed := by
  have hrest : ∀ next, Resting s q next → s.sent <+: s.passed := by
    intro next hr
    rw [hr.passed]
    exact List.prefix_append _ _
  have hfill : ∀ f, Filling s q f → s.sent <+: s.passed := by
    intro f hf
    rw [hf.passed, List.append_assoc]
    exact List.prefix_append _ _
  cases pc with
  | idle => exact hrest _ h
  | advance => exact hrest _ h
  | copy _ _ _ _ _ => exact hfill _ h.choose_spec.1
  | wait _ _ => exact hfill _ h.choose_spec.1
  | word0 _ _ => exact hfill _ h.choose_spec.1
  | word2 _ _ => exact hfill _ h.choose_spec.1
  | word3 _ => exact hfill _ h.choose_spec.1
  | word1 => exact hfill _ h.choose_spec.1

/-- Left alone, the chip sends its queue and then stops. -/
theorem drain :
    ∀ (n : Nat) {s : Tx} {q : List (List UInt8)}, TxOK s q → q.length ≤ n →
      (txRun s (List.replicate n .nic)).sent = s.sent ++ q := by
  intro n
  induction n with
  | zero =>
      intro s q _ hq
      rw [List.eq_nil_of_length_eq_zero (Nat.le_zero.mp hq), List.append_nil]
      rfl
  | succ n ih =>
      intro s q h hq
      rw [List.replicate_succ]
      show (txRun (txNic s) (List.replicate n .nic)).sent = _
      cases q with
      | nil =>
          rw [txNic_nil h]
          exact ih h (Nat.zero_le n)
      | cons f q =>
          rw [txNic_cons h, ih (sentOne_ok h) (by rw [List.length_cons] at hq; omega)]
          show s.sent ++ [f] ++ q = _
          simp

theorem TxOK.good {s : Tx} {q : List (List UInt8)} (h : TxOK s q) : TxGood s where
  prefix_passed := h.progress.prefix_passed s.pc
  drained := by
    intro hpc
    have hp := h.progress
    rw [hpc] at hp
    rw [drain txDescriptorNum h h.queue.fits, hp.passed]
  untouched := by
    intro a ha d _ hd
    have hp := h.progress
    unfold nextWrite at ha
    split at ha
    · rename_i dstptr totLen b cur rest offset hpc
      rw [hpc] at hp
      obtain ⟨f, hf, rfl, -, hcopied⟩ := hp
      have ho : offset < mtu := by
        have hlen := congrArg List.length hcopied
        simp only [List.length_append, Mem.slice_length, List.length_cons] at hlen
        have := hf.fits
        omega
      have hne : d ≠ s.wptr := by
        rintro rfl
        rw [hf.free h.queue] at hd
        simp at hd
      cases ha
      exact txBuffer_apart hne (Nat.le_refl mtu) ho
    · simp at ha

/--
**The transmit ring sends what it is given**, in every state of a run in which every frame
finds a descriptor that the chip has given back.
-/
theorem tx_ring (m : Mem UInt8) (descr : Mem (BitVec 32)) (es : List TxEvent)
    (hroom : RoomRun (txInit m descr) es) : TxGood (txRun (txInit m descr) es) := by
  obtain ⟨q, h⟩ := txRun_ok es (txInit m descr) [] (txInit_ok m descr) hroom
  exact h.good

/-- A frame of one byte. -/
def oneByte (b : UInt8) : Pbuf := ⟨[[b]], 1, rfl⟩

theorem oneByte_fits (b : UInt8) : (oneByte b).totLen ≤ mtu := by
  show 1 ≤ 1528
  omega

/-- A frame of one byte is passed, and the driver goes on until it is done. -/
def passOne (b : UInt8) : List TxEvent :=
  .linkoutput (oneByte b) (oneByte_fits b) :: List.replicate 9 .driver

/-- Two frames, the first sent while the second is being copied. -/
theorem tx_ring_two :
    TxGood (txRun (txInit (fun _ => 0) fun _ => 0)
      (passOne 1 ++ [.linkoutput (oneByte 2) (oneByte_fits 2), .driver, .nic, .driver])) := by
  refine tx_ring (fun _ => 0) (fun _ => 0) _ ?_
  decide +kernel

/-- The frames `0 … 16`, one byte each, while the chip does nothing; it wakes up when the last
of them has been copied. -/
def lateChip : List TxEvent :=
  ((List.range 17).map fun i => passOne (UInt8.ofNat i)).flatten ++ [.nic]

/-- The frame sent first has the byte of the frame passed last. -/
theorem tx_overwrites :
    (txRun (txInit (fun _ => 0) fun _ => 0) lateChip).sent = [[16]] ∧
    ¬ TxGood (txRun (txInit (fun _ => 0) fun _ => 0) lateChip) := by
  have hsent : (txRun (txInit (fun _ => 0) fun _ => 0) lateChip).sent = [[16]] := by
    decide +kernel
  refine ⟨hsent, fun hgood => ?_⟩
  have hprefix := hgood.prefix_passed
  rw [hsent] at hprefix
  exact absurd hprefix (by decide +kernel)

end Xell.Enet
