/-
The window the image goes to.

`tftp_recv` copies the data of a block to `base + ptr` if it ends before `image_maxlen`,
and adds its length to `ptr` whether it has copied it or not.  Three things follow.

  * What is copied stays in the window, and `ptr` only grows, as long as lengths are not
    negative.  The length is `tot_len - 4`, so they are for a datagram that has no whole
    header; the check for those does not leave the function, and what is read as its
    header may be anything.
  * A file larger than the window is received to its end like any other, and `do_tftp`
    returns its length.
  * `ptr` is an `int` without a bound.

`received` lists all calls of `tftp_recv` that a call of `do_tftp` makes, each with the
statics it is made in, and `boot_contained_iff` speaks of each of them.

Where a block belongs is another matter than where `ptr` points.  An attempt begins where
`current_block` is 0, and the place of a block is how much data the attempt has accepted
before it: `Progress` counts that from the calls alone.
-/
import Xell.Proofs.Tftp.Retries

namespace Xell.Tftp

/-! ### The calls of `tftp_recv` -/

/-- The calls of one poll. -/
def polled : List (Pbuf × Endpoint) → Statics → List (Statics × Pbuf)
  | [], _ => []
  | d :: ds, s => (s, d.1) :: polled ds (tftpRecv d.1 d.2 s)

/-- The calls of a loop. -/
def received (file : List UInt8) (server : UInt32) :
    List Iteration → Statics → List (Statics × Pbuf)
  | [], _ => []
  | it :: its, s =>
      if s.tftpState = .finish then []
      else
        let t := body file server it.late it.alloc s
        if t.left then []
        else polled it.arrived t.st ++ received file server its (poll it.arrived t.st)

/-- The calls of a call of `do_tftp`. -/
def Call.received (c : Call) (s : Statics) : List (Statics × Pbuf) :=
  if c.pcb = false then []
  else Tftp.received c.file c.server c.its (enter c.target c.maxlen s)

/-- The calls of a boot, which makes calls of `do_tftp` as long as they return. -/
def bootReceived : List Call → Statics → List (Statics × Pbuf)
  | [], _ => []
  | c :: cs, s =>
      c.received s ++
        match c.run s with
        | none => []
        | some r => bootReceived cs r.2

/-! ### One call -/

/-- The datagram is taken for the next block of data. -/
def IsNext (s : Statics) (p : Pbuf) : Prop :=
  be16 (p.payload 0) (p.payload 1) = 3 ∧ be16 (p.payload 2) (p.payload 3) = s.currentBlock + 1

instance (s : Statics) (p : Pbuf) : Decidable (IsNext s p) := inferInstanceAs (Decidable (_ ∧ _))

/-- `pl`: the length of the data, as the code has it. -/
def dataLen (p : Pbuf) : Int := p.totLen - 4

/-- The `memcpy` of `tftp_recv`: its target and its length, if it is made. -/
def copies (s : Statics) (p : Pbuf) : Option (Int × Int) :=
  if IsNext s p ∧ s.ptr + dataLen p ≤ s.imageMaxlen then some (s.base + s.ptr, dataLen p) else none

/-- What `tftp_recv` should do, in the statics `s`, with the datagram `p`. -/
structure Contained (s : Statics) (p : Pbuf) : Prop where
  copy : ∀ target len, copies s p = some (target, len) →
    0 ≤ len ∧ len = (p.totLen - 4 : Nat) ∧ s.base ≤ target ∧ target + len ≤ s.base + s.imageMaxlen
  nonneg : 0 ≤ s.ptr
  grows : ∀ sender, s.ptr ≤ (tftpRecv p sender s).ptr
  int : ∀ sender, (tftpRecv p sender s).ptr < 2 ^ 31
  short : p.totLen < 4 → ∀ sender, (tftpRecv p sender s).mem = s.mem ∧
    (tftpRecv p sender s).ptr = s.ptr ∧ (tftpRecv p sender s).currentBlock = s.currentBlock

/-- What is taken for the next block has a whole header, and does not take `ptr` out of an `int`. -/
def Safe (s : Statics) (p : Pbuf) : Prop := IsNext s p → 4 ≤ p.totLen ∧ s.ptr + dataLen p < 2 ^ 31

/-- The memory after a block that is copied if it fits. -/
def copied (s : Statics) (p : Pbuf) : Mem UInt8 :=
  if s.ptr + dataLen p ≤ s.imageMaxlen then
    s.mem.store (s.base + s.ptr).toNat (sizeOfInt (dataLen p)) fun i => p.payload (4 + i)
  else s.mem

theorem copyBlock_mem (p : Pbuf) (s : Statics) : (copyBlock p (dataLen p) s).mem = copied s p := by
  unfold copyBlock copied
  split <;> rfl

/-- The part of the statics that is the image. -/
structure SameImage (s s' : Statics) : Prop where
  base : s'.base = s.base
  maxlen : s'.imageMaxlen = s.imageMaxlen
  ptr : s'.ptr = s.ptr
  block : s'.currentBlock = s.currentBlock
  mem : s'.mem = s.mem

/-- The data of `p` behind the image in `s`, and the image in `s'`. -/
structure NextImage (s : Statics) (p : Pbuf) (s' : Statics) : Prop where
  base : s'.base = s.base
  maxlen : s'.imageMaxlen = s.imageMaxlen
  ptr : s'.ptr = s.ptr + dataLen p
  block : s'.currentBlock = s.currentBlock + 1
  mem : s'.mem = copied s p

theorem recvData_image (p : Pbuf) (s : Statics) :
    if be16 (p.payload 2) (p.payload 3) = s.currentBlock + 1 then NextImage s p (recvData p s)
    else SameImage s (recvData p s) := by
  obtain ⟨m, hm⟩ := copyBlock_eq p (dataLen p) s
  have hmem : m = copied s p := by rw [← copyBlock_mem, hm]
  unfold recvData
  dsimp only
  rw [show (p.totLen - 4 : Int) = dataLen p from rfl, hm]
  split
  · split
    · exact ⟨rfl, rfl, rfl, rfl, hmem⟩
    · exact ⟨rfl, rfl, rfl, rfl, hmem⟩
  split
  · exact ⟨rfl, rfl, rfl, rfl, rfl⟩
  · exact ⟨rfl, rfl, rfl, rfl, rfl⟩

/-- The end of `tftp_recv` does not touch the image. -/
theorem SameImage.connect (sender : Endpoint) (s : Statics) :
    SameImage s { connect sender s with tries := 0 } :=
  ⟨connect_base sender s, connect_imageMaxlen sender s, connect_ptr sender s,
    connect_currentBlock sender s, connect_mem sender s⟩

theorem SameImage.trans {s s' s'' : Statics} (h : SameImage s s') (h' : SameImage s' s'') :
    SameImage s s'' :=
  ⟨h'.base.trans h.base, h'.maxlen.trans h.maxlen, h'.ptr.trans h.ptr, h'.block.trans h.block,
    h'.mem.trans h.mem⟩

theorem SameImage.next {s t s' : Statics} {p : Pbuf} (h : SameImage s t) (h' : NextImage t p s') :
    NextImage s p s' := by
  refine ⟨h'.base.trans h.base, h'.maxlen.trans h.maxlen, by rw [h'.ptr, h.ptr],
    by rw [h'.block, h.block], ?_⟩
  rw [h'.mem]
  unfold copied
  rw [h.ptr, h.maxlen, h.base, h.mem]

theorem NextImage.same {s t s' : Statics} {p : Pbuf} (h : NextImage s p t) (h' : SameImage t s') :
    NextImage s p s' :=
  ⟨h'.base.trans h.base, h'.maxlen.trans h.maxlen, h'.ptr.trans h.ptr, h'.block.trans h.block,
    h'.mem.trans h.mem⟩

theorem dispatch_image (s : Statics) (p : Pbuf) :
    (IsNext s p → NextImage s p (dispatch p s)) ∧ (¬ IsNext s p → SameImage s (dispatch p s)) := by
  obtain ⟨t, ht⟩ : ∃ t, t = if p.totLen < 2 then
      { s with tftpState := .finish, tftpResult := -1 } else s := ⟨_, rfl⟩
  have hsame : SameImage s t := by
    rw [ht]
    split
    · exact ⟨rfl, rfl, rfl, rfl, rfl⟩
    · exact ⟨rfl, rfl, rfl, rfl, rfl⟩
  have hdata := recvData_image p t
  rw [hsame.block] at hdata
  unfold dispatch
  dsimp only
  rw [← ht]
  split
  · rename_i hop
    by_cases hnum : be16 (p.payload 2) (p.payload 3) = s.currentBlock + 1
    · rw [if_pos hnum] at hdata
      exact ⟨fun _ => hsame.next hdata, fun h => absurd ⟨hop, hnum⟩ h⟩
    · rw [if_neg hnum] at hdata
      exact ⟨fun h => absurd h.2 hnum, fun _ => hsame.trans hdata⟩
  · rename_i hop
    refine ⟨fun h => absurd (hop.symm.trans h.1) (by decide), fun _ => ?_⟩
    exact ⟨hsame.base, hsame.maxlen, hsame.ptr, hsame.block, hsame.mem⟩
  · rename_i hop _
    exact ⟨fun h => absurd h.1 hop, fun _ => hsame⟩

instance (s : Statics) (p : Pbuf) : Decidable (Safe s p) :=
  inferInstanceAs (Decidable (_ → _ ∧ _))

/-- **What `tftp_recv` does to the image**: it takes the datagram for the next block, copies it
if it fits and counts it, or it leaves the image alone. -/
theorem tftpRecv_image (s : Statics) (p : Pbuf) (sender : Endpoint) :
    (IsNext s p → NextImage s p (tftpRecv p sender s)) ∧
      (¬ IsNext s p → SameImage s (tftpRecv p sender s)) := by
  obtain ⟨hnext, hother⟩ := dispatch_image s p
  have hend := SameImage.connect sender (dispatch p s)
  exact ⟨fun h => (hnext h).same hend, fun h => (hother h).trans hend⟩

/-- **A call of `tftp_recv` keeps within the window exactly if it is safe.** -/
theorem contained_iff {s : Statics} (hptr : 0 ≤ s.ptr) (hint : s.ptr < 2 ^ 31) (p : Pbuf) :
    Contained s p ↔ Safe s p := by
  constructor
  · intro h hnext
    have himage := fun sender => (tftpRecv_image s p sender).1 hnext
    refine ⟨?_, ?_⟩
    · by_contra hlt
      have hblock := (h.short (by omega) ⟨0, 0⟩).2.2
      rw [(himage ⟨0, 0⟩).block] at hblock
      omega
    · have hlt := h.int ⟨0, 0⟩
      rwa [(himage ⟨0, 0⟩).ptr] at hlt
  · intro h
    by_cases hnext : IsNext s p
    · obtain ⟨hlen, hfits⟩ := h hnext
      have himage := fun sender => (tftpRecv_image s p sender).1 hnext
      have hpl : 0 ≤ dataLen p := by
        unfold dataLen
        omega
      refine ⟨fun target len hcopy => ?_, hptr, fun sender => ?_, fun sender => ?_, fun hshort => ?_⟩
      · unfold copies at hcopy
        split at hcopy
        · rename_i hroom
          obtain ⟨rfl, rfl⟩ := Prod.mk.inj (Option.some.inj hcopy)
          refine ⟨hpl, ?_, by omega, by omega⟩
          unfold dataLen
          omega
        · simp at hcopy
      · rw [(himage sender).ptr]
        omega
      · rw [(himage sender).ptr]
        exact hfits
      · omega
    · have himage := fun sender => (tftpRecv_image s p sender).2 hnext
      refine ⟨fun target len hcopy => ?_, hptr, fun sender => ?_, fun sender => ?_, fun _ sender => ?_⟩
      · unfold copies at hcopy
        rw [if_neg fun hc => hnext hc.1] at hcopy
        simp at hcopy
      · rw [(himage sender).ptr]
      · rw [(himage sender).ptr]
        exact hint
      · exact ⟨(himage sender).mem, (himage sender).ptr, (himage sender).block⟩

/-- The memory is changed by the copy, and by nothing else. -/
theorem tftpRecv_mem (s : Statics) (p : Pbuf) (sender : Endpoint) :
    (tftpRecv p sender s).mem = ((copies s p).elim s.mem fun c =>
      s.mem.store c.1.toNat (sizeOfInt c.2) fun i => p.payload (4 + i)) := by
  obtain ⟨hnext, hother⟩ := tftpRecv_image s p sender
  unfold copies
  by_cases h : IsNext s p
  · rw [(hnext h).mem]
    unfold copied
    by_cases hroom : s.ptr + dataLen p ≤ s.imageMaxlen
    · rw [if_pos hroom, if_pos ⟨h, hroom⟩]
      rfl
    · rw [if_neg hroom, if_neg fun hc => hroom hc.2]
      rfl
  · rw [(hother h).mem, if_neg fun hc => h hc.1]
    rfl

/-! ### Runs -/

/-- `ptr` is an `int` that is not negative. -/
def Counts (s : Statics) : Prop := 0 ≤ s.ptr ∧ s.ptr < 2 ^ 31

theorem Counts.congr {s s' : Statics} (h : Counts s) (hptr : s'.ptr = s.ptr) : Counts s' := by
  unfold Counts
  rw [hptr]
  exact h

theorem Counts.tftpRecv {s : Statics} (h : Counts s) {p : Pbuf} (hsafe : Safe s p)
    (sender : Endpoint) : Counts (tftpRecv p sender s) := by
  obtain ⟨hnext, hother⟩ := tftpRecv_image s p sender
  by_cases hn : IsNext s p
  · obtain ⟨hlen, hfits⟩ := hsafe hn
    have hpl : 0 ≤ dataLen p := by
      unfold dataLen
      omega
    have hptr := (hnext hn).ptr
    have hnonneg := h.1
    exact ⟨by omega, by omega⟩
  · exact h.congr (hother hn).ptr

/-- A property of all calls of a poll, and of the statics after it if it holds. -/
theorem Counts.polled :
    ∀ (ds : List (Pbuf × Endpoint)) {s : Statics}, Counts s →
      ((∀ x ∈ polled ds s, Contained x.1 x.2) ↔ ∀ x ∈ polled ds s, Safe x.1 x.2) ∧
        ((∀ x ∈ polled ds s, Safe x.1 x.2) → Counts (poll ds s)) := by
  intro ds
  induction ds with
  | nil =>
      intro s h
      exact ⟨by simp [Tftp.polled], fun _ => h⟩
  | cons d ds ih =>
      intro s h
      have hfirst := contained_iff h.1 h.2 d.1
      have hrest : Safe s d.1 → _ := fun hs => ih (h.tftpRecv hs d.2)
      simp only [Tftp.polled, List.forall_mem_cons]
      refine ⟨⟨?_, ?_⟩, ?_⟩
      · rintro ⟨hc, hall⟩
        have hs := hfirst.mp hc
        exact ⟨hs, (hrest hs).1.mp hall⟩
      · rintro ⟨hs, hall⟩
        exact ⟨hfirst.mpr hs, (hrest hs).1.mpr hall⟩
      · rintro ⟨hs, hall⟩
        exact (hrest hs).2 hall

/-- What the loop does between two polls leaves the window and what is in it alone. -/
theorem body_image (file : List UInt8) (server : UInt32) (late alloc : Bool) (s : Statics) :
    (body file server late alloc s).st.base = s.base ∧
      (body file server late alloc s).st.imageMaxlen = s.imageMaxlen ∧
      (body file server late alloc s).st.ptr = s.ptr ∧
      (body file server late alloc s).st.mem = s.mem := by
  refine body_keeps (P := fun t => t.base = s.base ∧ t.imageMaxlen = s.imageMaxlen ∧
    t.ptr = s.ptr ∧ t.mem = s.mem) file server alloc ⟨rfl, rfl, rfl, rfl⟩ (fun _ => ?_)
    fun _ _ ht => ht
  rcases timeout_cases s with ⟨-, result, send, heq, -⟩ | ⟨-, state, heq, -⟩
  · rw [heq]
    exact ⟨rfl, rfl, rfl, rfl⟩
  · rw [heq]
    exact ⟨rfl, rfl, rfl, rfl⟩

/-- Nor does it count a block. -/
theorem body_block_zero {file : List UInt8} {server : UInt32} {late alloc : Bool} {s : Statics}
    (h : s.currentBlock = 0) : (body file server late alloc s).st.currentBlock = 0 := by
  refine body_keeps (P := fun t => t.currentBlock = 0) file server alloc h (fun _ => ?_)
    fun _ _ ht => ht
  rcases timeout_cases s with ⟨-, result, send, heq, -⟩ | ⟨-, state, heq, -⟩
  · rw [heq]
  · rw [heq]
    exact h

/-- What a turn of the loop is: it finds the transfer finished, it is left at a timeout, or it polls
and goes on. -/
theorem received_cases (file : List UInt8) (server : UInt32) (it : Iteration) (its : List Iteration)
    (s : Statics) :
    (s.tftpState = .finish ∧ received file server (it :: its) s = [] ∧
        (doTftpLoop file server (it :: its) s).2 = some s) ∨
      (s.tftpState ≠ .finish ∧ received file server (it :: its) s = [] ∧
        (doTftpLoop file server (it :: its) s).2
          = some (body file server it.late it.alloc s).st ∧
        (body file server it.late it.alloc s).left = true) ∨
      (s.tftpState ≠ .finish ∧ received file server (it :: its) s =
          polled it.arrived (body file server it.late it.alloc s).st ++ received file server its
            (poll it.arrived (body file server it.late it.alloc s).st) ∧
        (doTftpLoop file server (it :: its) s).2 = (doTftpLoop file server its
          (poll it.arrived (body file server it.late it.alloc s).st)).2) := by
  rw [received, doTftpLoop]
  dsimp only
  by_cases hfin : s.tftpState = .finish
  · rw [if_pos hfin, if_pos hfin]
    exact Or.inl ⟨hfin, rfl, rfl⟩
  rw [if_neg hfin, if_neg hfin]
  by_cases hleft : (body file server it.late it.alloc s).left = true
  · rw [if_pos hleft, if_pos hleft]
    exact Or.inr (Or.inl ⟨hfin, rfl, rfl, hleft⟩)
  · rw [if_neg hleft, if_neg hleft]
    exact Or.inr (Or.inr ⟨hfin, rfl, rfl⟩)

/-- Without turns left the loop has to have finished. -/
theorem doTftpLoop_nil {file : List UInt8} {server : UInt32} {s s' : Statics}
    (h : (doTftpLoop file server [] s).2 = some s') : s.tftpState = .finish ∧ s' = s := by
  simp only [doTftpLoop] at h
  split at h
  · rename_i hfin
    exact ⟨hfin, (Option.some.inj h).symm⟩
  · simp at h

theorem Counts.received (file : List UInt8) (server : UInt32) :
    ∀ (its : List Iteration) {s : Statics}, Counts s →
      ((∀ x ∈ received file server its s, Contained x.1 x.2) ↔
          ∀ x ∈ received file server its s, Safe x.1 x.2) ∧
        ((∀ x ∈ received file server its s, Safe x.1 x.2) →
          ∀ s', (doTftpLoop file server its s).2 = some s' → Counts s') := by
  intro its
  induction its with
  | nil =>
      intro s h
      refine ⟨by simp [Tftp.received], fun _ s' hend => ?_⟩
      obtain ⟨-, rfl⟩ := doTftpLoop_nil hend
      exact h
  | cons it its ih =>
      intro s h
      have hbody : Counts (body file server it.late it.alloc s).st :=
        h.congr (body_image file server it.late it.alloc s).2.2.1
      rcases received_cases file server it its s with
        ⟨-, hcalls, hend⟩ | ⟨-, hcalls, hend, -⟩ | ⟨-, hcalls, hend⟩
      · rw [hcalls, hend]
        exact ⟨by simp, fun _ s' hs' => Option.some.inj hs' ▸ h⟩
      · rw [hcalls, hend]
        exact ⟨by simp, fun _ s' hs' => Option.some.inj hs' ▸ hbody⟩
      rw [hcalls, hend]
      obtain ⟨hiff, hafter⟩ := Counts.polled it.arrived hbody
      simp only [List.forall_mem_append]
      refine ⟨⟨?_, ?_⟩, ?_⟩
      · rintro ⟨hpoll, hrest⟩
        have hs := hiff.mp hpoll
        exact ⟨hs, (ih (hafter hs)).1.mp hrest⟩
      · rintro ⟨hs, hrest⟩
        exact ⟨hiff.mpr hs, (ih (hafter hs)).1.mpr hrest⟩
      · rintro ⟨hs, hrest⟩
        exact (ih (hafter hs)).2 hrest

theorem Counts.call (c : Call) {s : Statics} (h : Counts s) :
    ((∀ x ∈ c.received s, Contained x.1 x.2) ↔ ∀ x ∈ c.received s, Safe x.1 x.2) ∧
      ((∀ x ∈ c.received s, Safe x.1 x.2) → ∀ r, c.run s = some r → Counts r.2) := by
  unfold Call.received Call.run doTftp
  by_cases hpcb : c.pcb = false
  · rw [if_pos hpcb, if_pos hpcb]
    refine ⟨by simp, fun _ r hr => ?_⟩
    obtain rfl := Option.some.inj hr
    exact h
  rw [if_neg hpcb, if_neg hpcb]
  have henter : Counts (enter c.target c.maxlen s) := h
  obtain ⟨hiff, hafter⟩ := henter.received c.file c.server c.its
  refine ⟨hiff, fun hs r hr => ?_⟩
  obtain ⟨s', hend, rfl⟩ := Option.map_eq_some_iff.mp hr
  exact hafter hs s' hend

/--
**TFTP keeps within the image buffer exactly if nothing unsafe arrives.**  In a boot, whatever
it receives, every call of `tftp_recv` keeps within the window if and only if every datagram
that is taken for the next block has a whole header and leaves `ptr` an `int`.
-/
theorem boot_contained_iff :
    ∀ (calls : List Call) (s : Statics), Counts s →
      ((∀ x ∈ bootReceived calls s, Contained x.1 x.2) ↔
        ∀ x ∈ bootReceived calls s, Safe x.1 x.2) := by
  intro calls
  induction calls with
  | nil => intro s _; simp [bootReceived]
  | cons c calls ih =>
      intro s h
      obtain ⟨hiff, hafter⟩ := h.call c
      rw [bootReceived]
      rcases hrun : c.run s with _ | r
      · simp only [List.append_nil]
        exact hiff
      · simp only [List.forall_mem_append]
        constructor
        · rintro ⟨hfirst, hrest⟩
          have hs := hiff.mp hfirst
          exact ⟨hs, (ih r.2 (hafter hs r hrun)).mp hrest⟩
        · rintro ⟨hs, hrest⟩
          exact ⟨hiff.mpr hs, (ih r.2 (hafter hs r hrun)).mpr hrest⟩

theorem troubled_contained :
    Counts Statics.fresh ∧ ∀ x ∈ bootReceived [troubled] Statics.fresh, Contained x.1 x.2 := by
  have hfresh : Counts Statics.fresh := by
    unfold Counts
    decide
  refine ⟨hfresh, (boot_contained_iff [troubled] Statics.fresh hfresh).mpr ?_⟩
  decide +kernel

/-- Two bytes, `00 03`, and behind their end the bytes `00 01` that were there before. -/
def headless : Pbuf where
  payload := fun i => ([0, 3, 0, 1] : List UInt8).getD i 0
  len := 2

/-- They are taken for the first block: `ptr` becomes -2, and all of memory is to be copied. -/
theorem headless_escapes :
    ∃ x ∈ bootReceived [fetch [⟨false, true, [(headless, ⟨0, 1000⟩)]⟩]] Statics.fresh,
      copies x.1 x.2 = some (0, -2) ∧ sizeOfInt (-2) = 2 ^ 64 - 2 ∧
        (tftpRecv x.2 ⟨0, 1000⟩ x.1).ptr = -2 ∧ ¬ Contained x.1 x.2 := by
  refine ⟨_, List.mem_cons_self, by decide +kernel, by decide, by decide +kernel, fun h => ?_⟩
  exact absurd (h.grows ⟨0, 1000⟩) (by decide +kernel)

/-! ### Files that do not fit -/

/-- An attempt: what `ptr` was when its first block came, and how much data it has accepted. -/
structure Progress where
  began : Int
  size : Nat

/-- The attempt that a block belongs to, which it begins if `current_block` is 0. -/
def Progress.start (g : Progress) (s : Statics) : Progress :=
  if s.currentBlock = 0 then ⟨s.ptr, 0⟩ else g

/-- What a call of `tftp_recv` makes of the attempt. -/
def Progress.track (g : Progress) (x : Statics × Pbuf) : Progress :=
  if IsNext x.1 x.2 then ⟨(g.start x.1).began, (g.start x.1).size + (x.2.totLen - 4)⟩ else g

/-- The blocks that are accepted, each with its attempt as it stands then. -/
def accepted : Progress → List (Statics × Pbuf) → List (Progress × Statics × Pbuf)
  | _, [] => []
  | g, x :: xs =>
      if IsNext x.1 x.2 then (g.start x.1, x) :: accepted (g.track x) xs
      else accepted (g.track x) xs

/-- The blocks that a call of `do_tftp` accepts. -/
def Call.accepted (c : Call) (s : Statics) : List (Progress × Statics × Pbuf) :=
  Tftp.accepted ⟨0, 0⟩ (c.received s)

/-- The data of a block were copied to their place in an image of `n` bytes, and are there. -/
structure Stored (target : Nat) (n : Int) (m : Mem UInt8) (y : Progress × Statics × Pbuf) :
    Prop where
  copied : copies y.2.1 y.2.2 = some (((target + y.1.size : Nat) : Int), dataLen y.2.2)
  inside : y.1.size + dataLen y.2.2 ≤ n
  there : m.slice (target + y.1.size) (y.2.2.totLen - 4) = y.2.2.data.drop 4

/-- What a result that is not negative should mean: it is the length of an image that fits, and
all the data of all accepted blocks are in it. -/
structure Call.Complete (c : Call) (s : Statics) (r : Int × Statics) : Prop where
  fits : r.1 ≤ c.maxlen
  stored : ∀ y ∈ c.accepted s, 4 < y.2.2.totLen → Stored c.target r.1 r.2.mem y

/-- The data lie one behind the other from behind the header on. -/
def Contiguous (p : Pbuf) : Prop := p.payload.slice 4 (p.totLen - 4) = p.data.drop 4

/-- A block fits, and if it has data, its attempt began with `ptr` at 0 and the data lie one behind
the other. -/
def Fits (maxlen : Int) (y : Progress × Statics × Pbuf) : Prop :=
  y.2.1.ptr + dataLen y.2.2 ≤ maxlen ∧
    (4 < y.2.2.totLen → y.1.began = 0 ∧ Contiguous y.2.2)

/-- Every block that is accepted fits. -/
def Call.AllFit (c : Call) (s : Statics) : Prop := ∀ y ∈ c.accepted s, Fits c.maxlen y

/-- A datagram that is not in pieces. -/
theorem contiguous_of_single {p : Pbuf} (hlen : 4 ≤ p.len) (h : p.next = []) : Contiguous p := by
  unfold Contiguous Pbuf.data Pbuf.totLen
  obtain ⟨k, hk⟩ := Nat.exists_eq_add_of_le hlen
  rw [h, List.append_nil, List.length_nil, Nat.add_zero, hk, Mem.slice_add, Nat.zero_add,
    Nat.add_sub_cancel_left]
  exact (List.drop_left' (Mem.slice_length _ _ _)).symm

section Accepted

variable {g : Progress} {xs : List (Statics × Pbuf)}

theorem accepted_append (ys : List (Statics × Pbuf)) :
    ∀ {g : Progress}, accepted g (xs ++ ys)
      = accepted g xs ++ accepted (xs.foldl Progress.track g) ys := by
  induction xs with
  | nil => intro g; rfl
  | cons x xs ih =>
      intro g
      rw [List.cons_append, accepted, accepted, List.foldl_cons, ih]
      split
      · rw [List.cons_append]
      · rfl

/-- What is accepted has been received. -/
theorem mem_received_of_accepted {y : Progress × Statics × Pbuf} :
    ∀ {g : Progress}, y ∈ accepted g xs → y.2 ∈ xs ∧ IsNext y.2.1 y.2.2 := by
  induction xs with
  | nil => intro g h; simp [accepted] at h
  | cons x xs ih =>
      intro g h
      rw [accepted] at h
      split at h
      · rename_i hn
        rcases List.mem_cons.mp h with rfl | hrest
        · exact ⟨List.mem_cons_self, hn⟩
        · exact ⟨List.mem_cons_of_mem _ (ih hrest).1, (ih hrest).2⟩
      · exact ⟨List.mem_cons_of_mem _ (ih h).1, (ih h).2⟩

/-- And what is taken for the next block is accepted. -/
theorem accepted_of_mem_received {x : Statics × Pbuf} (hn : IsNext x.1 x.2) :
    ∀ {g : Progress}, x ∈ xs → ∃ g', (g', x) ∈ accepted g xs := by
  induction xs with
  | nil => intro g h; simp at h
  | cons z xs ih =>
      intro g h
      rw [accepted]
      rcases List.mem_cons.mp h with rfl | hrest
      · rw [if_pos hn]
        exact ⟨_, List.mem_cons_self⟩
      · obtain ⟨g', hg'⟩ := ih (g := g.track z) hrest
        split
        · exact ⟨g', List.mem_cons_of_mem _ hg'⟩
        · exact ⟨g', hg'⟩

end Accepted

/-- `ptr` stands behind the data of the attempt, if there is one. -/
def Linked (g : Progress) (s : Statics) : Prop := s.currentBlock = 0 ∨ s.ptr = g.began + g.size

section Linked

variable {g : Progress} {s : Statics}

theorem Linked.start (h : Linked g s) : s.ptr = (g.start s).began + (g.start s).size := by
  unfold Progress.start
  split
  · exact (Int.add_zero _).symm
  · rename_i hblock
    exact h.resolve_left hblock

theorem Linked.tftpRecv (h : Linked g s) {p : Pbuf} (hlen : 4 ≤ p.totLen) (sender : Endpoint) :
    Linked (g.track (s, p)) (tftpRecv p sender s) := by
  obtain ⟨hnext, hother⟩ := tftpRecv_image s p sender
  unfold Progress.track
  by_cases hn : IsNext s p
  · rw [if_pos hn]
    refine Or.inr ?_
    have hstart := h.start
    rw [(hnext hn).ptr]
    unfold dataLen
    show _ = (g.start s).began + ((g.start s).size + (p.totLen - 4) : Nat)
    omega
  · rw [if_neg hn]
    unfold Linked
    rw [(hother hn).block, (hother hn).ptr]
    exact h

theorem Linked.polled :
    ∀ (ds : List (Pbuf × Endpoint)) {g : Progress} {s : Statics}, Linked g s →
      (∀ d ∈ ds, 4 ≤ d.1.totLen) →
      (∀ y ∈ accepted g (polled ds s), y.2.1.ptr = y.1.began + y.1.size) ∧
        Linked ((polled ds s).foldl Progress.track g) (poll ds s) := by
  intro ds
  induction ds with
  | nil =>
      intro g s h _
      exact ⟨fun y hy => by simp [Tftp.polled, accepted] at hy, h⟩
  | cons d ds ih =>
      intro g s h hlen
      rw [List.forall_mem_cons] at hlen
      obtain ⟨hrest, hend⟩ := ih (h.tftpRecv hlen.1 d.2) hlen.2
      refine ⟨fun y hy => ?_, hend⟩
      rw [Tftp.polled, accepted] at hy
      split at hy
      · rcases List.mem_cons.mp hy with rfl | hy
        · exact h.start
        · exact hrest y hy
      · exact hrest y hy

/-- A turn of the loop leaves an attempt as it is, or ends it. -/
theorem Linked.body (h : Linked g s) (file : List UInt8) (server : UInt32) (late alloc : Bool) :
    Linked g (body file server late alloc s).st := by
  obtain ⟨-, -, hptr, -⟩ := body_image file server late alloc s
  unfold Linked
  rw [hptr]
  exact h.imp_left fun hzero => body_block_zero hzero

theorem Linked.received (file : List UInt8) (server : UInt32) :
    ∀ (its : List Iteration) {g : Progress} {s : Statics}, Linked g s →
      (∀ it ∈ its, ∀ d ∈ it.arrived, 4 ≤ d.1.totLen) →
      ∀ y ∈ accepted g (received file server its s), y.2.1.ptr = y.1.began + y.1.size := by
  intro its
  induction its with
  | nil =>
      intro g s _ _ y hy
      simp [Tftp.received, accepted] at hy
  | cons it its ih =>
      intro g s h hlen y hy
      rw [List.forall_mem_cons] at hlen
      rcases received_cases file server it its s with
        ⟨-, hcalls, -⟩ | ⟨-, hcalls, -, -⟩ | ⟨-, hcalls, -⟩
      · rw [hcalls] at hy
        simp [accepted] at hy
      · rw [hcalls] at hy
        simp [accepted] at hy
      rw [hcalls, accepted_append] at hy
      obtain ⟨hpoll, hend⟩ := (h.body file server it.late it.alloc).polled it.arrived hlen.1
      rcases List.mem_append.mp hy with hfirst | hrest
      · exact hpoll y hfirst
      · exact ih hend hlen.2 y hrest

end Linked

/-! ### The length of the image -/

theorem poll_ptr_le :
    ∀ (ds : List (Pbuf × Endpoint)) (s : Statics), (∀ d ∈ ds, 4 ≤ d.1.totLen) →
      s.ptr ≤ (poll ds s).ptr ∧
        ∀ x ∈ polled ds s, IsNext x.1 x.2 → x.1.ptr + dataLen x.2 ≤ (poll ds s).ptr := by
  intro ds
  induction ds with
  | nil =>
      intro s _
      exact ⟨Int.le_refl _, by simp [polled]⟩
  | cons d ds ih =>
      intro s hlen
      rw [List.forall_mem_cons] at hlen
      obtain ⟨hle, hall⟩ := ih (tftpRecv d.1 d.2 s) hlen.2
      obtain ⟨hnext, hother⟩ := tftpRecv_image s d.1 d.2
      have hdata : 0 ≤ dataLen d.1 := by
        have := hlen.1
        unfold dataLen
        omega
      have hgrows : s.ptr ≤ (tftpRecv d.1 d.2 s).ptr := by
        by_cases hn : IsNext s d.1
        · rw [(hnext hn).ptr]
          omega
        · rw [(hother hn).ptr]
      refine ⟨Int.le_trans hgrows hle, fun x hx hxn => ?_⟩
      rw [polled] at hx
      rcases List.mem_cons.mp hx with rfl | hx
      · have hptr := (hnext hxn).ptr
        show s.ptr + dataLen d.1 ≤ (poll ds (tftpRecv d.1 d.2 s)).ptr
        omega
      · exact hall x hx hxn

/-- `ptr` comes to stand behind the data of every block that is accepted. -/
theorem received_ptr_le (file : List UInt8) (server : UInt32) :
    ∀ (its : List Iteration) {s s' : Statics}, (∀ it ∈ its, ∀ d ∈ it.arrived, 4 ≤ d.1.totLen) →
      (doTftpLoop file server its s).2 = some s' →
      s.ptr ≤ s'.ptr ∧
        ∀ x ∈ received file server its s, IsNext x.1 x.2 → x.1.ptr + dataLen x.2 ≤ s'.ptr := by
  intro its
  induction its with
  | nil =>
      intro s s' _ hend
      obtain ⟨-, rfl⟩ := doTftpLoop_nil hend
      exact ⟨Int.le_refl _, by simp [received]⟩
  | cons it its ih =>
      intro s s' hlen hs'
      rw [List.forall_mem_cons] at hlen
      have hbody := (body_image file server it.late it.alloc s).2.2.1
      rcases received_cases file server it its s with
        ⟨-, hcalls, hend⟩ | ⟨-, hcalls, hend, -⟩ | ⟨-, hcalls, hend⟩
      · rw [hend] at hs'
        obtain rfl := Option.some.inj hs'
        exact ⟨Int.le_refl _, by simp [hcalls]⟩
      · rw [hend] at hs'
        obtain rfl := Option.some.inj hs'
        exact ⟨hbody.ge, by simp [hcalls]⟩
      rw [hend] at hs'
      obtain ⟨hpoll, hpolled⟩ := poll_ptr_le it.arrived (body file server it.late it.alloc s).st
        hlen.1
      obtain ⟨hrest, hreceived⟩ := ih hlen.2 hs'
      rw [hcalls]
      refine ⟨by omega, fun x hx hxn => ?_⟩
      rcases List.mem_append.mp hx with hfirst | hlast
      · exact Int.le_trans (hpolled x hfirst hxn) hrest
      · exact hreceived x hlast hxn

/-! ### What is kept -/

/-- A block was taken in the window, and its bytes are where `ptr` was. -/
structure Lies (target : Nat) (maxlen : Int) (m : Mem UInt8) (x : Statics × Pbuf) : Prop where
  base : x.1.base = target
  limit : x.1.imageMaxlen = maxlen
  nonneg : 0 ≤ x.1.ptr
  there : m.slice (target + x.1.ptr).toNat (x.2.totLen - 4) = x.2.payload.slice 4 (x.2.totLen - 4)

/-- The image after the calls `done`, all of which fit. -/
structure Kept (target : Nat) (maxlen : Int) (done : List (Statics × Pbuf)) (s : Statics) : Prop where
  base : s.base = target
  limit : s.imageMaxlen = maxlen
  nonneg : 0 ≤ s.ptr
  whole : ∀ x ∈ done, 4 ≤ x.2.totLen
  stored : ∀ x ∈ done, IsNext x.1 x.2 →
    x.1.ptr + dataLen x.2 ≤ s.ptr ∧ Lies target maxlen s.mem x
  le : (∃ x ∈ done, IsNext x.1 x.2) → s.ptr ≤ maxlen
  finish : s.tftpState = .finish → s.tftpResult < 0 ∨ ∃ x ∈ done, IsNext x.1 x.2

/-- Who finishes without a block has an error to report, or had finished before. -/
theorem tftpRecv_finish {s : Statics} {p : Pbuf} (hlen : 4 ≤ p.totLen) (hnot : ¬ IsNext s p)
    (sender : Endpoint) (h : (tftpRecv p sender s).tftpState = .finish) :
    (tftpRecv p sender s).tftpResult < 0 ∨
      (s.tftpState = .finish ∧ (tftpRecv p sender s).tftpResult = s.tftpResult) := by
  have hdisp : (dispatch p s).tftpState = .finish := by
    have hstate : (connect sender (dispatch p s)).tftpState = .finish := h
    rw [connect_tftpState] at hstate
    split at hstate
    · simp at hstate
    · exact hstate
  have hres : (tftpRecv p sender s).tftpResult = (dispatch p s).tftpResult :=
    connect_tftpResult sender (dispatch p s)
  rw [hres]
  unfold dispatch at hdisp ⊢
  rw [if_neg (by omega)] at hdisp ⊢
  dsimp only at hdisp ⊢
  split
  · rename_i hop
    rw [hop] at hdisp
    have hnum : be16 (p.payload 2) (p.payload 3) ≠ s.currentBlock + 1 := fun hn => hnot ⟨hop, hn⟩
    have hsame : (recvData p s).tftpState = s.tftpState ∧
        (recvData p s).tftpResult = s.tftpResult := by
      unfold recvData
      dsimp only
      rw [if_neg hnum]
      split
      · exact ⟨rfl, rfl⟩
      · exact ⟨rfl, rfl⟩
    exact Or.inr ⟨hsame.1.symm.trans hdisp, hsame.2⟩
  · exact Or.inl (by show (-2 : Int) < 0; decide)
  · rename_i hop hother
    refine Or.inr ⟨?_, rfl⟩
    split at hdisp
    · exact absurd (by assumption) hop
    · exact absurd (by assumption) hother
    · exact hdisp

/-- A turn of the loop does not finish it. -/
theorem body_not_finish {file : List UInt8} {server : UInt32} {late alloc : Bool} {s : Statics}
    (h : s.tftpState ≠ .finish) : (body file server late alloc s).st.tftpState ≠ .finish := by
  refine body_keeps (P := fun t => t.tftpState ≠ .finish) file server alloc h (fun _ => ?_)
    fun _ _ ht => ht
  rcases timeout_cases s with ⟨-, result, send, heq, -⟩ | ⟨-, state, heq, hstate⟩
  · rw [heq]
    simp
  · rw [heq]
    rcases hstate with rfl | ⟨rfl, -⟩
    · exact h
    · simp

section Kept

variable {target : Nat} {maxlen : Int} {done : List (Statics × Pbuf)} {s : Statics}

theorem Kept.whole_append (h : Kept target maxlen done s) {p : Pbuf} (hlen : 4 ≤ p.totLen) :
    ∀ x ∈ done ++ [(s, p)], 4 ≤ x.2.totLen := by
  intro x hx
  rcases List.mem_append.mp hx with hold | hnew
  · exact h.whole x hold
  · obtain rfl := List.mem_singleton.mp hnew
    exact hlen

/-- A block that is taken and fits lies in the image behind those before it. -/
theorem Kept.next (hmax : maxlen < 2 ^ 31) (h : Kept target maxlen done s) {p : Pbuf}
    (hlen : 4 ≤ p.totLen) (hn : IsNext s p) (hroom : s.ptr + dataLen p ≤ maxlen)
    (sender : Endpoint) : Kept target maxlen (done ++ [(s, p)]) (tftpRecv p sender s) := by
  have himage := (tftpRecv_image s p sender).1 hn
  have hnonneg := h.nonneg
  have hpl : dataLen p = (p.totLen - 4 : Nat) := by
    unfold dataLen
    omega
  have hsize : sizeOfInt (dataLen p) = p.totLen - 4 := by
    unfold sizeOfInt
    omega
  have hmem : (tftpRecv p sender s).mem
      = s.mem.store (target + s.ptr).toNat (p.totLen - 4) fun i => p.payload (4 + i) := by
    rw [himage.mem]
    unfold copied
    rw [if_pos (by rw [h.limit]; exact hroom), hsize, h.base]
  refine ⟨himage.base.trans h.base, himage.maxlen.trans h.limit, by rw [himage.ptr]; omega,
    h.whole_append hlen, ?_, fun _ => by rw [himage.ptr]; exact hroom,
    fun _ => Or.inr ⟨(s, p), List.mem_append_right _ (List.mem_singleton_self _), hn⟩⟩
  intro x hx hxn
  rw [himage.ptr]
  rcases List.mem_append.mp hx with hold | hnew
  · obtain ⟨hle, hlies⟩ := h.stored x hold hxn
    have h0 := hlies.nonneg
    refine ⟨by omega, hlies.base, hlies.limit, h0, ?_⟩
    -- what is copied now lies behind
    have hbefore : (target + x.1.ptr).toNat + (x.2.totLen - 4) ≤ (target + s.ptr).toNat := by
      have := h.whole x hold
      unfold dataLen at hle
      omega
    rw [hmem, Mem.slice_store_before _ _ _ hbefore]
    exact hlies.there
  · obtain rfl := List.mem_singleton.mp hnew
    refine ⟨Int.le_refl _, h.base, h.limit, hnonneg, ?_⟩
    rw [hmem, Mem.slice_store]
    rfl

/-- Anything else leaves the image as it is. -/
theorem Kept.other (h : Kept target maxlen done s) {p : Pbuf} (hlen : 4 ≤ p.totLen)
    (hn : ¬ IsNext s p) (sender : Endpoint) :
    Kept target maxlen (done ++ [(s, p)]) (tftpRecv p sender s) := by
  have himage := (tftpRecv_image s p sender).2 hn
  have hold : ∀ x ∈ done ++ [(s, p)], IsNext x.1 x.2 → x ∈ done := by
    intro x hx hxn
    rcases List.mem_append.mp hx with hold | hnew
    · exact hold
    · obtain rfl := List.mem_singleton.mp hnew
      exact absurd hxn hn
  refine ⟨himage.base.trans h.base, himage.maxlen.trans h.limit, by rw [himage.ptr]; exact h.nonneg,
    h.whole_append hlen, ?_, ?_, fun hfin => ?_⟩
  · intro x hx hxn
    rw [himage.ptr, himage.mem]
    exact h.stored x (hold x hx hxn) hxn
  · rintro ⟨x, hx, hxn⟩
    rw [himage.ptr]
    exact h.le ⟨x, hold x hx hxn, hxn⟩
  · rcases tftpRecv_finish hlen hn sender hfin with hneg | ⟨hfin', hres⟩
    · exact Or.inl hneg
    · rw [hres]
      rcases h.finish hfin' with hneg | ⟨x, hx, hxn⟩
      · exact Or.inl hneg
      · exact Or.inr ⟨x, List.mem_append_left _ hx, hxn⟩

/-- A call of `tftp_recv` whose data fit, if they are taken, keeps what is there. -/
theorem Kept.tftpRecv (hmax : maxlen < 2 ^ 31) (h : Kept target maxlen done s) {p : Pbuf}
    (hlen : 4 ≤ p.totLen) (hfit : IsNext s p → s.ptr + dataLen p ≤ maxlen) (sender : Endpoint) :
    Kept target maxlen (done ++ [(s, p)]) (tftpRecv p sender s) := by
  by_cases hn : IsNext s p
  · exact h.next hmax hlen hn (hfit hn) sender
  · exact h.other hlen hn sender

theorem Kept.polled (hmax : maxlen < 2 ^ 31) :
    ∀ (ds : List (Pbuf × Endpoint)) {done : List (Statics × Pbuf)} {s : Statics},
      Kept target maxlen done s → (∀ d ∈ ds, 4 ≤ d.1.totLen) →
      (∀ x ∈ polled ds s, IsNext x.1 x.2 → x.1.ptr + dataLen x.2 ≤ maxlen) →
      Kept target maxlen (done ++ polled ds s) (poll ds s) := by
  intro ds
  induction ds with
  | nil =>
      intro done s h _ _
      rw [Tftp.polled, List.append_nil]
      exact h
  | cons d ds ih =>
      intro done s h hlen hfit
      simp only [Tftp.polled, List.forall_mem_cons] at hfit hlen ⊢
      have hfirst := h.tftpRecv hmax hlen.1 hfit.1 d.2
      have hrest := ih hfirst hlen.2 hfit.2
      rw [List.append_assoc, List.singleton_append] at hrest
      exact hrest

/-- A turn of the loop that does not finish before it polls. -/
theorem Kept.body (h : Kept target maxlen done s) (hrun : s.tftpState ≠ .finish) (file : List UInt8)
    (server : UInt32) (late alloc : Bool) :
    Kept target maxlen done (body file server late alloc s).st := by
  obtain ⟨hbase, hlimit, hptr, hmem⟩ := body_image file server late alloc s
  refine ⟨hbase.trans h.base, hlimit.trans h.limit, by rw [hptr]; exact h.nonneg, h.whole, ?_, ?_,
    ?_⟩
  · rw [hptr, hmem]
    exact h.stored
  · rw [hptr]
    exact h.le
  · intro hfin
    exact absurd hfin (body_not_finish hrun)

theorem Kept.received (hmax : maxlen < 2 ^ 31) (file : List UInt8) (server : UInt32) :
    ∀ (its : List Iteration) {done : List (Statics × Pbuf)} {s : Statics},
      Kept target maxlen done s → (∀ it ∈ its, ∀ d ∈ it.arrived, 4 ≤ d.1.totLen) →
      (∀ x ∈ received file server its s, IsNext x.1 x.2 → x.1.ptr + dataLen x.2 ≤ maxlen) →
      ∀ s', (doTftpLoop file server its s).2 = some s' → s'.tftpResult < 0 ∨
        (Kept target maxlen (done ++ received file server its s) s' ∧ s'.tftpState = .finish) := by
  intro its
  induction its with
  | nil =>
      intro done s h _ _ s' hend
      obtain ⟨hfin, rfl⟩ := doTftpLoop_nil hend
      exact Or.inr ⟨by simpa [Tftp.received] using h, hfin⟩
  | cons it its ih =>
      intro done s h hlen hfit s' hs'
      rcases received_cases file server it its s with
        ⟨hfin, hcalls, hend⟩ | ⟨-, -, hend, hleft⟩ | ⟨hrun, hcalls, hend⟩
      · rw [hend] at hs'
        obtain rfl := Option.some.inj hs'
        exact Or.inr ⟨by rw [hcalls, List.append_nil]; exact h, hfin⟩
      · rw [hend] at hs'
        obtain rfl := Option.some.inj hs'
        exact Or.inl (body_left hleft)
      rw [hend] at hs'
      rw [hcalls] at hfit ⊢
      simp only [List.forall_mem_append, List.forall_mem_cons] at hfit hlen
      have hpoll := (h.body hrun file server it.late it.alloc).polled hmax it.arrived hlen.1 hfit.1
      have hrest := ih hpoll hlen.2 hfit.2 s' hs'
      rw [List.append_assoc] at hrest
      exact hrest

end Kept

theorem Kept.enter (target : Nat) (maxlen : Int) {s : Statics} (hptr : 0 ≤ s.ptr) :
    Kept target maxlen [] (enter target maxlen s) :=
  ⟨rfl, rfl, hptr, by simp, by simp, by simp, fun h => by simp [Tftp.enter] at h⟩

section Complete

variable {c : Call} {s : Statics} {n : Int} {s' : Statics}

/-- A call with a result that is not negative has run its loop to the end. -/
theorem Call.run_loop (hrun : c.run s = some (n, s')) (hn : 0 ≤ n) :
    c.received s = Tftp.received c.file c.server c.its (enter c.target c.maxlen s) ∧
      (doTftpLoop c.file c.server c.its (enter c.target c.maxlen s)).2 = some s' ∧
      ¬ s'.tftpResult < 0 ∧ s'.ptr = n := by
  have hpcb : c.pcb ≠ false := by
    intro hpcb
    unfold Call.run doTftp at hrun
    rw [if_pos hpcb] at hrun
    have := (Prod.mk.inj (Option.some.inj hrun)).1
    omega
  unfold Call.received
  unfold Call.run doTftp at hrun
  rw [if_neg hpcb] at hrun ⊢
  obtain ⟨t, hend, ht⟩ := Option.map_eq_some_iff.mp hrun
  obtain ⟨hval, rfl⟩ := Prod.mk.inj ht
  have hres : ¬ t.tftpResult < 0 := by
    intro hneg
    rw [if_pos hneg] at hval
    omega
  rw [if_neg hres] at hval
  exact ⟨rfl, hend, hres, hval⟩

/-- What there is after a call whose blocks all had room. -/
theorem Call.kept (hmax : c.maxlen < 2 ^ 31)
    (hlen : ∀ it ∈ c.its, ∀ d ∈ it.arrived, 4 ≤ d.1.totLen) (hptr : 0 ≤ s.ptr)
    (hrun : c.run s = some (n, s')) (hn : 0 ≤ n)
    (hroom : ∀ y ∈ c.accepted s, y.2.1.ptr + dataLen y.2.2 ≤ c.maxlen) :
    n ≤ c.maxlen ∧ ∀ x ∈ c.received s, IsNext x.1 x.2 →
      x.1.ptr + dataLen x.2 ≤ n ∧ Lies c.target c.maxlen s'.mem x := by
  obtain ⟨hcalls, hend, hres, hval⟩ := Call.run_loop hrun hn
  have hfit : ∀ x ∈ c.received s, IsNext x.1 x.2 → x.1.ptr + dataLen x.2 ≤ c.maxlen := by
    intro x hx hxn
    obtain ⟨g, hg⟩ := accepted_of_mem_received hxn (g := ⟨0, 0⟩) hx
    exact hroom _ hg
  rw [hcalls] at hfit ⊢
  rcases (Kept.enter c.target c.maxlen hptr).received hmax c.file c.server c.its hlen hfit s' hend
    with hneg | ⟨hkept, hfin⟩
  · exact absurd hneg hres
  rw [List.nil_append] at hkept
  rw [← hval]
  exact ⟨hkept.le ((hkept.finish hfin).resolve_left hres), hkept.stored⟩

/-- Where `ptr` points when a block is accepted. -/
theorem Call.linked (hlen : ∀ it ∈ c.its, ∀ d ∈ it.arrived, 4 ≤ d.1.totLen) :
    ∀ y ∈ c.accepted s, y.2.1.ptr = y.1.began + y.1.size := by
  unfold Call.accepted Call.received
  split
  · intro y hy
    simp [Tftp.accepted] at hy
  · exact Linked.received c.file c.server c.its (Or.inl rfl) hlen

/-- A block that lies where `ptr` was is stored, if that was its place. -/
theorem Lies.stored_iff {target : Nat} {maxlen : Int} {m : Mem UInt8}
    {y : Progress × Statics × Pbuf} (h : Lies target maxlen m y.2) (hnext : IsNext y.2.1 y.2.2)
    (hroom : y.2.1.ptr + dataLen y.2.2 ≤ maxlen) (hle : y.2.1.ptr + dataLen y.2.2 ≤ n)
    (hlink : y.2.1.ptr = y.1.began + y.1.size) :
    Stored target n m y ↔ y.1.began = 0 ∧ Contiguous y.2.2 := by
  have hcopies : copies y.2.1 y.2.2 = some (target + y.2.1.ptr, dataLen y.2.2) := by
    unfold copies
    rw [h.base, h.limit, if_pos ⟨hnext, hroom⟩]
  have hthere := h.there
  constructor
  · intro hst
    have hcopied := hst.copied
    rw [hcopies] at hcopied
    have htarget := (Prod.mk.inj (Option.some.inj hcopied)).1
    refine ⟨by omega, ?_⟩
    unfold Contiguous
    rw [← hthere, ← hst.there, show (target + y.2.1.ptr).toNat = target + y.1.size by omega]
  · rintro ⟨hbegan, hcontiguous⟩
    have hplace : (target : Int) + y.2.1.ptr = (target + y.1.size : Nat) := by omega
    refine ⟨by rw [hcopies, hplace], by omega, ?_⟩
    unfold Contiguous at hcontiguous
    rw [hplace, Int.toNat_natCast] at hthere
    rw [hthere, hcontiguous]

/--
**When a result of `do_tftp` means a complete image**: exactly when every accepted block had room,
and those with data belong to an attempt that began with `ptr` at 0 and are not in pieces.
`boot_tftp`, making the same call, hands the image on in either case.
-/
theorem complete_iff (hmax : c.maxlen < 2 ^ 31)
    (hlen : ∀ it ∈ c.its, ∀ d ∈ it.arrived, 4 ≤ d.1.totLen) (hptr : 0 ≤ s.ptr)
    (hrun : c.run s = some (n, s')) (hn : 0 ≤ n) :
    (c.Complete s (n, s') ↔ c.AllFit s) ∧
      ∀ bootfile, c.target = loaderRaw → c.maxlen = loaderMaxsize → c.server ≠ 0 → c.file ≠ [] →
        bootfile.takeWhile (· != 0x20) = c.file →
        ∃ args, bootTftp c.server bootfile c.pcb c.its s = some (.executeElfAt n args s') := by
  have hlinked := Call.linked (s := s) hlen
  refine ⟨⟨fun h => ?_, fun h => ?_⟩, ?_⟩
  · obtain ⟨hcalls, hend, -, hval⟩ := Call.run_loop hrun hn
    have hle := (received_ptr_le c.file c.server c.its hlen hend).2
    rw [← hcalls, hval] at hle
    have hroom : ∀ y ∈ c.accepted s, y.2.1.ptr + dataLen y.2.2 ≤ c.maxlen := by
      intro y hy
      obtain ⟨hmem, hnext⟩ := mem_received_of_accepted hy
      exact (hle y.2 hmem hnext).trans h.fits
    obtain ⟨-, hlies⟩ := Call.kept hmax hlen hptr hrun hn hroom
    intro y hy
    obtain ⟨hmem, hnext⟩ := mem_received_of_accepted hy
    obtain ⟨hin, hlie⟩ := hlies y.2 hmem hnext
    refine ⟨hroom y hy, fun hdata => ?_⟩
    exact (hlie.stored_iff hnext (hroom y hy) hin (hlinked y hy)).mp (h.stored y hy hdata)
  · obtain ⟨hfits, hlies⟩ := Call.kept hmax hlen hptr hrun hn fun y hy => (h y hy).1
    refine ⟨hfits, fun y hy hdata => ?_⟩
    obtain ⟨hmem, hnext⟩ := mem_received_of_accepted hy
    obtain ⟨hin, hlie⟩ := hlies y.2 hmem hnext
    exact (hlie.stored_iff hnext (h y hy).1 hin (hlinked y hy)).mpr ((h y hy).2 hdata)
  · intro bootfile htarget hmaxlen hserver hfile hname
    unfold Call.run at hrun
    rw [htarget, hmaxlen] at hrun
    unfold bootTftp
    dsimp only
    rw [hname, if_neg hserver, if_neg hfile, hrun, Option.map_some, if_neg (Int.not_lt.mpr hn)]
    exact ⟨_, rfl⟩

end Complete

/-- A file of 512 bytes, in two blocks. -/
theorem small_complete :
    ∃ s', (fetch [arrives 1, arrives 2]).run Statics.fresh = some (512, s') ∧
      (fetch [arrives 1, arrives 2]).Complete Statics.fresh (512, s') := by
  have hval : ((fetch [arrives 1, arrives 2]).run Statics.fresh).map Prod.fst = some 512 := by
    decide +kernel
  obtain ⟨⟨n, s'⟩, hrun, rfl⟩ := Option.map_eq_some_iff.mp hval
  have hlen : ∀ it ∈ (fetch [arrives 1, arrives 2]).its, ∀ d ∈ it.arrived, 4 ≤ d.1.totLen := by
    decide +kernel
  have hblocks : ∀ y ∈ (fetch [arrives 1, arrives 2]).accepted Statics.fresh,
      y.2.1.ptr + dataLen y.2.2 ≤ 0x1000000 ∧ y.1.began = 0 ∧ 4 ≤ y.2.2.len ∧ y.2.2.next = [] := by
    decide +kernel
  have hfit : (fetch [arrives 1, arrives 2]).AllFit Statics.fresh := by
    intro y hy
    obtain ⟨hroom, hbegan, hlong, hsingle⟩ := hblocks y hy
    exact ⟨hroom, fun _ => ⟨hbegan, contiguous_of_single hlong hsingle⟩⟩
  exact ⟨s', hrun, (complete_iff (by decide) hlen (by decide) hrun (by decide)).1.mpr hfit⟩

/-- Block `k` of a server that sends 1468 bytes at a time, as many as go into one frame, and none in
block 11430. -/
def largeBlock (k : Nat) : Pbuf where
  payload := fun i => ([0, 3] ++ numberBytes k).getD i 0x58
  len := if k = 11430 then 4 else 1472

/-- A turn of the loop in which it comes. -/
def largeTurn (k : Nat) : Iteration where
  late := false
  alloc := true
  arrived := [(largeBlock (k + 1), ⟨1, 1000⟩)]

/-- A file of 11429 such blocks, asked for by `boot_tftp`. -/
def largeFile : Call where
  target := loaderRaw
  maxlen := loaderMaxsize
  server := 1
  file := [0x78]
  content := []
  pcb := true
  its := (List.range' 0 11430).map largeTurn

theorem largeBlock_totLen (k : Nat) :
    (largeBlock k).totLen = if k = 11430 then 4 else 1472 := rfl

/-- `k` blocks have come. -/
structure Streams (k : Nat) (s : Statics) : Prop where
  state : s.tftpState ≠ .finish
  result : s.tftpResult = 0
  block : s.currentBlock = k
  ptr : s.ptr = 1468 * k
  last : s.lastSize = if k = 0 then 0 else 1468

theorem connect_not_finish {s : Statics} (sender : Endpoint) (h : s.tftpState ≠ .finish) :
    (connect sender s).tftpState ≠ .finish := by
  rw [connect_tftpState]
  split
  · simp
  · exact h

/-- What `case 3` does with the next block. -/
theorem recvData_taken {s : Statics} {p : Pbuf}
    (hnumber : be16 (p.payload 2) (p.payload 3) = s.currentBlock + 1) :
    ∃ m, recvData p s =
      (let s' := { s with mem := m, currentBlock := s.currentBlock + 1, ptr := s.ptr + dataLen p }
       if dataLen p < s.lastSize then { s' with tftpResult := 0, tftpState := .finish }
       else { s' with lastSize := dataLen p, send := true }) := by
  obtain ⟨m, hm⟩ := copyBlock_eq p (dataLen p) s
  refine ⟨m, ?_⟩
  unfold recvData
  dsimp only
  rw [show (p.totLen - 4 : Int) = dataLen p from rfl, hm, hnumber, if_pos rfl]

/-- A turn calls `tftp_recv` with the next block. -/
theorem largeTurn_eq (k : Nat) (s : Statics) :
    (body [0x78] 1 (largeTurn k).late (largeTurn k).alloc s).left = false ∧
      ∃ send, poll (largeTurn k).arrived
          (body [0x78] 1 (largeTurn k).late (largeTurn k).alloc s).st
        = { connect ⟨1, 1000⟩ (recvData (largeBlock (k + 1)) { s with send := send }) with
            tries := 0 } := by
  obtain ⟨send, hsend⟩ := transmit_fst [0x78] 1 true s
  have hbody : body [0x78] 1 (largeTurn k).late (largeTurn k).alloc s
      = ⟨{ s with send := send }, (transmit [0x78] 1 true s).2, false⟩ := by
    rw [← hsend]
    rfl
  have hop : be16 ((largeBlock (k + 1)).payload 0) ((largeBlock (k + 1)).payload 1) = 3 := by
    show be16 0 3 = 3
    decide
  have hlen : ¬ (largeBlock (k + 1)).totLen < 2 := by
    rw [largeBlock_totLen]
    split <;> omega
  refine ⟨by rw [hbody], send, ?_⟩
  rw [hbody]
  show tftpRecv (largeBlock (k + 1)) ⟨1, 1000⟩ { s with send := send } = _
  unfold tftpRecv dispatch
  rw [if_neg hlen, hop]
  rfl

theorem Streams.number {k : Nat} {s : Statics} (hk : k < 11430) (h : Streams k s) (send : Bool) :
    be16 ((largeBlock (k + 1)).payload 2) ((largeBlock (k + 1)).payload 3)
      = { s with send := send }.currentBlock + 1 := by
  rw [h.block]
  exact be16_numberBytes (by omega)

/-- A full block. -/
theorem Streams.next {k : Nat} {s : Statics} (hk : k < 11429) (h : Streams k s) :
    Streams (k + 1)
      (poll (largeTurn k).arrived (body [0x78] 1 (largeTurn k).late (largeTurn k).alloc s).st) := by
  obtain ⟨-, send, heq⟩ := largeTurn_eq _ s
  obtain ⟨m, hm⟩ := recvData_taken (h.number (by omega) send)
  have hdata : dataLen (largeBlock (k + 1)) = 1468 := by
    unfold dataLen
    rw [largeBlock_totLen, if_neg (by omega)]
    rfl
  have hlast := h.last
  have hlong : ¬ (1468 : Int) < s.lastSize := by
    split at hlast <;> omega
  rw [heq, hm, hdata]
  dsimp only
  rw [if_neg hlong]
  refine ⟨connect_not_finish _ h.state, ?_, ?_, ?_, ?_⟩
  · exact (connect_tftpResult _ _).trans h.result
  · exact (connect_currentBlock _ _).trans (congrArg (· + 1) h.block)
  · refine (connect_ptr _ _).trans ?_
    show s.ptr + 1468 = 1468 * ((k + 1 : Nat) : Int)
    have := h.ptr
    omega
  · exact connect_lastSize _ _

/-- The empty block. -/
theorem Streams.last_block {s : Statics} (h : Streams 11429 s) :
    ∃ s', poll (largeTurn 11429).arrived
        (body [0x78] 1 (largeTurn 11429).late (largeTurn 11429).alloc s).st = s' ∧
      s'.tftpState = .finish ∧ s'.tftpResult = 0 ∧ s'.ptr = 16777772 := by
  obtain ⟨-, send, heq⟩ := largeTurn_eq _ s
  obtain ⟨m, hm⟩ := recvData_taken (h.number (by omega) send)
  have hdata : dataLen (largeBlock (11429 + 1)) = 0 := rfl
  have hlast := h.last
  rw [if_neg (by decide)] at hlast
  have hptr := h.ptr
  rw [hm, hdata] at heq
  dsimp only at heq
  rw [if_pos (by rw [hlast]; decide)] at heq
  refine ⟨_, heq, ?_⟩
  refine ⟨?_, ?_, ?_⟩
  · rw [connect_tftpState, if_neg (by simp)]
  · exact connect_tftpResult _ _
  · refine (connect_ptr _ _).trans ?_
    show s.ptr + 0 = 16777772
    omega

/-- All that come, by induction on how many are left. -/
theorem Streams.run (n : Nat) :
    ∀ {k : Nat} {s : Statics}, Streams k s → k + n = 11429 →
      ∃ s', (doTftpLoop [0x78] 1 ((List.range' k (n + 1)).map largeTurn) s).2 = some s' ∧
        s'.tftpResult = 0 ∧ s'.ptr = 16777772 := by
  induction n with
  | zero =>
      intro k s h hk
      obtain rfl : k = 11429 := hk
      have hleft := (largeTurn_eq 11429 s).1
      obtain ⟨s', heq, hfin, hres, hptr⟩ := h.last_block
      refine ⟨s', ?_, hres, hptr⟩
      rw [List.range'_one, List.map_singleton, doTftpLoop, if_neg h.state]
      dsimp only
      rw [if_neg (by rw [hleft]; decide), heq, doTftpLoop, if_pos hfin]
  | succ n ih =>
      intro k s h hk
      have hleft := (largeTurn_eq k s).1
      obtain ⟨s', hrun, hend⟩ := ih (h.next (by omega)) (by omega)
      refine ⟨s', ?_, hend⟩
      rw [List.range'_succ, List.map_cons, doTftpLoop, if_neg h.state]
      dsimp only
      rw [if_neg (by rw [hleft]; decide)]
      exact hrun

/-- The file has a few hundred bytes more than there is room for, and it is handed on. -/
theorem largeFile_handed_on :
    (∀ it ∈ largeFile.its, ∀ d ∈ it.arrived, 4 ≤ d.1.totLen) ∧
      ∃ s', largeFile.run Statics.fresh = some (16777772, s') ∧
        ¬ largeFile.Complete Statics.fresh (16777772, s') ∧
        bootTftp 1 [0x78] true largeFile.its Statics.fresh
          = some (.executeElfAt 16777772 none s') := by
  have hlen : ∀ it ∈ largeFile.its, ∀ d ∈ it.arrived, 4 ≤ d.1.totLen := by
    intro it hit d hd
    obtain ⟨k, -, rfl⟩ := List.mem_map.mp hit
    obtain rfl := List.mem_singleton.mp hd
    show 4 ≤ (largeBlock (k + 1)).totLen
    rw [largeBlock_totLen]
    split <;> omega
  have hstart : Streams 0 (enter loaderRaw loaderMaxsize Statics.fresh) :=
    ⟨by decide, rfl, rfl, rfl, rfl⟩
  obtain ⟨s', hloop, hres, hptr⟩ := Streams.run 11429 hstart (Nat.zero_add _)
  have hdo : doTftp loaderRaw loaderMaxsize 1 [0x78] true largeFile.its Statics.fresh
      = some (16777772, s') := by
    unfold doTftp
    rw [if_neg (by decide), show largeFile.its = (List.range' 0 (11429 + 1)).map largeTurn from rfl,
      hloop, Option.map_some, if_neg (by omega), hptr]
  have hover : ¬ (16777772 : Int) ≤ (loaderMaxsize : Nat) := by decide
  refine ⟨hlen, s', hdo, fun h => hover h.fits, ?_⟩
  unfold bootTftp
  dsimp only
  rw [if_neg (by decide), if_neg (by decide), show [0x78].takeWhile (· != (0x20 : UInt8)) = [0x78]
    by decide, hdo, Option.map_some, if_neg (show ¬ (16777772 : Int) < 0 by decide),
    if_neg (by decide)]

end Xell.Tftp
