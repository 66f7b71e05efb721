/-
What the client knows of a file.

As long as every datagram that reaches `tftp_recv` carries a block of one file, in
whatever order and however often, the statics describe a prefix of that file: `Holds` is
that invariant.  It does not mention the server, so it serves any network.

The end of a transfer is a block shorter than the one seen before.  Only the last block
is shorter than 512 bytes, and `last_size` never exceeds 512, so whoever finishes that
way has the whole file.
-/
import Xell.Rfc1350

namespace Xell.Tftp

/-! ### Numbers in packets -/

theorem be16_numberBytes {k : Nat} (hk : k ≤ 65535) :
    be16 (UInt8.ofNat (k >>> 8)) (UInt8.ofNat (k &&& 0xff)) = k := by
  have hlo : k &&& 0xff = k % 256 := Nat.and_two_pow_sub_one_eq_mod k 8
  have hhi : k >>> 8 = k / 256 := Nat.shiftRight_eq_div_pow k 8
  have hsum : (k / 256) <<< 8 ||| k % 256 = k := by
    have hor := Nat.two_pow_add_eq_or_of_lt (i := 8) (Nat.mod_lt k (by decide)) (k / 256)
    rw [Nat.shiftLeft_eq, Nat.mul_comm, ← hor]
    exact Nat.div_add_mod k 256
  unfold be16
  rw [hlo, hhi, UInt8.toNat_ofNat_of_lt' (show k / 256 < 256 by omega),
    UInt8.toNat_ofNat_of_lt' (show k % 256 < 256 by omega), hsum]

theorem ackNumber_ackPacket {k : Nat} (hk : k ≤ 65535) : ackNumber (ackPacket k) = some k := by
  show some (be16 _ _) = some k
  rw [be16_numberBytes hk]

/-! ### Blocks -/

section Blocks

variable {F : List UInt8} {k : Nat}

/-- All blocks before the last are full. -/
theorem full_blocks (hk : k < blocks F) : 512 * k ≤ F.length := by
  unfold blocks at hk
  omega

theorem length_block (hk : k < blocks F) :
    (block F (k + 1)).length = min (512 * (k + 1)) F.length - 512 * k := by
  have := full_blocks hk
  unfold block
  rw [List.length_take, List.length_drop, Nat.add_sub_cancel]
  omega

theorem take_block (F : List UInt8) (k : Nat) :
    F.take (512 * k) ++ block F (k + 1) = F.take (512 * (k + 1)) := by
  unfold block
  rw [Nat.add_sub_cancel, Nat.mul_add, Nat.mul_one, List.take_add]

/-- Only the last block is short. -/
theorem short_block (hk : k < blocks F) (h : (block F (k + 1)).length < 512) :
    k + 1 = blocks F := by
  rw [length_block hk] at h
  unfold blocks at hk ⊢
  omega

end Blocks

/-- What the server does with a packet: it goes on to the next block and sends it, if it was
asked for it and there is one, or it does nothing. -/
theorem serve_cases (F packet : List UInt8) (b : Nat) :
    ((b = 0 ∧ isRrq packet = true ∨ b ≠ 0 ∧ ackNumber packet = some b) ∧ b + 1 ≤ blocks F ∧
      serve F packet b = (b + 1, [dataPacket F (b + 1)])) ∨
    serve F packet b = (b, []) := by
  unfold serve
  by_cases hb : b = 0
  · subst hb
    rw [if_pos rfl]
    by_cases hrrq : isRrq packet = true
    · rw [if_pos hrrq]
      exact Or.inl ⟨Or.inl ⟨rfl, hrrq⟩, Nat.le_add_left _ _, rfl⟩
    · rw [if_neg hrrq]
      exact Or.inr rfl
  · rw [if_neg hb]
    by_cases hack : ackNumber packet = some b ∧ b < blocks F
    · rw [if_pos hack]
      exact Or.inl ⟨Or.inr ⟨hb, hack.1⟩, hack.2, rfl⟩
    · rw [if_neg hack]
      exact Or.inr rfl

/-- What `tftp_recv` reads in a `pbuf` that carries block `k`. -/
structure Shows (F : List UInt8) (k : Nat) (p : Pbuf) : Prop where
  opcode : be16 (p.payload 0) (p.payload 1) = 3
  number : be16 (p.payload 2) (p.payload 3) = k
  length : p.totLen = 4 + (block F k).length
  body : p.payload.slice 4 (block F k).length = block F k

theorem Pbuf.shows {F : List UInt8} {k : Nat} {p : Pbuf} (hk : k ≤ 65535)
    (h : p.bytes = dataPacket F k) : Shows F k p := by
  have hlen : p.totLen = 4 + (block F k).length := by
    have := congrArg List.length h
    simp only [Pbuf.bytes, Mem.slice_length, dataPacket, numberBytes, List.length_append,
      List.length_cons, List.length_nil] at this
    omega
  have hsplit : p.payload.slice 0 4 ++ p.payload.slice 4 (block F k).length
      = ([0, 3] ++ numberBytes k) ++ block F k := by
    have := Mem.slice_add p.payload 0 4 (block F k).length
    rw [Nat.zero_add] at this
    rw [← this, ← hlen]
    exact h
  obtain ⟨hhead, hbody⟩ := List.append_inj hsplit (by simp [numberBytes])
  have hbytes : p.payload 0 = 0 ∧ p.payload 1 = 3 ∧ p.payload 2 = UInt8.ofNat (k >>> 8) ∧
      p.payload 3 = UInt8.ofNat (k &&& 0xff) := by
    simpa [Mem.slice, numberBytes, List.range_succ] using hhead
  obtain ⟨h0, h1, h2, h3⟩ := hbytes
  refine ⟨?_, ?_, hlen, hbody⟩
  · rw [h0, h1]
    rfl
  · rw [h2, h3, be16_numberBytes hk]

/-! ### What receiving a block changes -/

section Connect

variable (sender : Endpoint) (s : Statics)

@[simp] theorem connect_tftpState : (connect sender s).tftpState
    = if s.tftpState = .rrqSend then .ackSend else s.tftpState := by
  unfold connect
  split <;> rfl

@[simp] theorem connect_tftpResult : (connect sender s).tftpResult = s.tftpResult := by
  unfold connect
  split <;> rfl

@[simp] theorem connect_currentBlock : (connect sender s).currentBlock = s.currentBlock := by
  unfold connect
  split <;> rfl

@[simp] theorem connect_send : (connect sender s).send = s.send := by
  unfold connect
  split <;> rfl

@[simp] theorem connect_lastSize : (connect sender s).lastSize = s.lastSize := by
  unfold connect
  split <;> rfl

@[simp] theorem connect_ptr : (connect sender s).ptr = s.ptr := by
  unfold connect
  split <;> rfl

@[simp] theorem connect_base : (connect sender s).base = s.base := by
  unfold connect
  split <;> rfl

@[simp] theorem connect_imageMaxlen : (connect sender s).imageMaxlen = s.imageMaxlen := by
  unfold connect
  split <;> rfl

@[simp] theorem connect_mem : (connect sender s).mem = s.mem := by
  unfold connect
  split <;> rfl

end Connect

/-- `copyBlock` changes the memory and nothing else. -/
theorem copyBlock_eq (p : Pbuf) (pl : Int) (s : Statics) :
    ∃ m, copyBlock p pl s = { s with mem := m } := by
  unfold copyBlock
  split
  · exact ⟨_, rfl⟩
  · exact ⟨s.mem, rfl⟩

/-- A packet that shows a block goes to `case 3`. -/
theorem tftpRecv_eq {F : List UInt8} {k : Nat} {p : Pbuf} (hp : Shows F k p) (sender : Endpoint)
    (s : Statics) :
    tftpRecv p sender s = { connect sender (recvData p s) with tries := 0 } := by
  unfold tftpRecv dispatch
  rw [if_neg (by rw [hp.length]; omega), hp.opcode]
  rfl

/-- `pl`, when the packet shows a block. -/
theorem Shows.pl {F : List UInt8} {k : Nat} {p : Pbuf} (hp : Shows F k p) :
    (p.totLen - 4 : Int) = ((block F k).length : Int) := by
  rw [hp.length]
  omega

/-- The next block. -/
theorem recvData_next {F : List UInt8} {p : Pbuf} {s : Statics}
    (hp : Shows F (s.currentBlock + 1) p) :
    recvData p s =
      (let s' := { s with
          mem := (copyBlock p ((block F (s.currentBlock + 1)).length : Int) s).mem
          currentBlock := s.currentBlock + 1
          ptr := s.ptr + ((block F (s.currentBlock + 1)).length : Int) }
       if ((block F (s.currentBlock + 1)).length : Int) < s.lastSize then
         { s' with tftpResult := 0, tftpState := .finish }
       else
         { s' with lastSize := ((block F (s.currentBlock + 1)).length : Int), send := true }) := by
  obtain ⟨m, hm⟩ := copyBlock_eq p ((block F (s.currentBlock + 1)).length : Int) s
  unfold recvData
  rw [hp.number, hp.pl]
  dsimp only
  rw [if_pos rfl, hm]

/-- Any other block. -/
theorem recvData_other {F : List UInt8} {k : Nat} {p : Pbuf} {s : Statics} (hp : Shows F k p)
    (hk : k ≠ s.currentBlock + 1) :
    recvData p s = if k = s.currentBlock then s
      else { s with lastSize := ((block F k).length : Int), send := true } := by
  unfold recvData
  rw [hp.number, hp.pl]
  dsimp only
  rw [if_neg hk]

/-! ### What the statics say about the file -/

/-- The client holds the first `current_block` blocks of `F`. -/
structure Holds (F : List UInt8) (target : Nat) (maxlen : Int) (s : Statics) : Prop where
  base : s.base = target
  maxlen : s.imageMaxlen = maxlen
  block_le : s.currentBlock ≤ blocks F
  ptr : s.ptr = (min (512 * s.currentBlock) F.length : Nat)
  stored : s.mem.slice target (min (512 * s.currentBlock) F.length)
    = F.take (512 * s.currentBlock)
  last : s.lastSize ≤ 512
  finish : s.tftpState = .finish → s.currentBlock = blocks F

theorem Holds.ptr_all {F : List UInt8} {target : Nat} {maxlen : Int} {s : Statics}
    (h : Holds F target maxlen s) (hblock : s.currentBlock = blocks F) :
    s.ptr = F.length ∧ s.mem.slice target F.length = F := by
  have hmin : min (512 * s.currentBlock) F.length = F.length := by
    rw [hblock]
    unfold blocks
    omega
  have hstored := h.stored
  rw [hmin, List.take_of_length_le (by omega)] at hstored
  refine ⟨?_, hstored⟩
  rw [h.ptr, hmin]

/-- What the client holds does not depend on the rest of the statics. -/
theorem Holds.congr {F : List UInt8} {target : Nat} {maxlen : Int} {s s' : Statics}
    (h : Holds F target maxlen s) (hbase : s'.base = s.base)
    (hmax : s'.imageMaxlen = s.imageMaxlen) (hblock : s'.currentBlock = s.currentBlock)
    (hptr : s'.ptr = s.ptr) (hmem : s'.mem = s.mem) (hlast : s'.lastSize ≤ 512)
    (hfin : s'.tftpState = .finish → s.tftpState = .finish) : Holds F target maxlen s' where
  base := hbase.trans h.base
  maxlen := hmax.trans h.maxlen
  block_le := hblock ▸ h.block_le
  ptr := by rw [hptr, hblock, h.ptr]
  stored := by rw [hmem, hblock, h.stored]
  last := hlast
  finish hf := by rw [hblock, h.finish (hfin hf)]

/-- Nothing has been stored yet exactly when no block has. -/
theorem Holds.currentBlock_zero {F : List UInt8} {target : Nat} {maxlen : Int} {s : Statics}
    (h : Holds F target maxlen s) (hF : F ≠ []) (hptr : s.ptr = 0) : s.currentBlock = 0 := by
  have hpos := List.length_pos_of_ne_nil hF
  have := h.ptr
  omega

theorem Holds.enter {F : List UInt8} (target : Nat) (maxlen : Int) {s : Statics}
    (hptr : s.ptr = 0) : Holds F target maxlen (enter target maxlen s) where
  base := rfl
  maxlen := rfl
  block_le := Nat.zero_le _
  ptr := by simp [Tftp.enter, hptr]
  stored := by simp [Tftp.enter, Mem.slice]
  last := by simp [Tftp.enter]
  finish h := by simp [Tftp.enter] at h

section Recv

variable {F : List UInt8} {target : Nat} {maxlen : Int} {s : Statics} {p : Pbuf} {k : Nat}

/-- The memory after the next block has been copied. -/
theorem Holds.copied (hF : Servable F maxlen) (h : Holds F target maxlen s) (p : Pbuf)
    (hlt : s.currentBlock < blocks F) :
    (copyBlock p ((block F (s.currentBlock + 1)).length : Int) s).mem
      = s.mem.store (target + 512 * s.currentBlock) (block F (s.currentBlock + 1)).length
          fun i => p.payload (4 + i) := by
  have hfull := full_blocks hlt
  have hlen := length_block hlt
  have hfits := hF.fits
  have hptr : s.ptr = (512 * s.currentBlock : Nat) := by
    rw [h.ptr]
    congr 1
    omega
  have hsize : sizeOfInt ((block F (s.currentBlock + 1)).length : Int)
      = (block F (s.currentBlock + 1)).length := by
    unfold sizeOfInt
    omega
  have haddr : ((s.base : Int) + s.ptr).toNat = target + 512 * s.currentBlock := by
    rw [h.base, hptr]
    omega
  have hroom : s.ptr + ((block F (s.currentBlock + 1)).length : Int) ≤ s.imageMaxlen := by
    rw [h.maxlen, hptr]
    omega
  unfold copyBlock
  rw [if_pos hroom]
  dsimp only
  rw [haddr, hsize]

/-- The next block of the file is stored behind those the client has. -/
theorem Holds.accept (hF : Servable F maxlen) (h : Holds F target maxlen s)
    (hp : Shows F (s.currentBlock + 1) p) (hlt : s.currentBlock < blocks F) {s' : Statics}
    (hmem : s'.mem = (copyBlock p ((block F (s.currentBlock + 1)).length : Int) s).mem)
    (hbase : s'.base = s.base) (hmax : s'.imageMaxlen = s.imageMaxlen)
    (hblock : s'.currentBlock = s.currentBlock + 1)
    (hptr : s'.ptr = s.ptr + ((block F (s.currentBlock + 1)).length : Int))
    (hlast : s'.lastSize ≤ 512)
    (hfin : s'.tftpState = .finish → s.currentBlock + 1 = blocks F) :
    Holds F target maxlen s' := by
  have hfull := full_blocks hlt
  have hlen := length_block hlt
  have hold : min (512 * s.currentBlock) F.length = 512 * s.currentBlock := by omega
  have hsum : 512 * s.currentBlock + (block F (s.currentBlock + 1)).length
      = min (512 * (s.currentBlock + 1)) F.length := by
    omega
  refine ⟨hbase.trans h.base, hmax.trans h.maxlen, by omega, ?_, ?_, hlast, fun hf => ?_⟩
  · rw [hptr, hblock, h.ptr, hold, ← hsum]
    push_cast
    ring
  · rw [hblock, ← hsum, Mem.slice_add, hmem, h.copied hF p hlt,
      Mem.slice_store_before _ _ _ (Nat.le_refl _), Mem.slice_store, ← take_block]
    have hstored := h.stored
    rw [hold] at hstored
    rw [hstored]
    congr 1
    exact hp.body
  · rw [hblock]
    exact hfin hf

/-- A block of the file, received at any time, keeps what the client holds. -/
theorem Holds.recvData (hF : Servable F maxlen) (h : Holds F target maxlen s)
    (hp : Shows F k p) (hkle : k ≤ blocks F) : Holds F target maxlen (recvData p s) := by
  have hshort : (block F k).length ≤ 512 := by
    unfold block
    rw [List.length_take]
    exact Nat.min_le_left _ _
  have hlast := h.last
  by_cases hnext : k = s.currentBlock + 1
  · subst hnext
    rw [recvData_next hp]
    dsimp only
    split
    · rename_i hend
      refine h.accept hF hp (by omega) rfl rfl rfl rfl rfl hlast fun _ => ?_
      exact short_block (by omega) (by omega)
    · refine h.accept hF hp (by omega) rfl rfl rfl rfl rfl (by dsimp only; omega) fun hf => ?_
      -- the client had finished before, and there is no block left
      have := h.finish hf
      omega
  · rw [recvData_other hp hnext]
    split
    · exact h
    · exact h.congr rfl rfl rfl rfl rfl (by dsimp only; omega) fun hf => hf

theorem Holds.tftpRecv (hF : Servable F maxlen) (h : Holds F target maxlen s)
    (hp : Genuine F p) (sender : Endpoint) :
    Holds F target maxlen (tftpRecv p sender s) := by
  obtain ⟨k, -, hkle, hbytes⟩ := hp
  have hshows := Pbuf.shows (Nat.le_trans hkle hF.numbered) hbytes
  have hdata := h.recvData hF hshows hkle
  rw [tftpRecv_eq hshows]
  refine hdata.congr (by simp) (by simp) (by simp) (by simp) (by simp) ?_ fun hf => ?_
  · simpa using hdata.last
  · dsimp only at hf
    rw [connect_tftpState] at hf
    split at hf
    · simp at hf
    · exact hf

theorem Holds.poll (hF : Servable F maxlen) :
    ∀ (arrived : List (Pbuf × Endpoint)) (s : Statics), (∀ d ∈ arrived, Genuine F d.1) →
      Holds F target maxlen s → Holds F target maxlen (poll arrived s) := by
  intro arrived
  induction arrived with
  | nil => intro s _ h; exact h
  | cons d arrived ih =>
      intro s hgen h
      exact ih _ (fun d' hd' => hgen d' (List.mem_cons_of_mem _ hd'))
        (h.tftpRecv hF (hgen d List.mem_cons_self) d.2)

end Recv

/-! ### The loop -/

/-- Whether the next timeout sends the transfer back to its start. -/
def Restarts (s : Statics) : Prop := s.maxtries / 2 ≤ s.tries + 1

instance (s : Statics) : Decidable (Restarts s) := inferInstanceAs (Decidable (_ ≤ _))

section Loop

variable {F : List UInt8} {target : Nat} {maxlen : Int} {s : Statics}

/-- What a timeout does: it sends the transfer back, or it only asks for a resend. -/
theorem timeout_cases (s : Statics) :
    (Restarts s ∧ ∃ result send, (timeout s).1 = { s with
        tftpState := .rrqSend
        currentBlock := 0
        lastSize := 0
        tries := s.tries + 1
        tftpResult := result
        send := send } ∧
      ((timeout s).2 = true → result = -2)) ∨
    (¬ Restarts s ∧ ∃ state, timeout s = ({ s with
        tftpState := state
        tries := s.tries + 1
        send := true }, false) ∧
      (state = s.tftpState ∨ (state = .rrqSend ∧ s.currentBlock = 0))) := by
  unfold timeout
  dsimp only
  by_cases hre : Restarts s
  · refine Or.inl ⟨hre, ?_⟩
    rw [if_pos (show s.maxtries / 2 ≤ s.tries + 1 from hre)]
    split
    · exact ⟨-2, s.send, rfl, fun _ => rfl⟩
    · exact ⟨s.tftpResult, true, rfl, fun h => by simp at h⟩
  · have hre' : ¬ s.maxtries / 2 ≤ s.tries + 1 := hre
    have hab : ¬ s.maxtries ≤ s.tries + 1 := by omega
    refine Or.inr ⟨hre, ?_⟩
    rw [if_neg hre', if_neg hab]
    refine ⟨_, rfl, ?_⟩
    split
    · rename_i hback
      exact Or.inr ⟨rfl, hback.2⟩
    · exact Or.inl rfl

/-- A timeout that restarts nothing that has begun keeps what the client holds. -/
theorem Holds.timeout (h : Holds F target maxlen s)
    (hre : Restarts s → s.currentBlock = 0) : Holds F target maxlen (timeout s).1 := by
  rcases timeout_cases s with ⟨hback, result, send, heq, -⟩ | ⟨-, state, heq, hstate⟩
  · rw [heq]
    exact h.congr rfl rfl (hre hback).symm rfl rfl (by simp) fun hf => by simp at hf
  · rw [heq]
    refine h.congr rfl rfl rfl rfl rfl h.last fun hf => ?_
    rcases hstate with rfl | ⟨rfl, -⟩
    · exact hf
    · simp at hf

/-- Sending changes `send` and nothing else that counts. -/
theorem transmit_fst (file : List UInt8) (server : UInt32) (alloc : Bool) (s : Statics) :
    ∃ b, (transmit file server alloc s).1 = { s with send := b } := by
  unfold transmit
  split
  · exact ⟨s.send, rfl⟩
  split
  · split
    · exact ⟨s.send, rfl⟩
    · exact ⟨false, rfl⟩
  · split
    · exact ⟨s.send, rfl⟩
    · exact ⟨false, rfl⟩
  · rename_i hfin
    exact ⟨s.send, by rw [← hfin]⟩

/-- A turn of the loop keeps what a timeout keeps, if `send` does not count. -/
theorem body_keeps {P : Statics → Prop} (file : List UInt8) (server : UInt32) {late : Bool}
    (alloc : Bool) (h : P s) (htimeout : late = true → P (Tftp.timeout s).1)
    (hsend : ∀ t b, P t → P { t with send := b }) : P (body file server late alloc s).st := by
  have hstart : P (if late then Tftp.timeout s else (s, false)).1 := by
    cases late with
    | false => exact h
    | true => exact htimeout rfl
  unfold body
  generalize (if late then Tftp.timeout s else (s, false)) = t at hstart
  dsimp only
  split
  · exact hstart
  · obtain ⟨b, hb⟩ := transmit_fst file server alloc t.1
    rw [hb]
    exact hsend t.1 b hstart

theorem Holds.body (h : Holds F target maxlen s) (file : List UInt8) (server : UInt32)
    {late : Bool} (alloc : Bool) (hre : late = true → Restarts s → s.currentBlock = 0) :
    Holds F target maxlen (body file server late alloc s).st :=
  body_keeps file server alloc h (fun hlate => h.timeout (hre hlate)) fun _ _ ht =>
    ht.congr rfl rfl rfl rfl rfl ht.last fun hf => hf

/-- The loop is left at a timeout only, with a negative result. -/
theorem body_left {file : List UInt8} {server : UInt32} {late alloc : Bool}
    (h : (body file server late alloc s).left = true) :
    (body file server late alloc s).st.tftpResult < 0 := by
  cases late with
  | false => simp [Tftp.body] at h
  | true =>
      have hleft : (Tftp.timeout s).2 = true := by
        by_contra hno
        simp [Tftp.body, hno] at h
      have hst : (Tftp.body file server true alloc s).st = (Tftp.timeout s).1 := by
        simp [Tftp.body, hleft]
      rw [hst]
      rcases timeout_cases s with ⟨-, result, send, heq, hres⟩ | ⟨-, state, heq, -⟩
      · rw [heq, hres hleft]
        simp
      · rw [heq] at hleft
        simp at hleft

end Loop

/-! ### A small file

One block of 512 bytes and an empty one, for wherever a concrete transfer is wanted.
-/

/-- The statics before anything was done. -/
def Statics.fresh : Statics where
  tftpState := .rrqSend
  tftpResult := 0
  maxtries := 0
  tries := 0
  currentBlock := 0
  send := false
  lastSize := 0
  ptr := 0
  base := 0
  imageMaxlen := 0
  remote := none
  mem := fun _ => 0

/-- A `pbuf` with the given bytes. -/
def Pbuf.of (bytes : List UInt8) : Pbuf where
  payload := fun i => bytes.getD i 0
  len := bytes.length

theorem Pbuf.bytes_of (bytes : List UInt8) : (Pbuf.of bytes).bytes = bytes := by
  simp only [Pbuf.bytes, Pbuf.of, Pbuf.totLen, List.length_nil, Nat.add_zero, Mem.slice,
    Nat.zero_add]
  exact Mem.map_getD bytes 0

/-- A file of one full block and an empty one. -/
def oneBlock : List UInt8 := List.replicate 512 0x58

theorem oneBlock_blocks : blocks oneBlock = 2 := by decide +kernel

theorem oneBlock_servable : Servable oneBlock 0x1000000 := ⟨by decide +kernel, by decide +kernel⟩

end Xell.Tftp
