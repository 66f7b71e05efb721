/-
Client and server within one attempt.

The two ends and everything that was ever sent between them make up a `System`.  A
datagram stays in it once it has been sent, and may be delivered any number of times, in
any order, or never: that is a network that loses, duplicates and reorders.  The attempt
is over when `current_block` is set to 0, so a step in which that happens is no step.

`Agree` is the invariant.  Of the two facts about the network it adds to what the client
holds, each one keeps the other going: no DATA packet is ahead of the server, so the
client never gets past it; and no ACK is ahead of the client, so the server is never more
than one block in front.
-/
import Xell.Proofs.Tftp.Client

namespace Xell.Tftp

/-- The client, the server, and all datagrams sent so far in either direction. -/
structure System where
  client : Statics
  server : Nat
  toClient : List (List UInt8)
  toServer : List Sent

/-- Before the attempt: the loop has just been entered. -/
def System.start (target : Nat) (maxlen : Int) (s : Statics) : System where
  client := enter target maxlen s
  server := 0
  toClient := []
  toServer := []

/-- The file, and the arguments of `do_tftp`. -/
structure Attempt where
  content : List UInt8
  target : Nat
  maxlen : Int
  server : UInt32
  file : List UInt8

/-- One step of the client, the server or the network. -/
inductive Step (a : Attempt) : System → System → Prop
  /-- A turn of the loop up to `network_poll`; a restart would end the attempt. -/
  | turn {σ : System} (late alloc : Bool) (hrun : σ.client.tftpState ≠ .finish)
      (hstay : late = true → ¬ Restarts σ.client) :
      Step a σ { σ with
        client := (body a.file a.server late alloc σ.client).st
        toServer := σ.toServer ++ (body a.file a.server late alloc σ.client).sent }
  /-- `network_poll` hands a datagram to `tftp_recv`. -/
  | receive {σ : System} (p : Pbuf) (sender : Endpoint) (harrived : p.bytes ∈ σ.toClient) :
      Step a σ { σ with client := tftpRecv p sender σ.client }
  /-- A datagram reaches the server. -/
  | serve {σ : System} {d : Sent} (harrived : d ∈ σ.toServer) :
      Step a σ { σ with
        server := (serve a.content d.bytes σ.server).1
        toClient := σ.toClient ++ (serve a.content d.bytes σ.server).2 }
  /-- The server repeats its block. -/
  | retransmit {σ : System} (hstarted : σ.server ≠ 0) :
      Step a σ { σ with toClient := σ.toClient ++ [dataPacket a.content σ.server] }

/-- What an attempt can come to from a client with nothing stored. -/
inductive Reachable (a : Attempt) : System → Prop
  | start {s : Statics} (hptr : s.ptr = 0) : Reachable a (.start a.target a.maxlen s)
  | step {σ σ' : System} (h : Reachable a σ) (hstep : Step a σ σ') : Reachable a σ'

/-! ### The invariant -/

/-- What client, server and network know of each other. -/
structure Agree (a : Attempt) (σ : System) : Prop where
  holds : Holds a.content a.target a.maxlen σ.client
  /-- The server is at the client's block or at the next one. -/
  server : σ.server = σ.client.currentBlock ∨ σ.server = σ.client.currentBlock + 1
  server_le : σ.server ≤ blocks a.content
  data : ∀ d ∈ σ.toClient, ∃ k, 1 ≤ k ∧ k ≤ σ.server ∧ d = dataPacket a.content k
  acks : ∀ d ∈ σ.toServer, ∀ k, ackNumber d.bytes = some k → k ≤ σ.client.currentBlock

theorem ackNumber_rrqPacket (file : List UInt8) : ackNumber (rrqPacket file) = none := by
  unfold rrqPacket ackNumber
  split
  · rename_i h
    simp at h
  · rfl

/-- Whatever the client sends acknowledges no more than it has. -/
theorem transmit_acks {file : List UInt8} {server : UInt32} {alloc : Bool} {s : Statics}
    (hs : s.currentBlock ≤ 65535) {d : Sent} (hd : d ∈ (transmit file server alloc s).2) {k : Nat}
    (hk : ackNumber d.bytes = some k) : k ≤ s.currentBlock := by
  unfold transmit at hd
  split at hd
  · simp at hd
  split at hd
  · split at hd
    · simp at hd
    · obtain rfl := List.mem_singleton.mp hd
      rw [ackNumber_rrqPacket] at hk
      simp at hk
  · split at hd
    · simp at hd
    · obtain rfl := List.mem_singleton.mp hd
      rw [ackNumber_ackPacket hs] at hk
      exact (Option.some.inj hk).ge
  · simp at hd

/-- A turn of the loop that is no restart leaves `current_block` alone. -/
theorem body_currentBlock (file : List UInt8) (server : UInt32) {late : Bool} (alloc : Bool)
    {s : Statics} (hstay : late = true → ¬ Restarts s) :
    (body file server late alloc s).st.currentBlock = s.currentBlock ∧
      ∃ t, t.currentBlock = s.currentBlock ∧
        (body file server late alloc s).sent = (transmit file server alloc t).2 := by
  have hblock : ∀ t : Statics, (transmit file server alloc t).1.currentBlock = t.currentBlock := by
    intro t
    obtain ⟨b, hb⟩ := transmit_fst file server alloc t
    rw [hb]
  cases late with
  | false => exact ⟨hblock s, s, rfl, rfl⟩
  | true =>
      rcases timeout_cases s with ⟨hre, -⟩ | ⟨-, state, heq, -⟩
      · exact absurd hre (hstay rfl)
      · have hbody : body file server true alloc s
            = ⟨(transmit file server alloc (timeout s).1).1,
              (transmit file server alloc (timeout s).1).2, false⟩ := by
          unfold body
          rw [heq]
          rfl
        have hsame : (timeout s).1.currentBlock = s.currentBlock := by rw [heq]
        rw [hbody]
        exact ⟨(hblock _).trans hsame, _, hsame, rfl⟩

/-- A block the client takes in is the next one, and moves it to that block. -/
theorem tftpRecv_currentBlock {F : List UInt8} {k : Nat} {p : Pbuf} (hp : Shows F k p)
    (sender : Endpoint) (s : Statics) :
    (tftpRecv p sender s).currentBlock
      = if k = s.currentBlock + 1 then s.currentBlock + 1 else s.currentBlock := by
  rw [tftpRecv_eq hp]
  dsimp only
  rw [connect_currentBlock]
  by_cases hnext : k = s.currentBlock + 1
  · subst hnext
    rw [recvData_next hp, if_pos rfl]
    dsimp only
    split <;> rfl
  · rw [recvData_other hp hnext, if_neg hnext]
    split <;> rfl

theorem Agree.start (a : Attempt) {s : Statics} (hptr : s.ptr = 0) :
    Agree a (.start a.target a.maxlen s) where
  holds := Holds.enter a.target a.maxlen hptr
  server := Or.inl rfl
  server_le := Nat.zero_le _
  data _ hd := by simp [System.start] at hd
  acks _ hd := by simp [System.start] at hd

/-! A step of each kind. -/

section Steps

variable {a : Attempt} {σ : System}

/-- A turn of the loop acknowledges nothing new. -/
theorem Agree.turn (h : Agree a σ) (hF : Servable a.content a.maxlen) {late : Bool} (alloc : Bool)
    (hstay : late = true → ¬ Restarts σ.client) :
    Agree a { σ with
      client := (body a.file a.server late alloc σ.client).st
      toServer := σ.toServer ++ (body a.file a.server late alloc σ.client).sent } := by
  have hsmall : σ.client.currentBlock ≤ 65535 := Nat.le_trans h.holds.block_le hF.numbered
  obtain ⟨hblock, t, ht, hsent⟩ := body_currentBlock a.file a.server alloc hstay
  have hholds := h.holds.body a.file a.server alloc fun hlate hre => absurd hre (hstay hlate)
  refine ⟨hholds, ?_, h.server_le, h.data, fun d hd k hk => ?_⟩
  · rw [hblock]
    exact h.server
  · rw [hblock]
    rcases List.mem_append.mp hd with hold | hnew
    · exact h.acks d hold k hk
    · rw [hsent] at hnew
      rw [← ht]
      exact transmit_acks (by omega) hnew hk

/-- What arrives is a block the server has sent, and if it is a new one, the server waits for it. -/
theorem Agree.receive (h : Agree a σ) (hF : Servable a.content a.maxlen) {p : Pbuf}
    (sender : Endpoint) (harrived : p.bytes ∈ σ.toClient) :
    Agree a { σ with client := tftpRecv p sender σ.client } := by
  obtain ⟨k, hk, hkle, hbytes⟩ := h.data _ harrived
  have hgen : Genuine a.content p := ⟨k, hk, Nat.le_trans hkle h.server_le, hbytes⟩
  have hshows := Pbuf.shows (Nat.le_trans (Nat.le_trans hkle h.server_le) hF.numbered) hbytes
  have hmove := tftpRecv_currentBlock hshows sender σ.client
  have hserver := h.server
  have hforward : σ.client.currentBlock ≤ (tftpRecv p sender σ.client).currentBlock ∧
      (σ.server = (tftpRecv p sender σ.client).currentBlock ∨
        σ.server = (tftpRecv p sender σ.client).currentBlock + 1) := by
    by_cases hnext : k = σ.client.currentBlock + 1
    · rw [hmove, if_pos hnext]
      omega
    · rw [hmove, if_neg hnext]
      exact ⟨Nat.le_refl _, hserver⟩
  refine ⟨h.holds.tftpRecv hF hgen sender, hforward.2, h.server_le, h.data, fun d hd j hj => ?_⟩
  exact Nat.le_trans (h.acks d hd j hj) hforward.1

/-- The server sends its block or a later one, next to the client's. -/
theorem Agree.sends (h : Agree a σ) {k : Nat} (hpos : 1 ≤ k) (hlater : σ.server ≤ k)
    (hle : k ≤ blocks a.content)
    (hnear : k = σ.client.currentBlock ∨ k = σ.client.currentBlock + 1) :
    Agree a { σ with server := k, toClient := σ.toClient ++ [dataPacket a.content k] } := by
  refine ⟨h.holds, hnear, hle, fun d hd => ?_, h.acks⟩
  rcases List.mem_append.mp hd with hold | hnew
  · obtain ⟨l, hl, hlle, heq⟩ := h.data d hold
    exact ⟨l, hl, Nat.le_trans hlle hlater, heq⟩
  · exact ⟨k, hpos, Nat.le_refl _, List.mem_singleton.mp hnew⟩

theorem Agree.serve (h : Agree a σ) {d : Sent} (harrived : d ∈ σ.toServer) :
    Agree a { σ with
      server := (serve a.content d.bytes σ.server).1
      toClient := σ.toClient ++ (serve a.content d.bytes σ.server).2 } := by
  have hserver := h.server
  rcases serve_cases a.content d.bytes σ.server with ⟨hasked, hle, heq⟩ | heq
  · rw [heq]
    refine h.sends (Nat.le_add_left _ _) (Nat.le_succ _) hle ?_
    rcases hasked with ⟨hzero, -⟩ | ⟨-, hack⟩
    · omega
    · have hacked := h.acks d harrived _ hack
      omega
  · rw [heq]
    exact ⟨h.holds, h.server, h.server_le, by simpa using h.data, h.acks⟩

end Steps

/-- **Every step keeps client and server in agreement.** -/
theorem Agree.step {a : Attempt} (hF : Servable a.content a.maxlen) {σ σ' : System}
    (h : Agree a σ) (hstep : Step a σ σ') : Agree a σ' := by
  cases hstep with
  | turn late alloc _ hstay => exact h.turn hF alloc hstay
  | receive p sender harrived => exact h.receive hF sender harrived
  | serve harrived => exact h.serve harrived
  | retransmit hstarted =>
      exact h.sends (Nat.pos_of_ne_zero hstarted) (Nat.le_refl _) h.server_le h.server

theorem Reachable.agree {a : Attempt} (hF : Servable a.content a.maxlen) {σ : System}
    (h : Reachable a σ) : Agree a σ := by
  induction h with
  | start hptr => exact Agree.start a hptr
  | step _ hstep ih => exact ih.step hF hstep

/--
**Client and server agree** in every state an attempt can come to: what is stored is a prefix
of the file, as long as `current_block` says; the server is at the client's block or the next;
no ACK in flight is ahead of the client; and the client finishes with result 0 only when it
has taken in the last block and with it the whole file.
-/
theorem attempt_agreement {a : Attempt} (hF : Servable a.content a.maxlen) {σ : System}
    (h : Reachable a σ) :
    σ.client.mem.slice a.target σ.client.ptr.toNat = a.content.take σ.client.ptr.toNat ∧
      σ.client.ptr = (min (512 * σ.client.currentBlock) a.content.length : Nat) ∧
      (σ.server = σ.client.currentBlock ∨ σ.server = σ.client.currentBlock + 1) ∧
      (∀ d ∈ σ.toServer, ∀ k, ackNumber d.bytes = some k → k ≤ σ.client.currentBlock) ∧
      (σ.client.tftpState = .finish → σ.client.tftpResult = 0 →
        σ.client.ptr = a.content.length ∧ σ.client.currentBlock = blocks a.content) := by
  have hagree := h.agree hF
  have hptr := hagree.holds.ptr
  refine ⟨?_, hptr, hagree.server, hagree.acks, fun hfin _ => ?_⟩
  · rw [hptr, Int.toNat_natCast, hagree.holds.stored]
    rcases Nat.le_total (512 * σ.client.currentBlock) a.content.length with hle | hle
    · rw [Nat.min_eq_left hle]
    · rw [Nat.min_eq_right hle, List.take_of_length_le hle, List.take_length]
  · have hall := hagree.holds.finish hfin
    exact ⟨(hagree.holds.ptr_all hall).1, hall⟩

/-- An attempt to fetch the small file. -/
def smallAttempt : Attempt where
  content := oneBlock
  target := 0
  maxlen := 0x1000000
  server := 0
  file := []

/-- The attempt reaches its end, with the whole file. -/
theorem smallAttempt_agreement :
    ∃ σ, Reachable smallAttempt σ ∧ σ.client.tftpState = .finish ∧ σ.client.tftpResult = 0 ∧
      σ.client.ptr = 512 ∧ σ.client.mem.slice 0 512 = oneBlock := by
  have hstart : Reachable smallAttempt _ := .start (s := Statics.fresh) rfl
  -- the request, block 1, its acknowledgement, block 2
  have hrrq := hstart.step (.turn false true (by decide) (by simp))
  have hone := hrrq.step (.serve (d := ⟨some ⟨0, 69⟩, rrqPacket []⟩) (by decide))
  have hrecv := hone.step (.receive (.of (dataPacket oneBlock 1)) ⟨0, 1000⟩
    (by rw [Pbuf.bytes_of]; exact List.mem_singleton.mpr rfl))
  have hack := hrecv.step (.turn false true (by decide +kernel) (by simp))
  have htwo := hack.step (.serve (d := ⟨some ⟨0, 1000⟩, ackPacket 1⟩) (by decide +kernel))
  have hlast := htwo.step (.receive (.of (dataPacket oneBlock 2)) ⟨0, 1000⟩
    (by rw [Pbuf.bytes_of]; decide +kernel))
  obtain ⟨hmem, -, -, -, hfin⟩ := attempt_agreement oneBlock_servable hlast
  have hlen : (smallAttempt.content.length : Int) = 512 := by decide +kernel
  have hptr := (hfin (by decide +kernel) (by decide +kernel)).1
  rw [hlen] at hptr
  refine ⟨_, hlast, by decide +kernel, by decide +kernel, hptr, ?_⟩
  have hall : smallAttempt.content.take 512 = oneBlock := List.take_of_length_le (by decide +kernel)
  rw [hptr, show (512 : Int).toNat = 512 from rfl, hall] at hmem
  exact hmem

end Xell.Tftp
