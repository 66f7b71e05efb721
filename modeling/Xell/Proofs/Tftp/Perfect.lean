/-
A transfer on a perfect network.

Nothing is lost and nothing comes late, so client and server take turns, and there is at
most one datagram under way.  `Phase` says where such a transfer stands: the client has
`b` blocks, and either it has something to send or block `b + 1` is on its way.

The last block ends the transfer if it is shorter than the one before.  That is the case
for every file of at least 512 bytes: the one before was full.  A shorter file has no
block before the last; `last_size` is still 0 when it arrives, no length is below that,
and the client goes on waiting for a block the server does not have.
-/
import Xell.Lib.LeadsTo
import Xell.Proofs.Tftp.Client

namespace Xell.Tftp

/-! ### Perfect networks -/

/-- The server's reaction to several packets, one after the other. -/
def serveAll (F : List UInt8) : List Sent → Nat → Nat × List (List UInt8)
  | [], b => (b, [])
  | d :: ds, b =>
      let r := serve F d.bytes b
      let r' := serveAll F ds r.1
      (r'.1, r.2 ++ r'.2)

/-- The statics after `k` turns of the loop. -/
def turns (file : List UInt8) (server : UInt32) (its : Nat → Iteration) (s : Statics) :
    Nat → Statics
  | 0 => s
  | k + 1 =>
      let s' := turns file server its s k
      poll (its k).arrived (body file server (its k).late (its k).alloc s').st

/--
A network that delivers every datagram once, in order and in time.  `server k` is the block
the server is at before turn `k`, `flight k` what is on its way to the client then.
-/
structure Perfect (F file : List UInt8) (addr : UInt32) (its : Nat → Iteration) (s : Statics)
    (server : Nat → Nat) (flight : Nat → List (List UInt8)) : Prop where
  server_start : server 0 = 0
  flight_start : flight 0 = []
  inTime : ∀ k, (its k).late = false
  /-- What the client sends is answered at once. -/
  served : ∀ k, server (k + 1) = (serveAll F
    (body file addr (its k).late (its k).alloc (turns file addr its s k)).sent (server k)).1
  /-- The oldest datagrams under way arrive, the others stay under way. -/
  ordered : ∀ k, flight k ++ (serveAll F
      (body file addr (its k).late (its k).alloc (turns file addr its s k)).sent (server k)).2
    = (its k).arrived.map (fun d => d.1.bytes) ++ flight (k + 1)
  /-- Nothing stays under way forever, and memory is found in the end. -/
  arrives : ∀ n, ∃ k, n ≤ k ∧ flight (k + 1) = []
  allocates : ∀ n, ∃ k, n ≤ k ∧ (its k).alloc = true

/-- `do_tftp` returns the length of the file with the file in memory, in the turn in which the
server's last block arrives. -/
def Completes (F : List UInt8) (target : Nat) (maxlen : Int) (addr : UInt32) (file : List UInt8)
    (its : Nat → Iteration) (s : Statics) : Prop :=
  ∃ K st, (its K).arrived.map (fun d => d.1.bytes) = [dataPacket F (blocks F)] ∧
    (turns file addr its (enter target maxlen s) K).tftpState ≠ .finish ∧
    doTftp target maxlen addr file true ((List.range (K + 1)).map its) s
      = some ((F.length : Int), st) ∧
    st.tftpState = .finish ∧ st.tftpResult = 0 ∧ st.mem.slice target F.length = F

/-! ### The loop and its turns -/

theorem body_inTime (file : List UInt8) (addr : UInt32) (alloc : Bool) (s : Statics) :
    body file addr false alloc s
      = ⟨(transmit file addr alloc s).1, (transmit file addr alloc s).2, false⟩ := rfl

theorem transmit_noMemory (file : List UInt8) (addr : UInt32) {s : Statics}
    (hrun : s.tftpState ≠ .finish) : transmit file addr false s = (s, []) := by
  unfold transmit
  split
  · rfl
  · split
    · rfl
    · rfl
    · rename_i hfin
      exact absurd hfin hrun

/-- As long as no turn finishes, the loop is its turns. -/
theorem doTftpLoop_turns {file : List UInt8} {addr : UInt32} {its : Nat → Iteration}
    {s : Statics} (hlate : ∀ k, (its k).late = false) :
    ∀ (n i : Nat), (∀ j, i ≤ j → j < i + n → (turns file addr its s j).tftpState ≠ .finish) →
      (doTftpLoop file addr ((List.range' i n).map its) (turns file addr its s i)).2
        = if (turns file addr its s (i + n)).tftpState = .finish then
            some (turns file addr its s (i + n))
          else none := by
  intro n
  induction n with
  | zero => intro i _; rfl
  | succ n ih =>
      intro i hrun
      have hbody := body_inTime file addr (its i).alloc (turns file addr its s i)
      rw [List.range'_succ, List.map_cons, doTftpLoop,
        if_neg (hrun i (Nat.le_refl _) (by omega))]
      dsimp only
      rw [hlate i, hbody]
      dsimp only
      rw [if_neg (by simp)]
      have hnext : turns file addr its s (i + 1)
          = poll (its i).arrived (transmit file addr (its i).alloc (turns file addr its s i)).1 := by
        rw [turns, hlate i, hbody]
      rw [← hnext, ih (i + 1) fun j hj hj' => hrun j (by omega) (by omega)]
      rw [show i + 1 + n = i + (n + 1) by omega]

/-! ### One turn -/

section Turn

variable {F : List UInt8} {target : Nat} {maxlen : Int}

/-- The client side of a transfer that has come to block `b`. -/
structure At (F : List UInt8) (target : Nat) (maxlen : Int) (b : Nat) (c : Statics) : Prop where
  lt : b < blocks F
  holds : Holds F target maxlen c
  current : c.currentBlock = b
  state : c.tftpState = if b = 0 then .rrqSend else .ackSend
  last : c.lastSize = if b = 0 then 0 else 512

/-- Where a transfer stands between two turns. -/
structure Phase (F : List UInt8) (target : Nat) (maxlen : Int) (b : Nat) (pending : Bool)
    (c : Statics) (server : Nat) (flight : List (List UInt8)) : Prop
    extends At F target maxlen b c where
  send : c.send = pending
  server : server = if pending then b else b + 1
  flight : flight = if pending then [] else [dataPacket F (b + 1)]

/-- The client has taken in the last block. -/
structure Finished (F : List UInt8) (target : Nat) (maxlen : Int) (c : Statics) : Prop where
  holds : Holds F target maxlen c
  state : c.tftpState = .finish
  result : c.tftpResult = 0

theorem At.congr {b : Nat} {c : Statics} (h : At F target maxlen b c) (send : Bool) :
    At F target maxlen b { c with send := send } :=
  ⟨h.lt, h.holds.congr rfl rfl rfl rfl rfl h.holds.last fun hf => hf, h.current, h.state, h.last⟩

theorem At.running {b : Nat} {c : Statics} (h : At F target maxlen b c) :
    c.tftpState ≠ .finish := by
  rw [h.state]
  split <;> simp

/-- The next block arrives. -/
theorem At.recv (hF : Servable F maxlen) (hlong : 512 ≤ F.length) {b : Nat} {c : Statics}
    (h : At F target maxlen b c) {p : Pbuf} (hp : p.bytes = dataPacket F (b + 1))
    (sender : Endpoint) :
    (At F target maxlen (b + 1) (tftpRecv p sender c) ∧ (tftpRecv p sender c).send = true) ∨
      (b + 1 = blocks F ∧ Finished F target maxlen (tftpRecv p sender c)) := by
  obtain ⟨hlt, hholds, rfl, hstate, hlast⟩ := h
  have hshows := Pbuf.shows (Nat.le_trans hlt hF.numbered) hp
  have hholds' := hholds.tftpRecv hF ⟨_, Nat.le_add_left _ _, hlt, hp⟩ sender
  have hlen := length_block hlt
  have hrecv := tftpRecv_eq hshows sender c
  rw [recvData_next hshows] at hrecv
  by_cases hend : ((block F (c.currentBlock + 1)).length : Int) < c.lastSize
  · -- `last_size` is 512, so the block is short
    rw [if_pos hend] at hrecv
    have hlast' := hholds.last
    refine Or.inr ⟨short_block hlt (by omega), hholds', ?_, ?_⟩
    · rw [hrecv]
      simp
    · rw [hrecv]
      simp
  · rw [if_neg hend] at hrecv
    have hfull : (block F (c.currentBlock + 1)).length = 512 := by
      by_cases hb : c.currentBlock = 0
      · rw [hlen, hb]
        omega
      · rw [hlast, if_neg hb] at hend
        omega
    have hmore : c.currentBlock + 1 < blocks F := by
      rw [hlen] at hfull
      unfold blocks at hlt ⊢
      omega
    refine Or.inl ⟨⟨hmore, hholds', ?_, ?_, ?_⟩, ?_⟩
    · rw [hrecv]
      simp
    · rw [hrecv, if_neg (Nat.succ_ne_zero _)]
      dsimp only
      rw [connect_tftpState]
      dsimp only
      rw [hstate]
      by_cases hb : c.currentBlock = 0 <;> simp [hb]
    · rw [hrecv, if_neg (Nat.succ_ne_zero _)]
      simp [hfull]
    · rw [hrecv]
      simp

/-- What the client sends when it has something to send, and the answer. -/
theorem Phase.sends (file : List UInt8) (addr : UInt32) (hF : Servable F maxlen) {b : Nat}
    {c : Statics} {server : Nat}
    {flight : List (List UInt8)} (h : Phase F target maxlen b true c server flight) :
    (transmit file addr true c).1 = { c with send := false } ∧
      serveAll F (transmit file addr true c).2 server = (b + 1, [dataPacket F (b + 1)]) := by
  have hlt := h.lt
  have hsmall := hF.numbered
  have hserver : server = b := h.server
  unfold transmit
  rw [if_neg (by simp [h.send]), h.state]
  by_cases hb : b = 0
  · rw [if_pos hb]
    dsimp only
    rw [if_neg (by simp)]
    refine ⟨rfl, ?_⟩
    subst hb
    rw [hserver]
    rfl
  · rw [if_neg hb]
    dsimp only
    rw [if_neg (by simp)]
    refine ⟨rfl, ?_⟩
    have hack := ackNumber_ackPacket (k := b) (by omega)
    rw [hserver]
    show (let r := serve F (ackPacket c.currentBlock) b; (r.1, r.2 ++ [])) = _
    unfold serve
    rw [h.current, if_neg hb, if_pos ⟨hack, hlt⟩]
    rfl

/-- The next block is there, or it is still on its way. -/
theorem Phase.step (hF : Servable F maxlen) (hlong : 512 ≤ F.length) {b : Nat} {c : Statics}
    (h : At F target maxlen b c) (hsend : c.send = false) {arrived : List (Pbuf × Endpoint)}
    {flight : List (List UInt8)}
    (hfl : [dataPacket F (b + 1)] = arrived.map (fun d => d.1.bytes) ++ flight) :
    Phase F target maxlen b false (poll arrived c) (b + 1) flight ∨
      (arrived.map (fun d => d.1.bytes) = [dataPacket F (b + 1)] ∧
        (Phase F target maxlen (b + 1) true (poll arrived c) (b + 1) flight ∨
          (b + 1 = blocks F ∧ Finished F target maxlen (poll arrived c)))) := by
  cases arrived with
  | nil => exact Or.inl ⟨h, hsend, rfl, hfl.symm⟩
  | cons d arrived =>
      rw [List.map_cons, List.cons_append, List.cons.injEq] at hfl
      obtain ⟨hd, hrest⟩ := hfl
      obtain ⟨hnil, hflight⟩ := List.append_eq_nil_iff.mp hrest.symm
      obtain rfl := List.map_eq_nil_iff.mp hnil
      refine Or.inr ⟨by rw [List.map_cons, List.map_nil, ← hd], ?_⟩
      show Phase F target maxlen (b + 1) true (tftpRecv d.1 d.2 c) (b + 1) flight ∨ _
      rcases h.recv hF hlong hd.symm d.2 with ⟨hat, hsend'⟩ | hfin
      · exact Or.inl ⟨hat, hsend', rfl, hflight⟩
      · exact Or.inr hfin

end Turn

/-! ### Whole transfers -/

theorem serve_genuine {F : List UInt8} {packet : List UInt8} {b : Nat} {d : List UInt8}
    (h : d ∈ (serve F packet b).2) : ∃ k, 1 ≤ k ∧ k ≤ blocks F ∧ d = dataPacket F k := by
  rcases serve_cases F packet b with ⟨-, hle, heq⟩ | heq
  · rw [heq] at h
    exact ⟨b + 1, Nat.le_add_left _ _, hle, List.mem_singleton.mp h⟩
  · rw [heq] at h
    simp at h

theorem serveAll_genuine {F : List UInt8} :
    ∀ {sent : List Sent} {b : Nat} {d : List UInt8}, d ∈ (serveAll F sent b).2 →
      ∃ k, 1 ≤ k ∧ k ≤ blocks F ∧ d = dataPacket F k := by
  intro sent
  induction sent with
  | nil => intro b d h; simp [serveAll] at h
  | cons x sent ih =>
      intro b d h
      rcases List.mem_append.mp h with hx | hrest
      · exact serve_genuine hx
      · exact ih hrest

section Run

variable {F file : List UInt8} {addr : UInt32} {its : Nat → Iteration} {s : Statics}
  {server : Nat → Nat} {flight : Nat → List (List UInt8)}

/-- All that is ever under way is blocks of the file. -/
theorem Perfect.flight_genuine (h : Perfect F file addr its s server flight) :
    ∀ k, ∀ d ∈ flight k, ∃ j, 1 ≤ j ∧ j ≤ blocks F ∧ d = dataPacket F j := by
  intro k
  induction k with
  | zero =>
      intro d hd
      rw [h.flight_start] at hd
      simp at hd
  | succ k ih =>
      intro d hd
      have hin : d ∈ flight k ++ (serveAll F (body file addr (its k).late (its k).alloc
          (turns file addr its s k)).sent (server k)).2 := by
        rw [h.ordered k]
        exact List.mem_append_right _ hd
      rcases List.mem_append.mp hin with hold | hnew
      · exact ih d hold
      · exact serveAll_genuine hnew

theorem Perfect.arrived_genuine (h : Perfect F file addr its s server flight) (k : Nat)
    {d : Pbuf × Endpoint} (hd : d ∈ (its k).arrived) : Genuine F d.1 := by
  have hin : d.1.bytes ∈ flight k ++ (serveAll F (body file addr (its k).late (its k).alloc
      (turns file addr its s k)).sent (server k)).2 := by
    rw [h.ordered k]
    exact List.mem_append_left _ (List.mem_map.mpr ⟨d, hd, rfl⟩)
  rcases List.mem_append.mp hin with hold | hnew
  · exact h.flight_genuine k _ hold
  · exact serveAll_genuine hnew

/-! ### A file shorter than a block -/

/-- The client of a file without a full block: nothing is shorter than what it has seen. -/
def Waits (F : List UInt8) (c : Statics) : Prop :=
  c.tftpState ≠ .finish ∧ c.lastSize ≤ F.length

theorem Waits.tftpRecv (hshort : F.length < 512) {c : Statics} (h : Waits F c) {p : Pbuf}
    (hp : Genuine F p) (sender : Endpoint) : Waits F (tftpRecv p sender c) := by
  obtain ⟨k, hk, hkle, hbytes⟩ := hp
  have hone : blocks F = 1 := by
    unfold blocks
    omega
  obtain rfl : k = 1 := by omega
  have hshows := Pbuf.shows (by decide) hbytes
  have hlen : (block F 1).length = F.length := by
    unfold block
    simp
    omega
  obtain ⟨hrun, hlast⟩ := h
  have hdata : Waits F (recvData p c) := by
    by_cases hnext : 1 = c.currentBlock + 1
    · have hshows' := hshows
      rw [hnext] at hshows'
      rw [recvData_next hshows', ← hnext, hlen]
      dsimp only
      rw [if_neg (by omega)]
      exact ⟨hrun, Int.le_refl _⟩
    · rw [recvData_other hshows hnext, hlen]
      split
      · exact ⟨hrun, hlast⟩
      · exact ⟨hrun, Int.le_refl _⟩
  rw [tftpRecv_eq hshows]
  refine ⟨?_, ?_⟩
  · dsimp only
    rw [connect_tftpState]
    split
    · simp
    · exact hdata.1
  · simpa using hdata.2

theorem Waits.poll (hshort : F.length < 512) :
    ∀ {arrived : List (Pbuf × Endpoint)} {c : Statics}, (∀ d ∈ arrived, Genuine F d.1) →
      Waits F c → Waits F (poll arrived c) := by
  intro arrived
  induction arrived with
  | nil => intro c _ h; exact h
  | cons d arrived ih =>
      intro c hgen h
      exact ih (fun d' hd' => hgen d' (List.mem_cons_of_mem _ hd'))
        (h.tftpRecv hshort (hgen d List.mem_cons_self) d.2)

theorem Perfect.waits (h : Perfect F file addr its s server flight) (hshort : F.length < 512)
    (hs : Waits F s) : ∀ k, Waits F (turns file addr its s k) := by
  intro k
  induction k with
  | zero => exact hs
  | succ k ih =>
      rw [turns, h.inTime k]
      refine Waits.poll hshort (fun d hd => h.arrived_genuine k hd) ?_
      rw [body_inTime]
      obtain ⟨b, hb⟩ := transmit_fst file addr (its k).alloc (turns file addr its s k)
      dsimp only
      rw [hb]
      exact ih

/-! ### A file with a full block -/

variable {target : Nat} {maxlen : Int}

/-- Where the transfer stands before turn `k`. -/
def PhaseAt (F file : List UInt8) (addr : UInt32) (its : Nat → Iteration) (s : Statics)
    (server : Nat → Nat) (flight : Nat → List (List UInt8)) (target : Nat) (maxlen : Int)
    (b : Nat) (pending : Bool) (k : Nat) : Prop :=
  Phase F target maxlen b pending (turns file addr its s k) (server k) (flight k)

/-- One turn: the transfer stays where it is, or the next block has arrived. -/
theorem Perfect.turn (h : Perfect F file addr its s server flight) (hF : Servable F maxlen)
    (hlong : 512 ≤ F.length) {b : Nat} {pending : Bool} {k : Nat}
    (hk : PhaseAt F file addr its s server flight target maxlen b pending k) :
    (∃ pending', PhaseAt F file addr its s server flight target maxlen b pending' (k + 1) ∧
        (pending' = true → pending = true ∧ (its k).alloc = false)) ∨
      ((its k).arrived.map (fun d => d.1.bytes) = [dataPacket F (b + 1)] ∧
        (PhaseAt F file addr its s server flight target maxlen (b + 1) true (k + 1) ∨
          (b + 1 = blocks F ∧ Finished F target maxlen (turns file addr its s (k + 1))))) := by
  have hserved := h.served k
  have hordered := h.ordered k
  rw [h.inTime k, body_inTime] at hserved hordered
  have hnext : turns file addr its s (k + 1)
      = poll (its k).arrived (transmit file addr (its k).alloc (turns file addr its s k)).1 := by
    rw [turns, h.inTime k, body_inTime]
  dsimp only at hserved hordered
  unfold PhaseAt at hk ⊢
  rw [hnext]
  have hflight := hk.flight
  have hsrv := hk.server
  cases pending with
  | true =>
      cases halloc : (its k).alloc with
      | false =>
          -- no memory: nothing is sent, nothing is under way
          have hidle := transmit_noMemory file addr hk.running
          rw [halloc, hidle] at hserved hordered
          rw [hidle]
          rw [hflight] at hordered
          obtain ⟨harr, hfl⟩ := List.append_eq_nil_iff.mp hordered.symm
          rw [List.map_eq_nil_iff.mp harr]
          refine Or.inl ⟨true, ⟨hk.toAt, hk.send, ?_, hfl⟩, fun _ => ⟨rfl, rfl⟩⟩
          rw [hserved]
          exact hsrv
      | true =>
          obtain ⟨hst, hans⟩ := hk.sends file addr hF
          rw [halloc, hans] at hserved hordered
          rw [hst]
          rw [hflight] at hordered
          rw [hserved]
          rcases Phase.step hF hlong (hk.toAt.congr false) rfl hordered with hwait | hgone
          · exact Or.inl ⟨false, hwait, fun hf => by simp at hf⟩
          · exact Or.inr hgone
  | false =>
      have hidle : transmit file addr (its k).alloc (turns file addr its s k)
          = (turns file addr its s k, []) := by
        unfold transmit
        rw [if_pos hk.send]
      rw [hidle] at hserved hordered
      rw [hidle]
      rw [hflight] at hordered
      simp only [serveAll, Bool.false_eq_true, if_false, List.append_nil] at hserved hordered
      rw [hserved, hsrv]
      rcases Phase.step hF hlong hk.toAt hk.send hordered with hwait | hgone
      · exact Or.inl ⟨false, hwait, fun hf => by simp at hf⟩
      · exact Or.inr hgone

/-- The stages of a transfer: so many blocks and something to send, or the whole file. -/
def Stage (F file : List UInt8) (addr : UInt32) (its : Nat → Iteration) (s : Statics)
    (server : Nat → Nat) (flight : Nat → List (List UInt8)) (target : Nat) (maxlen : Int)
    (b k : Nat) : Prop :=
  if b = blocks F then Finished F target maxlen (turns file addr its s k)
  else PhaseAt F file addr its s server flight target maxlen b true k

/-- **Every block arrives.**  First the client sends, then the answer comes. -/
theorem Perfect.stage (h : Perfect F file addr its s server flight) (hF : Servable F maxlen)
    (hlong : 512 ≤ F.length) {b : Nat} (hb : b < blocks F) :
    LeadsTo (Stage F file addr its s server flight target maxlen b)
      (Stage F file addr its s server flight target maxlen (b + 1)) := by
  -- what the turn lemma calls the next block is the next stage
  have hnext : ∀ k, (PhaseAt F file addr its s server flight target maxlen (b + 1) true (k + 1) ∨
      (b + 1 = blocks F ∧ Finished F target maxlen (turns file addr its s (k + 1)))) →
      Stage F file addr its s server flight target maxlen (b + 1) (k + 1) := by
    rintro k (hphase | ⟨hlast, hfin⟩)
    · rw [Stage, if_neg (by have := hphase.lt; omega)]
      exact hphase
    · rw [Stage, if_pos hlast]
      exact hfin
  have hcomes : LeadsTo (PhaseAt F file addr its s server flight target maxlen b false)
      (Stage F file addr its s server flight target maxlen (b + 1)) := by
    refine LeadsTo.of_fair (fun k hk => ?_) fun n => ?_
    · rcases h.turn hF hlong hk with ⟨pending, hphase, hpend⟩ | ⟨-, hgone⟩
      · cases pending with
        | false => exact Or.inl hphase
        | true => simp at hpend
      · exact Or.inr (hnext k hgone)
    · obtain ⟨k, hk, hempty⟩ := h.arrives n
      refine ⟨k, hk, fun hphase => ?_⟩
      rcases h.turn hF hlong hphase with ⟨pending, hphase', hpend⟩ | ⟨-, hgone⟩
      · cases pending with
        | false =>
            have hfl := hphase'.flight
            rw [hempty] at hfl
            simp at hfl
        | true => simp at hpend
      · exact hnext k hgone
  have hsends : LeadsTo (PhaseAt F file addr its s server flight target maxlen b true)
      (fun k => PhaseAt F file addr its s server flight target maxlen b false k ∨
        Stage F file addr its s server flight target maxlen (b + 1) k) := by
    refine LeadsTo.of_fair (fun k hk => ?_) fun n => ?_
    · rcases h.turn hF hlong hk with ⟨pending, hphase, -⟩ | ⟨-, hgone⟩
      · cases pending with
        | false => exact Or.inr (Or.inl hphase)
        | true => exact Or.inl hphase
      · exact Or.inr (Or.inr (hnext k hgone))
    · obtain ⟨k, hk, halloc⟩ := h.allocates n
      refine ⟨k, hk, fun hphase => ?_⟩
      rcases h.turn hF hlong hphase with ⟨pending, hphase', hpend⟩ | ⟨-, hgone⟩
      · cases pending with
        | false => exact Or.inl hphase'
        | true =>
            rw [halloc] at hpend
            simp at hpend
      · exact Or.inr (hnext k hgone)
  have hstart : Stage F file addr its s server flight target maxlen b
      = PhaseAt F file addr its s server flight target maxlen b true := by
    funext k
    rw [Stage, if_neg (Nat.ne_of_lt hb)]
  rw [hstart]
  exact hsends.trans (hcomes.or_left fun k hk => ⟨k, Nat.le_refl _, hk⟩)

/-- Until it finishes, a transfer is in some phase. -/
theorem Perfect.phase (h : Perfect F file addr its s server flight) (hF : Servable F maxlen)
    (hlong : 512 ≤ F.length)
    (h0 : PhaseAt F file addr its s server flight target maxlen 0 true 0) :
    ∀ k, (∀ j ≤ k, (turns file addr its s j).tftpState ≠ .finish) →
      ∃ b pending, PhaseAt F file addr its s server flight target maxlen b pending k := by
  intro k
  induction k with
  | zero => intro _; exact ⟨0, true, h0⟩
  | succ k ih =>
      intro hrun
      obtain ⟨b, pending, hk⟩ := ih fun j hj => hrun j (by omega)
      rcases h.turn hF hlong hk with ⟨pending', hphase, -⟩ | ⟨-, hphase | ⟨-, hfin⟩⟩
      · exact ⟨b, pending', hphase⟩
      · exact ⟨b + 1, true, hphase⟩
      · exact absurd hfin.state (hrun (k + 1) (Nat.le_refl _))

end Run

/-! ### Which files complete -/

section Complete

variable {F file : List UInt8} {addr : UInt32} {its : Nat → Iteration} {s : Statics}
  {server : Nat → Nat} {flight : Nat → List (List UInt8)} {target : Nat} {maxlen : Int}

theorem Perfect.completes
    (h : Perfect F file addr its (enter target maxlen s) server flight) (hptr : s.ptr = 0)
    (hF : Servable F maxlen) (hlong : 512 ≤ F.length) :
    Completes F target maxlen addr file its s := by
  classical
  have h0 : PhaseAt F file addr its (enter target maxlen s) server flight target maxlen 0 true 0 :=
    ⟨⟨Nat.succ_pos _, Holds.enter target maxlen hptr, rfl, rfl, rfl⟩, rfl, h.server_start,
      h.flight_start⟩
  have hstage0 : Stage F file addr its (enter target maxlen s) server flight target maxlen 0 0 := by
    have hsome : 0 ≠ blocks F := (Nat.succ_ne_zero _).symm
    rw [Stage, if_neg hsome]
    exact h0
  obtain ⟨k, -, hk⟩ := LeadsTo.chain
    (P := Stage F file addr its (enter target maxlen s) server flight target maxlen)
    (fun b hb => h.stage hF hlong hb) 0 hstage0
  rw [Stage, if_pos rfl] at hk
  -- the first turn after which the client has finished
  have hex : ∃ k, (turns file addr its (enter target maxlen s) k).tftpState = .finish :=
    ⟨k, hk.state⟩
  have hfirst : ∀ j < Nat.find hex,
      (turns file addr its (enter target maxlen s) j).tftpState ≠ .finish :=
    fun j hj => Nat.find_min hex hj
  have hat := Nat.find_spec hex
  generalize Nat.find hex = N at hfirst hat
  obtain ⟨K, rfl⟩ : ∃ K, N = K + 1 := by
    refine Nat.exists_eq_succ_of_ne_zero fun hz => ?_
    rw [hz] at hat
    exact h0.running hat
  obtain ⟨b, pending, hphase⟩ := h.phase hF hlong h0 K fun j hj => hfirst j (by omega)
  have hloop := doTftpLoop_turns h.inTime (K + 1) 0 fun j _ hj => hfirst j (by omega)
  rw [Nat.zero_add, if_pos hat, ← List.range_eq_range'] at hloop
  rcases h.turn hF hlong hphase with ⟨pending', hphase', -⟩ | ⟨harr, hphase' | ⟨hlast, hfin⟩⟩
  · exact absurd hat hphase'.running
  · exact absurd hat hphase'.running
  · obtain ⟨hlen, hmem⟩ := hfin.holds.ptr_all (hfin.holds.finish hfin.state)
    refine ⟨K, _, ?_, hfirst K (Nat.lt_succ_self K), ?_, hfin.state, hfin.result, hmem⟩
    · rw [harr, hlast]
    · unfold doTftp
      rw [if_neg (by simp)]
      have hloop' : (doTftpLoop file addr ((List.range (K + 1)).map its)
          (enter target maxlen s)).2 = some (turns file addr its (enter target maxlen s) (K + 1)) :=
        hloop
      rw [hloop', Option.map_some, hfin.result, if_neg (by decide), hlen]

theorem Perfect.not_completes
    (h : Perfect F file addr its (enter target maxlen s) server flight)
    (hshort : F.length < 512) : ¬ Completes F target maxlen addr file its s := by
  rintro ⟨K, st, -, -, hrun, -⟩
  have hwaits := h.waits hshort ⟨by simp [enter], by simp [enter]⟩
  have hloop := doTftpLoop_turns h.inTime (K + 1) 0 fun j _ _ => (hwaits j).1
  rw [Nat.zero_add, if_neg (hwaits (K + 1)).1, ← List.range_eq_range'] at hloop
  have hloop' : (doTftpLoop file addr ((List.range (K + 1)).map its)
      (enter target maxlen s)).2 = none := hloop
  unfold doTftp at hrun
  rw [if_neg (by simp), hloop'] at hrun
  simp at hrun

/--
**Which files a perfect network transfers**: those of at least 512 bytes.  A shorter file is
never completed, because its only block is not shorter than any block before it.
-/
theorem completes_iff (hsize : F.length ≤ loaderMaxsize) (hptr : s.ptr = 0)
    (h : Perfect F file addr its (enter target loaderMaxsize s) server flight) :
    Completes F target loaderMaxsize addr file its s ↔ 512 ≤ F.length := by
  have hF : Servable F loaderMaxsize := by
    have hmax : loaderMaxsize = 0x1000000 := rfl
    refine ⟨by exact_mod_cast hsize, ?_⟩
    unfold blocks
    omega
  constructor
  · intro hcomplete
    by_contra hshort
    exact h.not_completes (Nat.not_le.mp hshort) hcomplete
  · exact h.completes hptr hF

end Complete

/-! ### Two networks

Block `k + 1` arrives in turn `k`, and after the last block nothing does.
-/

/-- The turns of a network that delivers the first `n` blocks without delay. -/
def prompt (F : List UInt8) (n k : Nat) : Iteration where
  late := false
  alloc := true
  arrived := if k < n then [(Pbuf.of (dataPacket F (k + 1)), ⟨0, 1000⟩)] else []

/-- What is checked of a network that falls silent after two turns. -/
theorem Perfect.of_two {F file : List UInt8} {addr : UInt32} {n : Nat} (hn : n ≤ 2) {s : Statics}
    (hsend : (turns file addr (prompt F n) s 2).send = false)
    (hturns : ∀ k < 2, serveAll F
        (body file addr false true (turns file addr (prompt F n) s k)).sent (min k n)
      = (min (k + 1) n, if k < n then [dataPacket F (k + 1)] else [])) :
    Perfect F file addr (prompt F n) s (fun k => min k n) (fun _ => []) := by
  have hbytes : ∀ k, (prompt F n k).arrived.map (fun d => d.1.bytes)
      = if k < n then [dataPacket F (k + 1)] else [] := by
    intro k
    unfold prompt
    dsimp only
    split
    · simp [Pbuf.bytes_of]
    · rfl
  have hsilent : ∀ k, (turns file addr (prompt F n) s (2 + k)).send = false := by
    intro k
    induction k with
    | zero => exact hsend
    | succ k ih =>
        have hnone : (prompt F n (2 + k)).arrived = [] := if_neg (by omega)
        show (poll (prompt F n (2 + k)).arrived
          (transmit file addr true (turns file addr (prompt F n) s (2 + k))).1).send = false
        rw [hnone]
        unfold transmit
        rw [if_pos ih]
        exact ih
  have hall : ∀ k, serveAll F (body file addr false true (turns file addr (prompt F n) s k)).sent
      (min k n) = (min (k + 1) n, (prompt F n k).arrived.map fun d => d.1.bytes) := by
    intro k
    by_cases hk : k < 2
    · rw [hbytes]
      exact hturns k hk
    · obtain ⟨j, rfl⟩ := Nat.exists_eq_add_of_le (Nat.not_lt.mp hk)
      have hnone : (prompt F n (2 + j)).arrived = [] := if_neg (by omega)
      have hsent : (transmit file addr true (turns file addr (prompt F n) s (2 + j))).2 = [] := by
        unfold transmit
        rw [if_pos (hsilent j)]
      rw [body_inTime, hnone]
      dsimp only
      rw [hsent, Nat.min_eq_right (show n ≤ 2 + j by omega),
        Nat.min_eq_right (show n ≤ 2 + j + 1 by omega)]
      rfl
  refine ⟨Nat.zero_min n, rfl, fun _ => rfl, fun k => ?_, fun k => ?_,
    fun m => ⟨m, Nat.le_refl _, rfl⟩, fun m => ⟨m, Nat.le_refl _, rfl⟩⟩
  · exact (congrArg Prod.fst (hall k)).symm
  · exact (congrArg Prod.snd (hall k)).trans (List.append_nil _).symm

/-- The small file of 512 bytes is completed. -/
theorem oneBlock_completes :
    Completes oneBlock 0 loaderMaxsize 0 [] (prompt oneBlock 2) Statics.fresh := by
  have hperfect : Perfect oneBlock [] 0 (prompt oneBlock 2) (enter 0 loaderMaxsize Statics.fresh)
      (fun k => min k 2) (fun _ => []) :=
    Perfect.of_two (Nat.le_refl 2) (by decide +kernel) (by decide +kernel)
  exact (completes_iff (by decide +kernel) rfl hperfect).mpr (by decide +kernel)

/-- The empty file is never completed, though the network is perfect. -/
theorem empty_not_completes :
    Perfect [] [] 0 (prompt [] 1) (enter 0 loaderMaxsize Statics.fresh) (fun k => min k 1)
        (fun _ => []) ∧
      ¬ Completes [] 0 loaderMaxsize 0 [] (prompt [] 1) Statics.fresh := by
  have hperfect : Perfect [] [] 0 (prompt [] 1) (enter 0 loaderMaxsize Statics.fresh)
      (fun k => min k 1) (fun _ => []) :=
    Perfect.of_two (by decide) (by decide +kernel) (by decide +kernel)
  exact ⟨hperfect, hperfect.not_completes (by decide)⟩

end Xell.Tftp
