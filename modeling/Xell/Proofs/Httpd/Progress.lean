/-
A response does not get stuck.

After the last acknowledgement only `http_poll` comes back to a connection, and it goes on only
if there is a handler and something in the ring.  A state in which nothing is outstanding is
therefore left for good unless both are there, and the state is reached by a `send_data` of
which TCP took nothing.

`Sendable` says when such a `send_data` does no harm.  It must not find the whole response
taken already, since then nothing comes of it; no header line may be longer than the ring; and
if TCP takes nothing, the server must not come to its end, where the handler is given up, nor
`http_poll` to its last try.  `responses_not_stuck` is the result; `fuses_stuck` shows what
happens otherwise.
-/
import Xell.Proofs.Httpd.Linked
import Xell.Proofs.Httpd.Waiting

namespace Xell.Httpd

/-! ### The statement -/

/-- The next `http_poll` calls `send_data`. -/
def PollSends (c : Conn) : Prop :=
  c.http.handler.isSome ∧ c.http.sendbufferRead ≠ c.http.sendbufferWrite ∧ c.http.retries + 1 ≠ 4

theorem httpPoll_sends (site : Site) (tcp : Tcp) {c : Conn} (h : PollSends c) :
    httpPoll site tcp c
      = sendData site tcp { c with http := { c.http with retries := c.http.retries + 1 } } := by
  obtain ⟨hh, hne, hretries⟩ := h
  unfold httpPoll
  rw [if_pos ⟨hh, hne⟩]
  dsimp only
  rw [if_neg hretries]

/-- The request is complete, the connection is open and no acknowledgement is to come. -/
structure Flow.Quiescent (s : Flow) : Prop where
  alive : s.conn.alive = true
  complete : s.conn.http.stateClient = .data
  acked : s.acked = s.conn.accepted.length

/-- In such a state the next `http_poll` goes on. -/
def NotStuck (s : Flow) : Prop := s.Quiescent → PollSends s.conn

/-- TCP takes something of whatever it is offered. -/
def Tcp.Takes (tcp : Tcp) : Prop :=
  ∀ n, 0 < n → 0 < tcpDoSend tcp.write (min tcp.sndbuf n + 1) (min tcp.sndbuf n)

/-- A `send_data` that may be made with nothing outstanding. -/
structure Sendable (site : Site) (tcp : Tcp) (h : HttpState) : Prop where
  left : 0 < left site h
  lines : LinesFit h.responsePriv
  takes : tcp.Takes ∨ Unfinished site h ∧ h.retries ≠ 3

/-- The `send_data` of a callback: the state it is entered in, and TCP. -/
def Callback.sends (site : Site) (c : Conn) : Callback → Option (HttpState × Tcp)
  | .recv pbufs tcp => (receivePbufs site pbufs c.http).map fun h => (h, tcp)
  | .sent _ tcp =>
      if c.http.sendbufferRead ≠ c.http.sendbufferWrite ∨ c.http.stateServer ≠ .close then
        some ({ c.http with retries := 0 }, tcp)
      else none
  | .poll tcp =>
      if c.http.handler.isSome ∧ c.http.sendbufferRead ≠ c.http.sendbufferWrite ∧
          c.http.retries + 1 ≠ 4 then
        some ({ c.http with retries := c.http.retries + 1 }, tcp)
      else none
  | .fin => none
  | .err => none

/-- The condition on a callback: if it calls `send_data` for a complete request with nothing
outstanding, that is one that may be made. -/
def Meets (site : Site) (cb : Callback) (s : Flow) : Prop :=
  ∀ h tcp, cb.sends site s.conn = some (h, tcp) → h.stateClient = .data →
    s.acked + cb.acks = s.conn.accepted.length → Sendable site tcp h

/-- Every callback of the run meets the condition. -/
def MeetsRun (site : Site) : List Callback → Flow → Prop
  | [], _ => True
  | cb :: cbs, s => Meets site cb s ∧ ∀ s', Flow.step site cb s = some s' → MeetsRun site cbs s'

/-! ### The server -/

theorem accept_described (sendbuffer : Mem UInt8) (priv : Option Priv) :
    Described (accept sendbuffer priv).http := by
  intro _ t ht
  cases ht

theorem serverStep_described {site : Site} {h h' : HttpState} {stop : Bool} (hi : Indexed h)
    (hd : Described h) (hr : serverStep site h = some (stop, h')) : Described h' := by
  cases serverStep_turn hr with
  | idle hs => exact hd
  | full hs hsent =>
      have hlen := hd.getD hs
      obtain ⟨-, rfl⟩ := sendStatus_full hsent
      intro _ t ht
      cases ht
      exact hlen
  | status hs hsent =>
      have hheader := (sendStatus_sent hsent).2.1
      intro hs'
      simp [hheader] at hs'
  | done w =>
      intro hs'
      rcases w.working.2 with rfl | rfl <;> simp at hs'
  | waits w =>
      intro hs'
      rw [w.server hi] at hs'
      rcases w.working.1 with hs | hs <;> simp [hs] at hs'
  | again w =>
      intro hs'
      rw [w.server hi] at hs'
      rcases w.working.1 with hs | hs <;> simp [hs] at hs'
  | close hs =>
      intro hs'
      simp [hs] at hs'

theorem receiveByte_described {site : Site} {c : UInt8} {h h' : HttpState} (hl : Rested h)
    (hd : Described h) (hr : receiveByte site c h = some h') : Described h' := by
  rcases receiveByte_cases hr with ⟨-, -, l, rfl⟩ | ⟨-, m, p, h₁, ha, rfl⟩ | ⟨-, l, rfl⟩ |
    ⟨hc, -, l, rfl⟩ | ⟨-, -, rfl⟩ | ⟨-, rfl⟩
  · exact hd
  · obtain ⟨l, code, rfl⟩ := asked_state ha
    obtain ⟨-, hserver, hdescr⟩ := findHandler_found site m p httpHandler
      { h with linebuffer := l, code := code } (by decide)
    intro hs t ht
    dsimp only at hs ht
    rw [hserver] at hs
    rw [hdescr] at ht
    exact hd hs t ht
  · exact hd
  · intro _ t ht
    exact hd (Or.inl (hl.header hc).1) t ht
  · exact hd
  · exact hd

theorem described_keeps (site : Site) :
    Keeps site (fun _ h => Linked h ∧ Described h) (fun _ h => Rested h ∧ Described h) where
  enter _ _ h := ⟨h.1.toLinked, h.2⟩
  turn _ _ _ hi h hr := ⟨serverStep_linked hi h.1 hr, serverStep_described hi h.2 hr⟩
  leave _ _ _ hi h hr := ⟨serverStep_rested hi h.1 hr, serverStep_described hi h.2 hr⟩
  byte _ _ _ _ h hr := ⟨receiveByte_rested h.1 hr, receiveByte_described h.1 h.2 hr⟩
  unread tr h read retries hJ :=
    ⟨(linked_keeps site).unread tr h read retries hJ.1, hJ.2⟩

/-- The last turn of the loop, in a state that all turns before it have kept. -/
theorem handleServerLoop_last {site : Site} {P : HttpState → Prop}
    (hstep : ∀ h h', P h → serverStep site h = some (false, h') → P h') :
    ∀ (n : Nat) (h h' : HttpState), P h → handleServerLoop site n h = some h' →
      ∃ h₁, P h₁ ∧ serverStep site h₁ = some (true, h') := by
  intro n
  induction n with
  | zero => intro h h' _ hr; cases hr
  | succ n ih =>
      intro h h' hP hr
      unfold handleServerLoop at hr
      split at hr
      · cases hr
      · rename_i h₁ hs
        cases hr
        exact ⟨h, hP, hs⟩
      · rename_i h₁ hs
        exact ih h₁ h' (hstep h h₁ hP hs) hr

/-- The state of the loop after some turns from `h` on. -/
structure Turned (site : Site) (h h₁ : HttpState) : Prop where
  indexed : Indexed h₁
  linked : Linked h₁
  described : Described h₁
  lines : LinesFit h₁.responsePriv
  emits : ∃ d, Emits d h h₁ ∧ rest site h = d ++ rest site h₁
  retries : h₁.retries = h.retries

theorem Turned.step {site : Site} {h h₁ h₂ : HttpState} {stop : Bool} (ht : Turned site h h₁)
    (hr : serverStep site h₁ = some (stop, h₂)) : Turned site h h₂ := by
  obtain ⟨d, e, hrest⟩ := ht.emits
  obtain ⟨d', e', hrest'⟩ := serverStep_sends ht.indexed hr
  have hblock := serverStep_block hr
  refine ⟨e'.indexed ht.indexed, serverStep_linked ht.indexed ht.linked hr,
    serverStep_described ht.indexed ht.described hr, ?_, ⟨d ++ d', e.trans e', ?_⟩,
    hblock.retries.trans ht.retries⟩
  · unfold LinesFit
    rw [hblock.block.fields_eq]
    exact ht.lines
  · rw [hrest, hrest', List.append_assoc]

/-- What a call of the server comes to. -/
structure Served (site : Site) (h h' : HttpState) : Prop extends Turned site h h' where
  waits : queued h' ≠ [] ∨ rest site h' = []
  unfinished : Unfinished site h → h'.stateServer ≠ .close

theorem handleServer_served {site : Site} {h h' : HttpState} (hi : Indexed h) (hl : Linked h)
    (hd : Described h) (hf : LinesFit h.responsePriv) (hr : handleServer site h = some h') :
    Served site h h' := by
  have hstart : Turned site h h := ⟨hi, hl, hd, hf, ⟨[], .refl hi, rfl⟩, rfl⟩
  obtain ⟨h₁, ⟨ht, hu⟩, hlast⟩ := handleServerLoop_last
    (P := fun h₁ => Turned site h h₁ ∧ (Unfinished site h → Unfinished site h₁))
    (fun h₁ h₂ hP hs => ⟨hP.1.step hs,
      fun hu => (serverStep_unfinished hP.1.indexed (hP.2 hu) hs).2 rfl⟩)
    8 h h' ⟨hstart, id⟩ hr
  refine ⟨ht.step hlast, serverStep_waits ht.indexed ht.described ht.lines hlast, fun hunf => ?_⟩
  exact (serverStep_unfinished ht.indexed (hu hunf) hlast).1

/-! ### Sending -/

/-- As long as something is left, something is in the ring afterwards. -/
theorem Served.queued_ne_nil {site : Site} {h h' : HttpState} (hs : Served site h h')
    (hleft : 0 < left site h) : queued h' ≠ [] := by
  obtain ⟨d, e, hrest⟩ := hs.emits
  rcases hs.waits with hne | hnil
  · exact hne
  · intro hempty
    have hqueue := e.queue
    rw [hempty] at hqueue
    obtain ⟨hq, hd⟩ := List.append_eq_nil_iff.mp hqueue.symm
    unfold Httpd.left at hleft
    rw [hrest, hnil, hd, hq] at hleft
    simp at hleft

theorem read_ne_write {h : HttpState} (hne : queued h ≠ []) :
    h.sendbufferRead ≠ h.sendbufferWrite := by
  intro heq
  refine hne ?_
  unfold queued
  rw [heq]
  exact Ring.queue_self _

/-- What is offered is some of a piece that is not empty. -/
theorem offered_eq {h : HttpState} (hi : Indexed h) (hne : queued h ≠ []) (sndbuf : Nat) :
    ∃ n, 0 < n ∧ offered sndbuf h = min sndbuf n := by
  have hrw := read_ne_write hne
  have hread := hi.read_lt
  unfold offered
  dsimp only
  split
  · exact ⟨_, by omega, rfl⟩
  · exact ⟨_, by omega, rfl⟩

/-- If TCP took nothing of a `send_data` that may be made, the next `http_poll` goes on. -/
theorem sendRing_pollSends {site : Site} {tcp : Tcp} {h h' : HttpState} {accepted : List UInt8}
    (hs : Served site h h') (hclient : h.stateClient = .data) (hsend : Sendable site tcp h)
    (hnone : (sendRing tcp h' accepted).accepted.length = accepted.length) :
    PollSends (sendRing tcp h' accepted) := by
  have hne := hs.queued_ne_nil hsend.left
  obtain ⟨n, hpos, hoffer⟩ := offered_eq hs.indexed hne tcp.sndbuf
  unfold sendRing at hnone ⊢
  dsimp only at hnone ⊢
  rw [List.length_append, Mem.slice_length, hoffer] at hnone
  rw [hoffer]
  have hzero : tcpDoSend tcp.write (min tcp.sndbuf n + 1) (min tcp.sndbuf n) = 0 := by omega
  rcases hsend.takes with htakes | ⟨hunf, hretries⟩
  · have := htakes n hpos
    omega
  · obtain ⟨d, e, -⟩ := hs.emits
    have hread := hs.indexed.read_lt
    rw [hzero]
    unfold PollSends
    dsimp only
    rw [Nat.add_zero, if_neg (by omega), hs.retries]
    refine ⟨?_, read_ne_write hne, by omega⟩
    rcases hs.linked.data (e.client.trans hclient) with hend | ⟨-, hh⟩
    · exact absurd hend (hs.unfinished hunf)
    · exact Option.isSome_iff_ne_none.mpr hh

/-! ### Runs -/

theorem run_snoc {site : Site} {e : Event} {c' c'' : Conn} :
    ∀ {es : List Event} {c : Conn}, run site es c = some c' → step site e c' = some c'' →
      run site (es ++ [e]) c = some c'' := by
  intro es
  induction es with
  | nil =>
      intro c hrun hstep
      cases hrun
      show (step site e c').bind _ = _
      rw [hstep]
      rfl
  | cons e' es ih =>
      intro c hrun hstep
      obtain ⟨c₁, hfirst, hrun⟩ := Option.bind_eq_some_iff.mp hrun
      show (step site e' c).bind _ = _
      rw [hfirst]
      exact ih hrun hstep

/-- A connection that some callbacks have led to. -/
structure Reached (site : Site) (c : Conn) : Prop where
  ring : c.RingOK
  rested : c.alive = true → Rested c.http ∧ Described c.http

theorem reached_of_run {site : Site} {sendbuffer : Mem UInt8} {priv : Option Priv}
    {es : List Event} {c : Conn} (hrun : run site es (accept sendbuffer priv) = some c) :
    Reached site c := by
  obtain ⟨-, hafter⟩ := accept_passes (described_keeps site) sendbuffer priv
    ⟨accept_rested sendbuffer priv, accept_described sendbuffer priv⟩ es
  exact ⟨run_ring (accept_ring sendbuffer priv) hrun, (hafter c hrun).alive⟩

theorem handleServer_emits {site : Site} {h h' : HttpState} (hi : Indexed h)
    (hr : handleServer site h = some h') : ∃ d, Emits d h h' := by
  have hkeeps : ∀ h₁ h₂ stop, (∃ d, Emits d h h₁ ∧ Indexed h₁) →
      serverStep site h₁ = some (stop, h₂) → ∃ d, Emits d h h₂ ∧ Indexed h₂ := by
    rintro h₁ h₂ stop ⟨d, e, hi₁⟩ hs
    obtain ⟨d', e', -⟩ := serverStep_sends hi₁ hs
    exact ⟨d ++ d', e.trans e', e'.indexed hi₁⟩
  obtain ⟨d, e, -⟩ := handleServerLoop_keeps hkeeps ⟨[], .refl hi, hi⟩ hr
  exact ⟨d, e⟩

theorem sendRing_accepted (tcp : Tcp) (h : HttpState) (accepted : List UInt8) :
    accepted.length ≤ (sendRing tcp h accepted).accepted.length := by
  unfold sendRing
  dsimp only
  rw [List.length_append]
  exact Nat.le_add_right _ _

/-- The `send_data` of a callback, entered in state `h`. -/
theorem sendData_notStuck {site : Site} {tcp : Tcp} {h : HttpState} {accepted : List UInt8}
    {c' : Conn} {acked : Nat} (hi : Indexed h) (hJ : Rested h ∧ Described h)
    (hle : acked ≤ accepted.length)
    (hr : (handleServer site h).map (fun h => sendRing tcp h accepted) = some c')
    (hsend : h.stateClient = .data → acked = accepted.length → Sendable site tcp h) :
    NotStuck ⟨c', acked⟩ := by
  intro hq
  obtain ⟨h', hserver, rfl⟩ := Option.map_eq_some_iff.mp hr
  have hacked : acked = (sendRing tcp h' accepted).accepted.length := hq.acked
  have hnone : (sendRing tcp h' accepted).accepted.length = accepted.length := by
    have hgrow := sendRing_accepted tcp h' accepted
    omega
  have hclient : h.stateClient = .data := by
    obtain ⟨d, e⟩ := handleServer_emits hi hserver
    exact e.client.symm.trans hq.complete
  have hs := hsend hclient (by omega)
  have hserved := handleServer_served hi hJ.1.toLinked hJ.2 hs.lines hserver
  exact sendRing_pollSends hserved hclient hs hnone

theorem step_accepted {site : Site} {e : Event} {c c' : Conn} (hr : step site e c = some c') :
    c.accepted.length ≤ c'.accepted.length := by
  have hsend : ∀ {tcp h}, sendData site tcp { c with http := h } = some c' →
      c.accepted.length ≤ c'.accepted.length := by
    intro tcp h hr
    obtain ⟨h', -, rfl⟩ := Option.map_eq_some_iff.mp hr
    exact sendRing_accepted tcp h' c.accepted
  cases step_turn hr with
  | same => exact Nat.le_refl _
  | closes _ => exact Nat.le_refl _
  | sends hr => exact hsend hr
  | receives _ hr => exact hsend hr

/-- A closed connection is not stuck. -/
theorem notStuck_of_dead {s : Flow} (hdead : s.conn.alive = false) : NotStuck s := by
  intro hq
  have := hq.alive
  rw [hdead] at this
  cases this

theorem Flow.step_notStuck {site : Site} {s s' : Flow} {cb : Callback}
    (hreach : Reached site s.conn) (hle : s.acked ≤ s.conn.accepted.length) (hn : NotStuck s)
    (hm : Meets site cb s) (hr : Flow.step site cb s = some s') : NotStuck s' := by
  unfold Flow.step at hr
  split at hr
  swap
  · cases hr
    exact hn
  rename_i hallows
  obtain ⟨c', hstep, rfl⟩ := Option.map_eq_some_iff.mp hr
  unfold Httpd.step at hstep
  split at hstep
  · rename_i hdead
    cases hstep
    exact notStuck_of_dead hdead
  rename_i halive
  have hJ := hreach.rested (by simpa using halive)
  have hi : Indexed s.conn.http := hreach.ring.indexed
  have hretries : ∀ n, Rested { s.conn.http with retries := n } ∧
      Described { s.conn.http with retries := n } :=
    fun n => (described_keeps site).unread [] s.conn.http s.conn.http.sendbufferRead n hJ
  cases cb with
  | recv pbufs tcp =>
      obtain ⟨h, hpbufs, hsend⟩ := Option.bind_eq_some_iff.mp hstep
      obtain ⟨hJ', hi'⟩ := (receivePbufsTrace_passes (described_keeps site) pbufs []
        s.conn.http hi hJ).result h hpbufs
      refine sendData_notStuck hi' hJ' hle hsend fun hclient hacked => ?_
      refine hm h tcp ?_ hclient hacked
      show (receivePbufs site pbufs s.conn.http).map _ = _
      rw [hpbufs]
      rfl
  | sent len tcp =>
      dsimp only [Callback.event, httpSent] at hstep
      split at hstep
      · rename_i hgo
        refine sendData_notStuck (h := { s.conn.http with retries := 0 })
          ⟨hi.read_lt, hi.write_lt⟩ (hretries 0) hallows.2 hstep fun hclient hacked => ?_
        exact hm _ tcp (if_pos hgo) hclient hacked
      · cases hstep
        exact notStuck_of_dead rfl
  | poll tcp =>
      dsimp only [Callback.event, httpPoll] at hstep
      split at hstep
      · rename_i hgo
        split at hstep
        · cases hstep
          exact notStuck_of_dead rfl
        · rename_i hmore
          refine sendData_notStuck
            (h := { s.conn.http with retries := s.conn.http.retries + 1 })
            ⟨hi.read_lt, hi.write_lt⟩ (hretries _) hle hstep fun hclient hacked => ?_
          exact hm _ tcp (if_pos ⟨hgo.1, hgo.2, hmore⟩) hclient hacked
      · cases hstep
        exact hn
  | fin =>
      cases hstep
      exact notStuck_of_dead rfl
  | err =>
      cases hstep
      exact notStuck_of_dead rfl

/-- What holds of a connection and its acknowledgements in every run that meets the condition. -/
structure Flows (site : Site) (sendbuffer : Mem UInt8) (priv : Option Priv) (s : Flow) : Prop where
  reached : ∃ es, run site es (accept sendbuffer priv) = some s.conn
  acked : s.acked ≤ s.conn.accepted.length
  notStuck : NotStuck s

theorem Flows.step {site : Site} {sendbuffer : Mem UInt8} {priv : Option Priv} {s s' : Flow}
    {cb : Callback} (hf : Flows site sendbuffer priv s) (hm : Meets site cb s)
    (hr : Flow.step site cb s = some s') : Flows site sendbuffer priv s' := by
  obtain ⟨es, hrun⟩ := hf.reached
  have hnot := Flow.step_notStuck (reached_of_run hrun) hf.acked hf.notStuck hm hr
  unfold Flow.step at hr
  split at hr
  · rename_i hallows
    obtain ⟨c', hstep, rfl⟩ := Option.map_eq_some_iff.mp hr
    refine ⟨⟨es ++ [cb.event], run_snoc hrun hstep⟩, ?_, hnot⟩
    refine Nat.le_trans ?_ (step_accepted hstep)
    have hacked := hf.acked
    cases cb with
    | sent len tcp => exact hallows.2
    | recv _ _ => exact hacked
    | poll _ => exact hacked
    | fin => exact hacked
    | err => exact hacked
  · cases hr
    exact hf

theorem Flows.run {site : Site} {sendbuffer : Mem UInt8} {priv : Option Priv} :
    ∀ (cbs : List Callback) (s s' : Flow), Flows site sendbuffer priv s → MeetsRun site cbs s →
      Flow.run site cbs s = some s' → Flows site sendbuffer priv s' := by
  intro cbs
  induction cbs with
  | nil =>
      intro s s' hf _ hr
      cases hr
      exact hf
  | cons cb cbs ih =>
      intro s s' hf hm hr
      obtain ⟨s₁, hstep, hr⟩ := Option.bind_eq_some_iff.mp hr
      exact ih s₁ s' (hf.step hm.1 hstep) (hm.2 s₁ hstep) hr

/--
**No response gets stuck** in a run in which every `send_data` that is made with nothing
outstanding is one that may be made: in every state it reaches in which a request is complete,
the connection is open and no acknowledgement is to come, the next `http_poll` goes on.
-/
theorem responses_not_stuck (site : Site) (sendbuffer : Mem UInt8) (priv : Option Priv)
    (cbs : List Callback) (s : Flow) (hm : MeetsRun site cbs ⟨accept sendbuffer priv, 0⟩)
    (hr : Flow.run site cbs ⟨accept sendbuffer priv, 0⟩ = some s) : NotStuck s := by
  have hstart : Flows site sendbuffer priv ⟨accept sendbuffer priv, 0⟩ := by
    refine ⟨⟨[], rfl⟩, Nat.le_refl _, fun hq => ?_⟩
    have := hq.complete
    cases this
  exact (Flows.run cbs _ s hstart hm hr).notStuck

/-- A console with more fuses than go into the ring. -/
def fusedSite : Site := { bareSite with fuses := List.replicate 5000 0x30 }

/-- TCP without memory. -/
def noTcp : Tcp where
  sndbuf := 4096
  write := fun _ => .mem

def askFuses : List Callback := [.recv [bytes "GET /FUSE HTTP/1.0\r\n\r\n"] noTcp]

/-- TCP takes nothing at first, and the poll that follows goes on. -/
theorem fusedSite_not_stuck :
    ∃ s, Flow.run fusedSite askFuses ⟨accept (fun _ => 0) none, 0⟩ = some s ∧ s.Quiescent ∧
      PollSends s.conn := by
  have hrun : (Flow.run fusedSite askFuses ⟨accept (fun _ => 0) none, 0⟩).map
      (fun s => (s.conn.alive, s.conn.http.stateClient, s.acked, s.conn.accepted.length))
      = some (true, .data, 0, 0) := by
    decide +kernel
  have hentry : ((Callback.recv [bytes "GET /FUSE HTTP/1.0\r\n\r\n"] noTcp).sends fusedSite
      (accept (fun _ => 0) none)).map (fun x => (x.1.stateServer,
        (blockFields x.1.responsePriv).length, x.1.retries, decide (0 < left fusedSite x.1),
        decide (PrivLeft (left fusedSite x.1) (availableSendbuffer x.1) x.1.responsePriv)))
      = some (.data, 0, 0, true, true) := by
    decide +kernel
  obtain ⟨s, hs, hfacts⟩ := Option.map_eq_some_iff.mp hrun
  simp only [Prod.mk.injEq] at hfacts
  obtain ⟨halive, hclient, hacked, haccepted⟩ := hfacts
  have hq : s.Quiescent := ⟨halive, hclient, by rw [hacked, haccepted]⟩
  have hmeets : Meets fusedSite (.recv [bytes "GET /FUSE HTTP/1.0\r\n\r\n"] noTcp)
      ⟨accept (fun _ => 0) none, 0⟩ := by
    intro h tcp hsends _ _
    rw [hsends] at hentry
    simp only [Option.map_some, Option.some.injEq, Prod.mk.injEq, decide_eq_true_eq] at hentry
    obtain ⟨hserver, hfields, hretries, hleft, hbody⟩ := hentry
    refine ⟨hleft, ?_, Or.inr ⟨⟨?_, hbody⟩, ?_⟩⟩
    · intro field hfield
      rw [List.eq_nil_of_length_eq_zero hfields] at hfield
      cases hfield
    · rw [hserver]
      simp
    · rw [hretries]
      simp
  exact ⟨s, hs, hq, responses_not_stuck fusedSite (fun _ => 0) none askFuses s
    ⟨hmeets, fun _ _ => trivial⟩ hs hq⟩

/-- TCP takes nothing, and the server has come to its end: nobody will send the response. -/
theorem fuses_stuck :
    ∃ s, Flow.run bareSite askFuses ⟨accept (fun _ => 0) none, 0⟩ = some s ∧ ¬ NotStuck s := by
  have hrun : (Flow.run bareSite askFuses ⟨accept (fun _ => 0) none, 0⟩).map
      (fun s => (s.conn.alive, s.conn.http.stateClient, s.acked, s.conn.accepted.length,
        s.conn.http.handler))
      = some (true, .data, 0, 0, none) := by
    decide +kernel
  obtain ⟨s, hs, hfacts⟩ := Option.map_eq_some_iff.mp hrun
  simp only [Prod.mk.injEq] at hfacts
  obtain ⟨halive, hclient, hacked, haccepted, hhandler⟩ := hfacts
  refine ⟨s, hs, fun hn => ?_⟩
  have := (hn ⟨halive, hclient, by rw [hacked, haccepted]⟩).1
  rw [hhandler] at this
  cases this

end Xell.Httpd
