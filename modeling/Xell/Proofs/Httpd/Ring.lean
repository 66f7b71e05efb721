/-
The send ring of a connection.

`Emits d h h'` says that on the way from `h` to `h'` the bytes `d` were put into the ring and
fitted there: the queue has grown by `d`, and so has the record of everything written.  A
`put` emits its bytes as soon as they are fewer than the free places, and that is what the
callers' checks of `httpd_available_sendbuffer` are good for; the ten bytes this function
holds back leave room for a caller that asks for a little less than it puts.

`send_data` takes from the front of the queue, whatever TCP makes of the offer.
-/
import Xell.Httpd

namespace Xell.Httpd

/-- The bytes in the ring. -/
def queued (h : HttpState) : List UInt8 :=
  Ring.queue sendbufferLen h.sendbuffer h.sendbufferRead h.sendbufferWrite

/-- The free places of the ring, of which one always stays free. -/
def room (h : HttpState) : Nat := sendbufferLen - (queued h).length

/-- Both indices are inside the ring. -/
structure Indexed (h : HttpState) : Prop where
  read_lt : h.sendbufferRead < sendbufferLen
  write_lt : h.sendbufferWrite < sendbufferLen

theorem Indexed.queued_lt {h : HttpState} (hi : Indexed h) :
    (queued h).length < sendbufferLen := by
  unfold queued
  rw [Ring.queue_length]
  exact Ring.count_lt hi.read_lt hi.write_lt

/-- `httpd_available_sendbuffer` holds ten places back. -/
theorem availableSendbuffer_eq {h : HttpState} (hi : Indexed h) :
    availableSendbuffer h = room h - 10 := by
  obtain ⟨hr, hw⟩ := hi
  unfold availableSendbuffer room queued
  rw [Ring.queue_length]
  unfold Ring.count
  dsimp only
  split <;> split <;> split <;> omega

/-! ### Putting -/

/-- The bytes `d` went into the ring, and the parser and the status code are as they were. -/
structure Emits (d : List UInt8) (h h' : HttpState) : Prop where
  read : h'.sendbufferRead = h.sendbufferRead
  write_lt : h'.sendbufferWrite < sendbufferLen
  queue : queued h' = queued h ++ d
  written : h'.written = h.written ++ d
  client : h'.stateClient = h.stateClient
  line : h'.linebuffer = h.linebuffer
  code : h'.code = h.code

namespace Emits

variable {d d' : List UInt8} {h h' h'' : HttpState}

theorem refl (hi : Indexed h) : Emits [] h h :=
  ⟨rfl, hi.write_lt, (List.append_nil _).symm, (List.append_nil _).symm, rfl, rfl, rfl⟩

theorem trans (e : Emits d h h') (e' : Emits d' h' h'') : Emits (d ++ d') h h'' where
  read := e'.read.trans e.read
  write_lt := e'.write_lt
  queue := by rw [e'.queue, e.queue, List.append_assoc]
  written := by rw [e'.written, e.written, List.append_assoc]
  client := e'.client.trans e.client
  line := e'.line.trans e.line
  code := e'.code.trans e.code

theorem indexed (e : Emits d h h') (hi : Indexed h) : Indexed h' :=
  ⟨by rw [e.read]; exact hi.read_lt, e.write_lt⟩

theorem room (e : Emits d h h') : room h' = Httpd.room h - d.length := by
  unfold Httpd.room
  rw [e.queue, List.length_append]
  omega

/-- What a handler notes about its progress is not in the ring. -/
theorem setPriv (e : Emits d h h') (p : Option Priv) : Emits d h { h' with responsePriv := p } :=
  ⟨e.read, e.write_lt, e.queue, e.written, e.client, e.line, e.code⟩

theorem setServer (e : Emits d h h') (s : ServerState) : Emits d h { h' with stateServer := s } :=
  ⟨e.read, e.write_lt, e.queue, e.written, e.client, e.line, e.code⟩

theorem setDescr (e : Emits d h h') (t : Option (List UInt8)) :
    Emits d h { h' with codeDescr := t } :=
  ⟨e.read, e.write_lt, e.queue, e.written, e.client, e.line, e.code⟩

theorem setHandler (e : Emits d h h') (hd : Option Handler) :
    Emits d h { h' with handler := hd } :=
  ⟨e.read, e.write_lt, e.queue, e.written, e.client, e.line, e.code⟩

theorem setStd (e : Emits d h h') (n : Nat) : Emits d h { h' with stdHeaderState := n } :=
  ⟨e.read, e.write_lt, e.queue, e.written, e.client, e.line, e.code⟩

end Emits

/-! What a `put` leaves alone. -/

section Frame

variable (d : List UInt8) (h : HttpState)

@[simp] theorem putSendbuffer_stateServer :
    (putSendbuffer d h).stateServer = h.stateServer := by
  unfold putSendbuffer; dsimp only; split <;> rfl

@[simp] theorem putSendbuffer_code : (putSendbuffer d h).code = h.code := by
  unfold putSendbuffer; dsimp only; split <;> rfl

@[simp] theorem putSendbuffer_stdHeaderState :
    (putSendbuffer d h).stdHeaderState = h.stdHeaderState := by
  unfold putSendbuffer; dsimp only; split <;> rfl

@[simp] theorem putSendbuffer_handler : (putSendbuffer d h).handler = h.handler := by
  unfold putSendbuffer; dsimp only; split <;> rfl

@[simp] theorem putSendbuffer_responsePriv :
    (putSendbuffer d h).responsePriv = h.responsePriv := by
  unfold putSendbuffer; dsimp only; split <;> rfl

@[simp] theorem putSendbuffer_retries : (putSendbuffer d h).retries = h.retries := by
  unfold putSendbuffer; dsimp only; split <;> rfl

end Frame

/-- A `put` that goes past the end of the block is two contiguous ones. -/
theorem queued_putSendbuffer {h : HttpState} (hi : Indexed h) {d : List UInt8}
    (hfit : d.length < room h) : queued (putSendbuffer d h) = queued h ++ d := by
  obtain ⟨hr, hw⟩ := hi
  have hcount : Ring.count sendbufferLen h.sendbufferRead h.sendbufferWrite + d.length
      < sendbufferLen := by
    unfold room queued at hfit
    rw [Ring.queue_length] at hfit
    omega
  have hall := Mem.map_getD d 0
  unfold queued putSendbuffer
  dsimp only
  by_cases hle : d.length ≤ sendbufferLen - h.sendbufferWrite
  · rw [if_pos hle]
    have := Ring.queue_store h.sendbuffer (fun i => d.getD i 0) hr (by omega) hcount
    rw [hall] at this
    exact this
  · rw [if_neg hle]
    generalize hn : sendbufferLen - h.sendbufferWrite = n at hle ⊢
    have hend : Ring.advance sendbufferLen h.sendbufferWrite n = 0 := if_pos (by omega)
    -- the first piece ends with the block, the second starts at its front
    have hfirst := Ring.queue_store h.sendbuffer (fun i => d.getD i 0) hr
      (show h.sendbufferWrite + n ≤ sendbufferLen by omega) (by omega)
    have hrest := Ring.count_store hr hw
      (show h.sendbufferWrite + n ≤ sendbufferLen by omega) (by omega)
    rw [hend] at hfirst hrest
    have hsecond := Ring.queue_store (w := 0)
      (h.sendbuffer.store h.sendbufferWrite n fun i => d.getD i 0)
      (fun i => d.getD (n + i) 0) hr (n := d.length - n) (by omega) (by omega)
    unfold Ring.advance at hsecond
    rw [Nat.zero_add] at hsecond
    rw [hsecond, hfirst, List.append_assoc]
    congr 1
    rw [show d.length = n + (d.length - n) by omega, List.range_add, List.map_append,
      List.map_map] at hall
    exact hall

theorem putSendbuffer_emits {h : HttpState} (hi : Indexed h) {d : List UInt8}
    (hfit : d.length < room h) : Emits d h (putSendbuffer d h) where
  read := by unfold putSendbuffer; dsimp only; split <;> rfl
  write_lt := by
    have := hi.write_lt
    unfold room at hfit
    unfold putSendbuffer
    dsimp only
    split <;> dsimp only <;> split <;> omega
  queue := queued_putSendbuffer hi hfit
  written := by unfold putSendbuffer; dsimp only
  client := by unfold putSendbuffer; dsimp only; split <;> rfl
  line := by unfold putSendbuffer; dsimp only; split <;> rfl
  code := putSendbuffer_code d h

/-- One more `put` after others, as long as everything together fits. -/
theorem Emits.put {d : List UInt8} {h h' : HttpState} (hi : Indexed h) (e : Emits d h h')
    (d' : List UInt8) (hfit : d.length + d'.length < Httpd.room h) :
    Emits (d ++ d') h (putSendbuffer d' h') :=
  e.trans (putSendbuffer_emits (e.indexed hi) (by rw [e.room]; omega))

/-- What the check of `httpd_available_sendbuffer` buys: ten bytes more than it says fit. -/
theorem lt_room {h : HttpState} (hi : Indexed h) {n : Nat} (hn : n ≤ availableSendbuffer h) :
    n < room h := by
  have := hi.queued_lt
  rw [availableSendbuffer_eq hi] at hn
  unfold room at *
  omega

/-! ### Taking -/

/-- What went into the ring and what TCP has taken out of it. -/
structure RingOK (accepted : List UInt8) (h : HttpState) : Prop where
  indexed : Indexed h
  kept : accepted ++ queued h = h.written

theorem RingOK.emits {accepted d : List UInt8} {h h' : HttpState} (ok : RingOK accepted h)
    (e : Emits d h h') : RingOK accepted h' where
  indexed := e.indexed ok.indexed
  kept := by rw [e.queue, e.written, ← List.append_assoc, ok.kept]

theorem tcpDoSend_le (write : Nat → Err) (n len : Nat) : tcpDoSend write n len ≤ len := by
  induction n generalizing len with
  | zero => exact Nat.zero_le _
  | succ n ih =>
      unfold tcpDoSend
      split
      · exact Nat.le_refl _
      · split
        · exact (ih _).trans (Nat.div_le_self _ _)
        · exact Nat.zero_le _
      · exact Nat.zero_le _

/-- The length is halved at every turn, so that the bound on the turns is never met. -/
theorem tcpDoSend_turns (write : Nat → Err) {n len : Nat} (k : Nat) (hn : len < n) :
    tcpDoSend write (n + k) len = tcpDoSend write n len := by
  induction n generalizing len with
  | zero => omega
  | succ n ih =>
      rw [show n + 1 + k = (n + k) + 1 by omega]
      unfold tcpDoSend
      split
      · rfl
      · split
        · exact ih (by omega)
        · rfl
      · rfl

theorem offered_le {h : HttpState} (hi : Indexed h) (sndbuf : Nat) :
    h.sendbufferRead + offered sndbuf h ≤ sendbufferLen ∧
      offered sndbuf h ≤ (queued h).length := by
  obtain ⟨hr, hw⟩ := hi
  unfold offered queued
  rw [Ring.queue_length]
  unfold Ring.count
  dsimp only
  split <;> split <;> omega

/-- **Sending loses nothing and sends nothing twice**, however TCP answers. -/
theorem RingOK.sendRing {accepted : List UInt8} {h : HttpState} (ok : RingOK accepted h)
    (tcp : Tcp) : RingOK (sendRing tcp h accepted).accepted (sendRing tcp h accepted).http := by
  obtain ⟨hend, hcount⟩ := offered_le ok.indexed tcp.sndbuf
  unfold Httpd.sendRing
  dsimp only
  have hn := tcpDoSend_le tcp.write (offered tcp.sndbuf h + 1) (offered tcp.sndbuf h)
  generalize tcpDoSend tcp.write (offered tcp.sndbuf h + 1) (offered tcp.sndbuf h) = n at hn ⊢
  refine ⟨⟨?_, ok.indexed.write_lt⟩, ?_⟩
  · exact Ring.advance_lt (Nat.succ_pos _) (show h.sendbufferRead + n ≤ sendbufferLen by omega)
  · have htake := Ring.queue_take h.sendbuffer ok.indexed.write_lt
      (show h.sendbufferRead + n ≤ sendbufferLen by omega)
      (by rw [← Ring.queue_length h.sendbuffer]; exact hn.trans hcount)
    rw [List.append_assoc]
    show _ = h.written
    rw [← ok.kept]
    unfold queued
    rw [htake]
    rfl

end Xell.Httpd
