/-
The send ring over whole runs of a connection.

Only two things move the ring: the turns of the server, which put, and `send_data`, which
takes.  The parser and the choice of a handler do not touch it, and a callback is made of
these three.  So what TCP was given followed by what the ring holds is always everything
that was ever put, in whatever order the callbacks come and whatever the client sends.
-/
import Xell.Proofs.Httpd.Server

namespace Xell.Httpd

/-! ### What leaves the ring alone -/

/-- The ring is the same in both states. -/
structure SameRing (h h' : HttpState) : Prop where
  sendbuffer : h'.sendbuffer = h.sendbuffer
  read : h'.sendbufferRead = h.sendbufferRead
  write : h'.sendbufferWrite = h.sendbufferWrite
  written : h'.written = h.written

namespace SameRing

variable {h h' h'' : HttpState}

theorem refl (h : HttpState) : SameRing h h := ⟨rfl, rfl, rfl, rfl⟩

theorem trans (s : SameRing h h') (s' : SameRing h' h'') : SameRing h h'' :=
  ⟨s'.1.trans s.1, s'.2.trans s.2, s'.3.trans s.3, s'.4.trans s.4⟩

end SameRing

theorem RingOK.same {accepted : List UInt8} {h h' : HttpState} (ok : RingOK accepted h)
    (s : SameRing h h') : RingOK accepted h' := by
  obtain ⟨⟨hr, hw⟩, hkept⟩ := ok
  refine ⟨⟨by rw [s.read]; exact hr, by rw [s.write]; exact hw⟩, ?_⟩
  unfold queued
  rw [s.sendbuffer, s.read, s.write, s.written]
  exact hkept

theorem responseStaticProcessRequest_same (text : List UInt8) (malloc : Bool) (h : HttpState) :
    SameRing h (responseStaticProcessRequest text malloc h) :=
  ⟨rfl, rfl, rfl, rfl⟩

theorem processRequest_same (site : Site) (method url : List UInt8) (h : HttpState)
    (hd : Handler) : SameRing h (processRequest site method url h hd).2 := by
  cases hd with
  | mem =>
      unfold processRequest responseMemProcessRequest
      dsimp only
      split
      · exact .refl h
      · split
        · exact .refl h
        · split <;> exact ⟨rfl, rfl, rfl, rfl⟩
  | fuses =>
      unfold processRequest responseFusesProcessRequest
      dsimp only
      split
      · exact .refl h
      · split
        · exact .refl h
        · exact ⟨rfl, rfl, rfl, rfl⟩
  | vfs =>
      unfold processRequest responseVfsProcessRequest
      dsimp only
      split
      · exact .refl h
      · split
        · exact .refl h
        · split <;> exact ⟨rfl, rfl, rfl, rfl⟩
  | err400 =>
      unfold processRequest responseErr400ProcessRequest
      dsimp only
      split
      · exact .refl h
      · exact responseStaticProcessRequest_same _ _ h
  | err404 => exact ⟨rfl, rfl, rfl, rfl⟩

theorem findHandler_same (site : Site) (method url : List UInt8) (hds : List Handler)
    (h : HttpState) : SameRing h (findHandler site method url hds h) := by
  induction hds generalizing h with
  | nil => exact .refl h
  | cons hd hds ih =>
      have hreq := processRequest_same site method url h hd
      unfold findHandler
      dsimp only
      split
      · exact ⟨hreq.1, hreq.2, hreq.3, hreq.4⟩
      · exact hreq.trans (ih _)

theorem receiveChar_same (c : UInt8) (h : HttpState) : SameRing h (receiveChar c h).1 := by
  unfold receiveChar
  dsimp only
  split
  · exact .refl h
  · split <;> exact ⟨rfl, rfl, rfl, rfl⟩

theorem receiveRequest_same (site : Site) (c : UInt8) (h : HttpState) :
    SameRing h (receiveRequest site c h) := by
  have hchar := receiveChar_same c h
  unfold receiveRequest
  split
  · rename_i h₁ heq
    rw [heq] at hchar
    exact hchar
  · rename_i h₁ line heq
    rw [heq] at hchar
    dsimp only
    have hfind := findHandler_same site (splitRequest line).1
      (if badRequest (splitRequest line).2.1 (splitRequest line).2.2 then []
        else (splitRequest line).2.1) httpHandler
      (if badRequest (splitRequest line).2.1 (splitRequest line).2.2 then { h₁ with code := 400 }
        else h₁)
    have hcode : SameRing h₁ (if badRequest (splitRequest line).2.1 (splitRequest line).2.2
        then { h₁ with code := 400 } else h₁) := by
      split <;> exact ⟨rfl, rfl, rfl, rfl⟩
    have := (hchar.trans hcode).trans hfind
    exact ⟨this.1, this.2, this.3, this.4⟩

theorem receiveHeader_same {c : UInt8} {h h' : HttpState} (hr : receiveHeader c h = some h') :
    SameRing h h' := by
  have hchar := receiveChar_same c h
  unfold receiveHeader at hr
  split at hr
  · rename_i h₁ heq
    rw [heq] at hchar
    cases hr
    exact hchar
  · rename_i h₁ line heq
    rw [heq] at hchar
    split at hr
    · obtain ⟨hd, -, rfl⟩ := Option.map_eq_some_iff.mp hr
      exact ⟨hchar.1, hchar.2, hchar.3, hchar.4⟩
    · obtain ⟨hd, -, rfl⟩ := Option.map_eq_some_iff.mp hr
      exact hchar

theorem receiveByte_same {site : Site} {c : UInt8} {h h' : HttpState}
    (hr : receiveByte site c h = some h') : SameRing h h' := by
  unfold receiveByte at hr
  split at hr
  · cases hr
    exact receiveRequest_same site c h
  · exact receiveHeader_same hr
  · obtain ⟨hd, -, rfl⟩ := Option.map_eq_some_iff.mp hr
    exact .refl _
  · cases hr
    exact .refl _

theorem receiveLoop_same {site : Site} {cs : List UInt8} {h h' : HttpState}
    (hr : receiveLoop site cs h = some h') : SameRing h h' := by
  induction cs generalizing h with
  | nil =>
      cases hr
      exact .refl _
  | cons c cs ih =>
      obtain ⟨h₁, hbyte, hr⟩ := Option.bind_eq_some_iff.mp hr
      exact (receiveByte_same hbyte).trans (ih hr)

/-! ### Runs -/

theorem receivePbufs_ring {site : Site} {accepted : List UInt8} {qs : List (List UInt8)}
    {h h' : HttpState} (ok : RingOK accepted h) (hr : receivePbufs site qs h = some h') :
    RingOK accepted h' := by
  induction qs generalizing h with
  | nil =>
      cases hr
      exact ok
  | cons q qs ih =>
      obtain ⟨h₂, hq, hr⟩ := Option.bind_eq_some_iff.mp hr
      obtain ⟨h₁, hloop, hserver⟩ := Option.bind_eq_some_iff.mp hq
      exact ih (handleServer_ring (ok.same (receiveLoop_same hloop)) hserver) hr

/-- The ring of a connection, and what TCP has taken from it. -/
def Conn.RingOK (c : Conn) : Prop := Httpd.RingOK c.accepted c.http

theorem sendData_ring {site : Site} {tcp : Tcp} {c c' : Conn} (ok : c.RingOK)
    (hr : sendData site tcp c = some c') : c'.RingOK := by
  obtain ⟨h, hserver, rfl⟩ := Option.map_eq_some_iff.mp hr
  exact (handleServer_ring ok hserver).sendRing tcp

/-- What a callback can do to a connection: leave it alone, close it, or send, with the retries
counted in any way or after what was received. -/
inductive StepTurn (site : Site) (c : Conn) : Conn → Prop
  | same : StepTurn site c c
  | closes (n : Nat) :
      StepTurn site c (Conn.closed { c with http := { c.http with retries := n } })
  | sends {tcp : Tcp} {n : Nat} {c' : Conn}
      (hsend : sendData site tcp { c with http := { c.http with retries := n } } = some c') :
      StepTurn site c c'
  | receives {pbufs : List (List UInt8)} {tcp : Tcp} {h : HttpState} {c' : Conn}
      (hpbufs : receivePbufs site pbufs c.http = some h)
      (hsend : sendData site tcp { c with http := h } = some c') : StepTurn site c c'

theorem step_turn {site : Site} {e : Event} {c c' : Conn} (hr : step site e c = some c') :
    StepTurn site c c' := by
  unfold step at hr
  split at hr
  · cases hr
    exact .same
  · cases e with
    | recv pbufs tcp =>
        obtain ⟨h, hpbufs, hsend⟩ := Option.bind_eq_some_iff.mp hr
        exact .receives hpbufs hsend
    | sent tcp =>
        dsimp only [httpSent] at hr
        split at hr
        · exact .sends hr
        · cases hr
          exact .closes 0
    | poll tcp =>
        dsimp only [httpPoll] at hr
        split at hr
        · split at hr
          · cases hr
            exact .closes _
          · exact .sends hr
        · cases hr
          exact .same
    | sendData tcp => exact .sends (n := c.http.retries) hr
    | fin =>
        cases hr
        exact .closes c.http.retries
    | err =>
        cases hr
        exact .closes c.http.retries

/-- One callback, whichever it is. -/
theorem step_ring {site : Site} {e : Event} {c c' : Conn} (ok : c.RingOK)
    (hr : step site e c = some c') : c'.RingOK := by
  have hretries : ∀ n, Conn.RingOK { c with http := { c.http with retries := n } } :=
    fun n => Httpd.RingOK.same ok ⟨rfl, rfl, rfl, rfl⟩
  cases step_turn hr with
  | same => exact ok
  | closes n => exact hretries n
  | sends hsend => exact sendData_ring (hretries _) hsend
  | @receives _ _ h _ hpbufs hsend =>
      have ok' : Conn.RingOK { c with http := h } := receivePbufs_ring ok hpbufs
      exact sendData_ring ok' hsend

theorem run_ring {site : Site} {es : List Event} {c c' : Conn} (ok : c.RingOK)
    (hr : run site es c = some c') : c'.RingOK := by
  induction es generalizing c with
  | nil =>
      cases hr
      exact ok
  | cons e es ih =>
      obtain ⟨c₁, hstep, hr⟩ := Option.bind_eq_some_iff.mp hr
      exact ih (step_ring ok hstep) hr

theorem accept_ring (sendbuffer : Mem UInt8) (priv : Option Priv) :
    (accept sendbuffer priv).RingOK := by
  refine ⟨⟨Nat.succ_pos _, Nat.succ_pos _⟩, ?_⟩
  show [] ++ Ring.queue sendbufferLen sendbuffer 0 0 = []
  rw [Ring.queue_self, List.append_nil]

/-- **The send ring loses nothing, repeats nothing, keeps the order and never overflows**, in
every run of a connection. -/
theorem ring_conserved (site : Site) (sendbuffer : Mem UInt8) (priv : Option Priv)
    (es : List Event) (c : Conn) (hr : run site es (accept sendbuffer priv) = some c) :
    c.http.sendbufferRead < sendbufferLen ∧ c.http.sendbufferWrite < sendbufferLen ∧
      (queued c.http).length < sendbufferLen ∧
      c.accepted ++ queued c.http = c.http.written := by
  obtain ⟨hi, hkept⟩ := run_ring (accept_ring sendbuffer priv) hr
  exact ⟨hi.read_lt, hi.write_lt, hi.queued_lt, hkept⟩

/-- A console without files. -/
def bareSite : Site where
  memory := fun _ => 0
  fuses := bytes "fuseset 00: c0ffffffffffffff\n"
  vfs := []
  malloc := fun _ => true

/-- TCP that is short of memory for anything over ten bytes. -/
def shortTcp : Tcp where
  sndbuf := 40
  write := fun len => if len ≤ 10 then .ok else .mem

theorem bareSite_ring_conserved :
    ∃ c, run bareSite [.recv [bytes "GET /FUSE HTTP/1.0\r\n", bytes "\r\n"] shortTcp,
        .poll ⟨100, fun _ => .other⟩, .sent shortTcp] (accept (fun _ => 0) none) = some c ∧
      c.accepted = bytes "HTTP/1.0 200 OK\r\nSer" ∧
      c.http.sendbufferRead < sendbufferLen ∧ c.http.sendbufferWrite < sendbufferLen ∧
      (queued c.http).length < sendbufferLen ∧
      c.accepted ++ queued c.http = c.http.written := by
  have hrun : (run bareSite [.recv [bytes "GET /FUSE HTTP/1.0\r\n", bytes "\r\n"] shortTcp,
        .poll ⟨100, fun _ => .other⟩, .sent shortTcp] (accept (fun _ => 0) none)).map Conn.accepted
      = some (bytes "HTTP/1.0 200 OK\r\nSer") := by
    decide +kernel
  obtain ⟨c, hc, hacc⟩ := Option.map_eq_some_iff.mp hrun
  exact ⟨c, hc, hacc, ring_conserved _ _ _ _ c hc⟩

end Xell.Httpd
