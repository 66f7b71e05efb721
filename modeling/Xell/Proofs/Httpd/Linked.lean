/-
The handler is there when the code follows it.

The parser and the server have a state each, and both follow `http->handler`.  `Linked` ties
the three together: before the request line is complete there is no response, then there is a
handler, and there is one until the server comes to its end.

The parser does not look at the server's state.  At the server's end the handler is taken away
while the parser is still in `HTTPD_CLIENT_DATA`, and a byte that arrives now is handed to a
handler that is not there.  That is the only way to get there: `handler_linked`.
-/
import Xell.Proofs.Httpd.Trace

namespace Xell.Httpd

/-! ### The invariant -/

structure Linked (h : HttpState) : Prop where
  request : h.stateClient = .request → h.stateServer = .idle
  header : h.stateClient = .header → h.stateServer = .idle ∧ h.handler ≠ none
  data : h.stateClient = .data →
    h.stateServer = .close ∨ h.stateServer ≠ .idle ∧ h.handler ≠ none
  idle : h.stateClient ≠ .idle

/-- Between the calls of the server, its end has taken the handler away. -/
structure Rested (h : HttpState) : Prop extends Linked h where
  close : h.stateServer = .close → h.handler = none

theorem accept_rested (sendbuffer : Mem UInt8) (priv : Option Priv) :
    Rested (accept sendbuffer priv).http := by
  refine ⟨⟨fun _ => rfl, ?_, ?_, ?_⟩, fun _ => rfl⟩
  · intro hc
    cases hc
  · intro hc
    cases hc
  · intro hc
    cases hc

/-- A response is under way only after the header. -/
theorem Linked.client_data {h : HttpState} (hl : Linked h) (hs : h.stateServer ≠ .idle) :
    h.stateClient = .data := by
  cases hc : h.stateClient with
  | request => exact absurd (hl.request hc) hs
  | header => exact absurd (hl.header hc).1 hs
  | data => rfl
  | idle => exact absurd hc hl.idle

theorem serverStep_idle {site : Site} {h : HttpState} (hs : h.stateServer = .idle) :
    serverStep site h = some (true, h) := by
  unfold serverStep
  rw [hs]

theorem serverStep_linked {site : Site} {h h' : HttpState} {stop : Bool} (hi : Indexed h)
    (hl : Linked h) (hr : serverStep site h = some (stop, h')) : Linked h' := by
  by_cases hidle : h.stateServer = .idle
  · rw [serverStep_idle hidle] at hr
    cases hr
    exact hl
  · obtain ⟨d, e, -⟩ := serverStep_sends hi hr
    obtain ⟨hclose, hkeep, hne⟩ := serverStep_handler hi hr
    have hclient : h'.stateClient = .data := e.client.trans (hl.client_data hidle)
    refine ⟨?_, ?_, fun _ => ?_, ?_⟩
    · simp [hclient]
    · simp [hclient]
    · by_cases hend : h.stateServer = .close
      · exact Or.inl (hclose hend).2
      · rcases hl.data (hl.client_data hidle) with hend' | ⟨-, hh⟩
        · exact absurd hend' hend
        · exact Or.inr ⟨hne hidle, by rw [hkeep hend]; exact hh⟩
    · simp [hclient]

/-- The loop of the server is left at its end only by the turn that takes the handler away. -/
theorem serverStep_leave {site : Site} {h h' : HttpState} (hi : Indexed h)
    (hr : serverStep site h = some (true, h')) (hend : h'.stateServer = .close) :
    h.stateServer = .close := by
  cases serverStep_turn hr with
  | idle hs => exact hend
  | full hs hsent =>
      obtain ⟨-, rfl⟩ := sendStatus_full hsent
      exact hend
  | waits w => exact (w.server hi).symm.trans hend
  | close hs => exact hs

theorem serverStep_rested {site : Site} {h h' : HttpState} (hi : Indexed h) (hl : Linked h)
    (hr : serverStep site h = some (true, h')) : Rested h' where
  toLinked := serverStep_linked hi hl hr
  close := by
    intro hend
    obtain ⟨hclose, -, -⟩ := serverStep_handler hi hr
    exact (hclose (serverStep_leave hi hr hend)).1

theorem receiveByte_rested {site : Site} {c : UInt8} {h h' : HttpState} (hl : Rested h)
    (hr : receiveByte site c h = some h') : Rested h' := by
  rcases receiveByte_cases hr with ⟨hc, -, l, rfl⟩ | ⟨hc, m, p, h₁, ha, rfl⟩ | ⟨hc, l, rfl⟩ |
    ⟨hc, hh, l, rfl⟩ | ⟨-, -, rfl⟩ | ⟨-, rfl⟩
  · exact ⟨⟨hl.request, hl.header, hl.data, hl.idle⟩, hl.close⟩
  · obtain ⟨l, code, rfl⟩ := asked_state ha
    obtain ⟨hfound, hserver, -⟩ := findHandler_found site m p httpHandler
      { h with linebuffer := l, code := code } (by decide)
    have hidle : h.stateServer = .idle := hl.request hc
    refine ⟨⟨?_, fun _ => ⟨hserver.trans hidle, hfound⟩, ?_, ?_⟩, ?_⟩
    · intro hne
      cases hne
    · intro hne
      cases hne
    · intro hne
      cases hne
    · intro hend
      rw [show _ = _ from hserver.trans hidle] at hend
      cases hend
  · exact ⟨⟨hl.request, hl.header, hl.data, hl.idle⟩, hl.close⟩
  · refine ⟨⟨?_, ?_, fun _ => Or.inr ⟨?_, hh⟩, ?_⟩, ?_⟩
    · intro hne
      cases hne
    · intro hne
      cases hne
    · simp
    · simp
    · intro hend
      cases hend
  · exact hl
  · exact hl

theorem linked_keeps (site : Site) : Keeps site (fun _ => Linked) (fun _ => Rested) where
  enter _ _ hl := hl.toLinked
  turn _ _ _ hi hl hr := serverStep_linked hi hl hr
  leave _ _ _ hi hl hr := serverStep_rested hi hl hr
  byte _ _ _ _ hl hr := receiveByte_rested hl hr
  unread _ _ _ _ hl := ⟨⟨hl.request, hl.header, hl.data, hl.idle⟩, hl.close⟩

/-! ### Places where the handler is followed -/

/-- Where a state calls for the handler, the handler is there. -/
def Point.Linked : Point → Prop
  | .turn h => h.stateServer ∈ [.response, .header, .data] → h.handler ≠ none
  | .byte _ h => h.stateClient ∈ [.header, .data] → h.handler ≠ none
  | _ => True

/-- No byte is taken after the server's end. -/
def Point.Open : Point → Prop
  | .byte _ h => h.stateServer ≠ .close
  | _ => True

instance Point.Linked.decidable : (p : Point) → Decidable p.Linked
  | .turn h => inferInstanceAs
      (Decidable (h.stateServer ∈ [.response, .header, .data] → h.handler ≠ none))
  | .byte _ h => inferInstanceAs
      (Decidable (h.stateClient ∈ [.header, .data] → h.handler ≠ none))
  | .close _ => isTrue trivial
  | .err _ => isTrue trivial

/-- Given the invariant, the two are the same. -/
theorem At.linked_iff {tr : List Point} {p : Point}
    (hat : At (fun _ => Httpd.Linked) (fun _ => Rested) tr p) : p.Linked ↔ p.Open := by
  cases p with
  | turn h =>
      have hl : Httpd.Linked h := hat
      refine ⟨fun _ => trivial, fun _ hs => ?_⟩
      have hidle : h.stateServer ≠ .idle := by
        intro heq
        simp [heq] at hs
      rcases hl.data (hl.client_data hidle) with hend | ⟨-, hh⟩
      · simp [hend] at hs
      · exact hh
  | byte c h =>
      have hl : Rested h := hat
      constructor
      · intro hlinked hend
        have hclient := hl.client_data (by rw [hend]; simp)
        exact hlinked (by simp [hclient]) (hl.close hend)
      · intro hopen hc
        simp only [List.mem_cons, List.not_mem_nil, or_false] at hc
        rcases hc with hc | hc
        · exact (hl.header hc).2
        · rcases hl.data hc with hend | ⟨-, hh⟩
          · exact absurd hend hopen
          · exact hh
  | close h => exact Iff.rfl
  | err h => exact Iff.rfl

theorem Along.forall_mem {I J : List Point → HttpState → Prop} {P : Point → Prop}
    (hP : ∀ tr p, At I J tr p → P p) :
    ∀ (ps tr : List Point), Along I J tr ps → ∀ p ∈ ps, P p := by
  intro ps
  induction ps with
  | nil => intro tr _ p hp; cases hp
  | cons q ps ih =>
      intro tr halong p hp
      rcases List.mem_cons.mp hp with rfl | hp
      · exact hP tr p halong.1
      · exact ih _ halong.2 p hp

/--
**The handler is there wherever it is followed, if and only if no byte is taken after the
server has come to its end**, in every run of a connection.
-/
theorem handler_linked (site : Site) (sendbuffer : Mem UInt8) (priv : Option Priv)
    (es : List Event) :
    (∀ p ∈ runTrace site es (accept sendbuffer priv), p.Linked) ↔
      ∀ p ∈ runTrace site es (accept sendbuffer priv), p.Open := by
  obtain ⟨halong, -⟩ := accept_passes (linked_keeps site) sendbuffer priv
    (accept_rested sendbuffer priv) es
  have hiff := Along.forall_mem (fun tr p => At.linked_iff) _ _ halong
  exact ⟨fun h p hp => (hiff p hp).mp (h p hp), fun h p hp => (hiff p hp).mpr (h p hp)⟩

/-- The fuses are sent in one go, and then one more byte comes. -/
theorem handler_not_linked :
    ¬ ∀ p ∈ runTrace bareSite [.recv [bytes "GET /FUSE HTTP/1.0\r\n\r\n"] ⟨4096, fun _ => .ok⟩,
      .recv [bytes "."] ⟨4096, fun _ => .ok⟩] (accept (fun _ => 0) none), p.Linked := by
  decide +kernel

end Xell.Httpd
