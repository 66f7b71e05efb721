/-
The places a run of a connection goes through.

A run gives the state at its end.  For what happens on the way, `runTrace` lists the turns of
the server's loop, the bytes that the parser is given and the end of the connection, each with
the state it finds, up to a fault if there is one.  `Keeps` is the rule for it: two invariants
that may look at the places passed so far, `I` for the turns of the server and `J` for the
moments in between, hold at all places of every run as soon as the single moves keep them.

A byte can do little to a connection: it goes into the line buffer, makes the handlers be asked,
starts the response or is skipped.  `receiveByte_cases` says so once for all invariants.
-/
import Xell.Proofs.Httpd.Response

namespace Xell.Httpd

/-- A place in the code, with the state it is reached in: a turn of `httpd_handle_server`, a
byte in `httpd_receive`, and the calls of `close_conn` and `conn_err`. -/
inductive Point where
  | turn (h : HttpState)
  | byte (c : UInt8) (h : HttpState)
  | close (h : HttpState)
  | err (h : HttpState)

/-- The state that is found at a place. -/
def Point.http : Point → HttpState
  | .turn h => h
  | .byte _ h => h
  | .close h => h
  | .err h => h

def Point.char : Point → Option UInt8
  | .turn _ => none
  | .byte c _ => some c
  | .close _ => none
  | .err _ => none

/-- The bytes that the parser was given at the places `tr`. -/
def seen (tr : List Point) : List UInt8 := tr.filterMap Point.char

theorem seen_turn (tr : List Point) (h : HttpState) : seen (tr ++ [.turn h]) = seen tr := by
  simp [seen, Point.char]

theorem seen_byte (tr : List Point) (c : UInt8) (h : HttpState) :
    seen (tr ++ [.byte c h]) = seen tr ++ [c] := by
  simp [seen, Point.char]

/-! ### What a byte does -/

/-- The request that a byte completes: method, path, and the state in which the handlers are
asked. -/
def asked (c : UInt8) (h : HttpState) : Option (List UInt8 × List UInt8 × HttpState) :=
  match receiveChar c h with
  | (_, none) => none
  | (h, some line) =>
      let r := splitRequest line
      let bad := badRequest r.2.1 r.2.2
      some (r.1, if bad then [] else r.2.1, if bad then { h with code := 400 } else h)

theorem receiveChar_line (c : UInt8) (h : HttpState) :
    ∃ l, (receiveChar c h).1 = { h with linebuffer := l } := by
  unfold receiveChar
  dsimp only
  split
  · exact ⟨h.linebuffer, rfl⟩
  · split
    · exact ⟨_, rfl⟩
    · exact ⟨_, rfl⟩

theorem asked_state {c : UInt8} {h h₁ : HttpState} {m p : List UInt8}
    (ha : asked c h = some (m, p, h₁)) :
    ∃ l code, h₁ = { h with linebuffer := l, code := code } := by
  obtain ⟨l, hl⟩ := receiveChar_line c h
  unfold asked at ha
  split at ha
  · cases ha
  · rename_i h₂ line heq
    rw [heq] at hl
    obtain ⟨-, -, rfl⟩ : _ ∧ _ ∧ _ := by simpa using ha
    subst hl
    split
    · exact ⟨l, _, rfl⟩
    · exact ⟨l, _, rfl⟩

theorem receiveRequest_none {c : UInt8} {h : HttpState} (site : Site) (ha : asked c h = none) :
    receiveRequest site c h = (receiveChar c h).1 := by
  unfold asked at ha
  unfold receiveRequest
  rcases hline : receiveChar c h with ⟨h₁, line⟩
  rw [hline] at ha
  cases line with
  | none => rfl
  | some line => cases ha

theorem receiveRequest_some {c : UInt8} {h h₁ : HttpState} {m p : List UInt8} (site : Site)
    (ha : asked c h = some (m, p, h₁)) :
    receiveRequest site c h
      = { findHandler site m p httpHandler h₁ with stateClient := .header } := by
  unfold asked at ha
  unfold receiveRequest
  rcases hline : receiveChar c h with ⟨h₂, line⟩
  rw [hline] at ha
  cases line with
  | none => cases ha
  | some line =>
      obtain ⟨rfl, rfl, rfl⟩ : _ ∧ _ ∧ _ := by simpa using ha
      rfl

/-- Everything a byte can do. -/
theorem receiveByte_cases {site : Site} {c : UInt8} {h h' : HttpState}
    (hr : receiveByte site c h = some h') :
    (h.stateClient = .request ∧ asked c h = none ∧ ∃ l, h' = { h with linebuffer := l }) ∨
    (h.stateClient = .request ∧ ∃ m p h₁, asked c h = some (m, p, h₁) ∧
      h' = { findHandler site m p httpHandler h₁ with stateClient := .header }) ∨
    (h.stateClient = .header ∧ ∃ l, h' = { h with linebuffer := l }) ∨
    (h.stateClient = .header ∧ h.handler ≠ none ∧ ∃ l,
      h' = { h with linebuffer := l, stateClient := .data, stateServer := .response }) ∨
    (h.stateClient = .data ∧ h.handler ≠ none ∧ h' = h) ∨
    (h.stateClient = .idle ∧ h' = h) := by
  obtain ⟨l, hl⟩ := receiveChar_line c h
  unfold receiveByte at hr
  split at hr
  · rename_i hclient
    cases hr
    cases ha : asked c h with
    | none => exact Or.inl ⟨hclient, rfl, l, by rw [receiveRequest_none site ha, hl]⟩
    | some r =>
        obtain ⟨m, p, h₁⟩ := r
        exact Or.inr (Or.inl ⟨hclient, m, p, h₁, rfl, receiveRequest_some site ha⟩)
  · rename_i hclient
    unfold receiveHeader at hr
    split at hr
    · rename_i h₁ heq
      rw [heq] at hl
      cases hr
      exact Or.inr (Or.inr (Or.inl ⟨hclient, l, hl⟩))
    · rename_i h₁ line heq
      rw [heq] at hl
      subst hl
      split at hr
      · obtain ⟨hd, hh, rfl⟩ := Option.map_eq_some_iff.mp hr
        refine Or.inr (Or.inr (Or.inr (Or.inl ⟨hclient, ?_, l, rfl⟩)))
        rw [show h.handler = some hd from hh]
        simp
      · obtain ⟨hd, hh, rfl⟩ := Option.map_eq_some_iff.mp hr
        exact Or.inr (Or.inr (Or.inl ⟨hclient, l, rfl⟩))
  · rename_i hclient
    obtain ⟨hd, hh, rfl⟩ := Option.map_eq_some_iff.mp hr
    exact Or.inr (Or.inr (Or.inr (Or.inr (Or.inl ⟨hclient, by rw [hh]; simp, rfl⟩))))
  · rename_i hclient
    cases hr
    exact Or.inr (Or.inr (Or.inr (Or.inr (Or.inr ⟨hclient, rfl⟩))))

/-- Asking the handlers leaves the server where it is. -/
theorem processRequest_server (site : Site) (m p : List UInt8) (h : HttpState) (hd : Handler) :
    (processRequest site m p h hd).2.stateServer = h.stateServer ∧
      (processRequest site m p h hd).2.codeDescr = h.codeDescr := by
  cases hd with
  | mem =>
      dsimp only [processRequest, responseMemProcessRequest]
      split_ifs <;> exact ⟨rfl, rfl⟩
  | fuses =>
      dsimp only [processRequest, responseFusesProcessRequest]
      split_ifs <;> exact ⟨rfl, rfl⟩
  | vfs =>
      dsimp only [processRequest, responseVfsProcessRequest]
      split
      · exact ⟨rfl, rfl⟩
      · split
        · exact ⟨rfl, rfl⟩
        · split <;> exact ⟨rfl, rfl⟩
  | err400 =>
      dsimp only [processRequest, responseErr400ProcessRequest]
      split <;> exact ⟨rfl, rfl⟩
  | err404 => exact ⟨rfl, rfl⟩

/-- The walk over the handlers ends with one of them, at the latest with the last. -/
theorem findHandler_found (site : Site) (m p : List UInt8) :
    ∀ (hds : List Handler) (h : HttpState), .err404 ∈ hds →
      (findHandler site m p hds h).handler ≠ none ∧
        (findHandler site m p hds h).stateServer = h.stateServer ∧
        (findHandler site m p hds h).codeDescr = h.codeDescr := by
  intro hds
  induction hds with
  | nil => intro h hmem; cases hmem
  | cons hd hds ih =>
      intro h hmem
      obtain ⟨hserver, hdescr⟩ := processRequest_server site m p h hd
      unfold findHandler
      dsimp only
      split
      · exact ⟨by simp, hserver, hdescr⟩
      · rename_i hrefused
        rcases List.mem_cons.mp hmem with rfl | hmem
        · exact absurd rfl hrefused
        · rw [← hserver, ← hdescr]
          exact ih _ hmem

/-! ### Traces -/

def serverTrace (site : Site) : Nat → HttpState → List Point
  | 0, _ => []
  | n + 1, h =>
      .turn h :: match serverStep site h with
        | some (false, h') => serverTrace site n h'
        | _ => []

def handleServerTrace (site : Site) (h : HttpState) : List Point := serverTrace site 8 h

def receiveLoopTrace (site : Site) : List UInt8 → HttpState → List Point
  | [], _ => []
  | c :: cs, h => .byte c h :: (receiveByte site c h).elim [] (receiveLoopTrace site cs)

def receiveTrace (site : Site) (data : List UInt8) (h : HttpState) : List Point :=
  receiveLoopTrace site data h ++ (receiveLoop site data h).elim [] (handleServerTrace site)

def receivePbufsTrace (site : Site) : List (List UInt8) → HttpState → List Point
  | [], _ => []
  | q :: qs, h => receiveTrace site q h ++ (receive site q h).elim [] (receivePbufsTrace site qs)

/-- The part of a callback before TCP is given anything. -/
def stepTrace (site : Site) (e : Event) (c : Conn) : List Point :=
  if c.alive = false then []
  else match e with
    | .recv pbufs _ =>
        receivePbufsTrace site pbufs c.http ++
          (receivePbufs site pbufs c.http).elim [] (handleServerTrace site)
    | .sent _ =>
        let h := { c.http with retries := 0 }
        if h.sendbufferRead ≠ h.sendbufferWrite ∨ h.stateServer ≠ .close then
          handleServerTrace site h
        else [.close h]
    | .poll _ =>
        if c.http.handler.isSome ∧ c.http.sendbufferRead ≠ c.http.sendbufferWrite then
          let h := { c.http with retries := c.http.retries + 1 }
          if h.retries = 4 then [.err h] else handleServerTrace site h
        else []
    | .sendData _ => handleServerTrace site c.http
    | .fin => [.close c.http]
    | .err => [.err c.http]

def runTrace (site : Site) : List Event → Conn → List Point
  | [], _ => []
  | e :: es, c => stepTrace site e c ++ (step site e c).elim [] (runTrace site es)

/-! ### Invariants along a trace -/

/-- What one place asks for: `I` in the loop of the server, `J` elsewhere. -/
def At (I J : List Point → HttpState → Prop) (tr : List Point) : Point → Prop
  | .turn h => I tr h
  | .byte _ h => J tr h
  | .close h => J tr h
  | .err h => J tr h

/-- The places `ps`, passed after `tr`. -/
def Along (I J : List Point → HttpState → Prop) : List Point → List Point → Prop
  | _, [] => True
  | tr, p :: ps => At I J tr p ∧ Along I J (tr ++ [p]) ps

/-- A piece of code that is entered after `tr` goes through `ps` and gives `r`. -/
structure Passes (I J : List Point → HttpState → Prop) (tr ps : List Point)
    (r : Option HttpState) : Prop where
  along : Along I J tr ps
  result : ∀ h, r = some h → J (tr ++ ps) h ∧ Indexed h

/-- Single moves keep the invariants. -/
structure Keeps (site : Site) (I J : List Point → HttpState → Prop) : Prop where
  enter : ∀ tr h, J tr h → I tr h
  turn : ∀ tr h h', Indexed h → I tr h → serverStep site h = some (false, h') →
    I (tr ++ [.turn h]) h'
  leave : ∀ tr h h', Indexed h → I tr h → serverStep site h = some (true, h') →
    J (tr ++ [.turn h]) h'
  byte : ∀ tr c h h', J tr h → receiveByte site c h = some h' → J (tr ++ [.byte c h]) h'
  unread : ∀ tr h read retries, J tr h →
    J tr { h with sendbufferRead := read, retries := retries }

section Rules

variable {site : Site} {I J : List Point → HttpState → Prop} {tr ps qs : List Point}

theorem along_append : Along I J tr (ps ++ qs) ↔ Along I J tr ps ∧ Along I J (tr ++ ps) qs := by
  induction ps generalizing tr with
  | nil => simp [Along]
  | cons p ps ih =>
      simp only [List.cons_append, Along, ih, List.append_assoc, List.nil_append, and_assoc]

/-- One piece of code after another. -/
theorem Passes.bind {r : Option HttpState} {f : HttpState → Option HttpState}
    {t : HttpState → List Point} (h : Passes I J tr ps r)
    (hf : ∀ h', J (tr ++ ps) h' → Indexed h' → Passes I J (tr ++ ps) (t h') (f h')) :
    Passes I J tr (ps ++ r.elim [] t) (r.bind f) := by
  cases r with
  | none =>
      refine ⟨?_, fun h' hr => by cases hr⟩
      rw [Option.elim_none, List.append_nil]
      exact h.along
  | some h₁ =>
      obtain ⟨hJ, hi⟩ := h.result h₁ rfl
      obtain ⟨halong, hresult⟩ := hf h₁ hJ hi
      refine ⟨along_append.mpr ⟨h.along, halong⟩, fun h' hr => ?_⟩
      rw [Option.elim_some, ← List.append_assoc]
      exact hresult h' hr

theorem serverTrace_passes (k : Keeps site I J) :
    ∀ (n : Nat) (tr : List Point) (h : HttpState), Indexed h → I tr h →
      Passes I J tr (serverTrace site n h) (handleServerLoop site n h) := by
  intro n
  induction n with
  | zero =>
      intro tr h _ _
      exact ⟨trivial, fun h' hr => by cases hr⟩
  | succ n ih =>
      intro tr h hi hI
      unfold serverTrace handleServerLoop
      cases hs : serverStep site h with
      | none => exact ⟨⟨hI, trivial⟩, fun h' hr => by cases hr⟩
      | some r =>
          obtain ⟨stop, h₁⟩ := r
          obtain ⟨d, e, -⟩ := serverStep_sends hi hs
          cases stop with
          | true =>
              refine ⟨⟨hI, trivial⟩, fun h' hr => ?_⟩
              cases hr
              exact ⟨k.leave tr h h₁ hi hI hs, e.indexed hi⟩
          | false =>
              obtain ⟨halong, hresult⟩ :=
                ih (tr ++ [.turn h]) h₁ (e.indexed hi) (k.turn tr h h₁ hi hI hs)
              refine ⟨⟨hI, halong⟩, fun h' hr => ?_⟩
              have := hresult h' hr
              rw [List.append_assoc] at this
              exact this

theorem handleServerTrace_passes (k : Keeps site I J) {h : HttpState} (hi : Indexed h)
    (hJ : J tr h) : Passes I J tr (handleServerTrace site h) (handleServer site h) :=
  serverTrace_passes k 8 tr h hi (k.enter tr h hJ)

theorem Indexed.same {h h' : HttpState} (hi : Indexed h) (s : SameRing h h') : Indexed h' :=
  ⟨by rw [s.read]; exact hi.read_lt, by rw [s.write]; exact hi.write_lt⟩

theorem receiveLoopTrace_passes (k : Keeps site I J) :
    ∀ (cs : List UInt8) (tr : List Point) (h : HttpState), Indexed h → J tr h →
      Passes I J tr (receiveLoopTrace site cs h) (receiveLoop site cs h) := by
  intro cs
  induction cs with
  | nil =>
      intro tr h hi hJ
      refine ⟨trivial, fun h' hr => ?_⟩
      cases hr
      rw [receiveLoopTrace, List.append_nil]
      exact ⟨hJ, hi⟩
  | cons c cs ih =>
      intro tr h hi hJ
      have hbyte : Passes I J tr [.byte c h] (receiveByte site c h) := by
        refine ⟨⟨hJ, trivial⟩, fun h' hr => ?_⟩
        exact ⟨k.byte tr c h h' hJ hr, hi.same (receiveByte_same hr)⟩
      exact hbyte.bind fun h' hJ' hi' => ih (tr ++ [.byte c h]) h' hi' hJ'

theorem receivePbufsTrace_passes (k : Keeps site I J) :
    ∀ (pbufs : List (List UInt8)) (tr : List Point) (h : HttpState), Indexed h → J tr h →
      Passes I J tr (receivePbufsTrace site pbufs h) (receivePbufs site pbufs h) := by
  intro pbufs
  induction pbufs with
  | nil =>
      intro tr h hi hJ
      refine ⟨trivial, fun h' hr => ?_⟩
      cases hr
      rw [receivePbufsTrace, List.append_nil]
      exact ⟨hJ, hi⟩
  | cons q qs ih =>
      intro tr h hi hJ
      have hreceive : Passes I J tr (receiveTrace site q h) (receive site q h) :=
        (receiveLoopTrace_passes k q tr h hi hJ).bind fun h' hJ' hi' =>
          handleServerTrace_passes k hi' hJ'
      exact hreceive.bind fun h' hJ' hi' => ih _ h' hi' hJ'

/-- A connection after `tr`: it is alive and `J` holds, or the last place was its end. -/
structure After (J : List Point → HttpState → Prop) (tr : List Point) (c : Conn) : Prop where
  alive : c.alive = true → J tr c.http
  dead : c.alive = false → ∃ tr' h, J tr' h ∧ (tr = tr' ++ [.close h] ∨ tr = tr' ++ [.err h])

theorem After.of_close {c : Conn} (hdead : c.alive = false) {h : HttpState} (hJ : J tr h) :
    After J (tr ++ [.close h]) c where
  alive := by
    intro halive
    rw [hdead] at halive
    cases halive
  dead := fun _ => ⟨tr, h, hJ, Or.inl rfl⟩

theorem After.of_err {c : Conn} (hdead : c.alive = false) {h : HttpState} (hJ : J tr h) :
    After J (tr ++ [.err h]) c where
  alive := by
    intro halive
    rw [hdead] at halive
    cases halive
  dead := fun _ => ⟨tr, h, hJ, Or.inr rfl⟩

/-- What `send_data` comes to, whoever calls it. -/
theorem Passes.sendRing (k : Keeps site I J) {r : Option HttpState} (h : Passes I J tr ps r)
    (tcp : Tcp) (accepted : List UInt8) {c : Conn}
    (hc : (r.map fun h => Httpd.sendRing tcp h accepted) = some c) : After J (tr ++ ps) c := by
  obtain ⟨h', hr, rfl⟩ := Option.map_eq_some_iff.mp hc
  refine ⟨fun _ => ?_, fun hdead => by cases hdead⟩
  exact k.unread _ h' _ h'.retries (h.result h' hr).1

/-- The places of one callback, and what holds after it. -/
theorem stepTrace_passes (k : Keeps site I J) (e : Event) {c : Conn} (hring : c.RingOK)
    (hafter : After J tr c) :
    Along I J tr (stepTrace site e c) ∧
      ∀ c', step site e c = some c' → After J (tr ++ stepTrace site e c) c' := by
  unfold stepTrace step
  split
  · refine ⟨trivial, fun c' hc => ?_⟩
    cases hc
    rw [List.append_nil]
    exact hafter
  · rename_i halive
    have hJ : J tr c.http := hafter.alive (by simpa using halive)
    have hi : Indexed c.http := hring.indexed
    have hretries : ∀ n, J tr { c.http with retries := n } :=
      fun n => k.unread tr c.http c.http.sendbufferRead n hJ
    have hserver : ∀ n, Passes I J tr (handleServerTrace site { c.http with retries := n })
        (handleServer site { c.http with retries := n }) :=
      fun n => handleServerTrace_passes k ⟨hi.read_lt, hi.write_lt⟩ (hretries n)
    cases e with
    | recv pbufs tcp =>
        have hp := (receivePbufsTrace_passes k pbufs tr c.http hi hJ).bind
          fun h' hJ' hi' => handleServerTrace_passes k hi' hJ'
        refine ⟨hp.along, fun c' hc => hp.sendRing k tcp c.accepted ?_⟩
        rw [Option.map_bind]
        exact hc
    | sent tcp =>
        dsimp only [httpSent]
        split
        · exact ⟨(hserver 0).along, fun c' hc => (hserver 0).sendRing k tcp c.accepted hc⟩
        · refine ⟨⟨hretries 0, trivial⟩, fun c' hc => ?_⟩
          cases hc
          exact .of_close rfl (hretries 0)
    | poll tcp =>
        dsimp only [httpPoll]
        split
        · split
          · refine ⟨⟨hretries _, trivial⟩, fun c' hc => ?_⟩
            cases hc
            exact .of_err rfl (hretries _)
          · exact ⟨(hserver _).along, fun c' hc => (hserver _).sendRing k tcp c.accepted hc⟩
        · refine ⟨trivial, fun c' hc => ?_⟩
          cases hc
          rw [List.append_nil]
          exact hafter
    | sendData tcp =>
        have hp := handleServerTrace_passes k hi hJ
        exact ⟨hp.along, fun c' hc => hp.sendRing k tcp c.accepted hc⟩
    | fin =>
        refine ⟨⟨hJ, trivial⟩, fun c' hc => ?_⟩
        cases hc
        exact .of_close rfl hJ
    | err =>
        refine ⟨⟨hJ, trivial⟩, fun c' hc => ?_⟩
        cases hc
        exact .of_err rfl hJ

/-- **The invariants hold at every place of every run**, and at its end. -/
theorem runTrace_passes (k : Keeps site I J) :
    ∀ (es : List Event) (tr : List Point) (c : Conn), c.RingOK → After J tr c →
      Along I J tr (runTrace site es c) ∧
        ∀ c', run site es c = some c' → After J (tr ++ runTrace site es c) c' := by
  intro es
  induction es with
  | nil =>
      intro tr c _ hafter
      refine ⟨trivial, fun c' hc => ?_⟩
      cases hc
      rw [runTrace, List.append_nil]
      exact hafter
  | cons e es ih =>
      intro tr c hring hafter
      obtain ⟨halong, hresult⟩ := stepTrace_passes k e hring hafter
      unfold runTrace run
      cases hstep : step site e c with
      | none =>
          refine ⟨?_, fun c' hc => by cases hc⟩
          rw [Option.elim_none, List.append_nil]
          exact halong
      | some c₁ =>
          obtain ⟨halong', hresult'⟩ :=
            ih (tr ++ stepTrace site e c) c₁ (step_ring hring hstep) (hresult c₁ hstep)
          refine ⟨along_append.mpr ⟨halong, halong'⟩, fun c' hc => ?_⟩
          have := hresult' c' hc
          rw [List.append_assoc] at this
          exact this

/-- The same, from the start of a connection. -/
theorem accept_passes (k : Keeps site I J) (sendbuffer : Mem UInt8) (priv : Option Priv)
    (hJ : J [] (accept sendbuffer priv).http) (es : List Event) :
    Along I J [] (runTrace site es (accept sendbuffer priv)) ∧
      ∀ c, run site es (accept sendbuffer priv) = some c →
        After J (runTrace site es (accept sendbuffer priv)) c :=
  runTrace_passes k es [] (accept sendbuffer priv) (accept_ring sendbuffer priv)
    ⟨fun _ => hJ, fun hdead => by cases hdead⟩

/-- One invariant for both kinds of places holds in the state that is found at each of them. -/
theorem place_keeps (k : Keeps site J J) (sendbuffer : Mem UInt8) (priv : Option Priv)
    (hJ : J [] (accept sendbuffer priv).http) {es : List Event} {p : Point}
    (htr : runTrace site es (accept sendbuffer priv) = tr ++ p :: ps) : J tr p.http := by
  have halong := (accept_passes k sendbuffer priv hJ es).1
  rw [htr, along_append, List.nil_append] at halong
  cases p with
  | turn h => exact halong.2.1
  | byte c h => exact halong.2.1
  | close h => exact halong.2.1
  | err h => exact halong.2.1

end Rules

end Xell.Httpd
