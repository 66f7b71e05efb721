/-
What a handler allocates is given back once.

`process_request` of the handler that takes the request leaves a block in `response_priv`, and
`finish` gives it back: at the server's end, or in `close_conn` if the connection is closed
before that.  `conn_err`, which lwIP calls when a connection breaks and when `http_poll` gives
it up, frees the `http_state` alone.  So the block is lost exactly when a connection breaks
while its handler has one: `released_iff`.
-/
import Xell.Proofs.Httpd.Trace

namespace Xell.Httpd

/-! ### What happens to memory -/

/-- A block for `response_priv`, a call of `finish`, and `mem_free` of the `http_state`. -/
inductive HeapOp where
  | malloc (hd : Handler)
  | finish (hd : Handler)
  | free
  deriving DecidableEq

/-- Whether a handler's `process_request` gets a block. -/
def allocates (site : Site) (method url : List UInt8) (h : HttpState) : Handler → Bool
  | .mem => method = bytes "GET" && url = bytes "/MEM" && site.malloc .mem
  | .fuses => method = bytes "GET" && url = bytes "/FUSE" && site.malloc .fuses
  | .vfs =>
      method = bytes "GET" &&
        (searchFile site (if url = bytes "/" then bytes "/index.dhtml" else url)).isSome &&
        site.malloc .vfs
  | .err400 => h.code = 400 && site.malloc .err400
  | .err404 => site.malloc .err404

def blockOps (hd : Handler) (allocated : Bool) : List HeapOp :=
  if allocated then [.malloc hd] else []

def findHandlerOps (site : Site) (method url : List UInt8) :
    List Handler → HttpState → List HeapOp
  | [], _ => []
  | hd :: hds, h =>
      let r := processRequest site method url h hd
      blockOps hd (allocates site method url h hd) ++
        if r.1 then [] else findHandlerOps site method url hds r.2

def finishOps (h : HttpState) : List HeapOp := (h.handler.map .finish).toList

def Point.ops (site : Site) : Point → List HeapOp
  | .turn h => if h.stateServer = .close then finishOps h else []
  | .byte c h =>
      if h.stateClient = .request then
        match asked c h with
        | none => []
        | some (m, p, h₁) => findHandlerOps site m p httpHandler h₁
      else []
  | .close h => finishOps h ++ [.free]
  | .err _ => [.free]

def ops (site : Site) (tr : List Point) : List HeapOp := tr.flatMap (Point.ops site)

theorem ops_snoc (site : Site) (tr : List Point) (p : Point) :
    ops site (tr ++ [p]) = ops site tr ++ p.ops site := by
  unfold ops
  simp

theorem ops_turn (site : Site) (tr : List Point) (h : HttpState) :
    ops site (tr ++ [.turn h])
      = ops site tr ++ if h.stateServer = .close then finishOps h else [] :=
  ops_snoc site tr (.turn h)

theorem ops_byte_asked {site : Site} {tr : List Point} {c : UInt8} {h h₁ : HttpState}
    {m p : List UInt8} (hc : h.stateClient = .request) (ha : asked c h = some (m, p, h₁)) :
    ops site (tr ++ [.byte c h]) = ops site tr ++ findHandlerOps site m p httpHandler h₁ := by
  rw [ops_snoc]
  simp only [Point.ops, if_pos hc, ha]

theorem ops_byte_none {site : Site} {tr : List Point} {c : UInt8} {h : HttpState}
    (hnone : h.stateClient = .request → asked c h = none) :
    ops site (tr ++ [.byte c h]) = ops site tr := by
  rw [ops_snoc]
  unfold Point.ops
  by_cases hc : h.stateClient = .request
  · simp [hnone hc]
  · simp [hc]

/-! ### The request -/

/-- A handler that takes the request has the block it asked for, if it got one; one that does
not take it has none. -/
theorem processRequest_block (site : Site) (m p : List UInt8) (h : HttpState) (hd : Handler) :
    ((processRequest site m p h hd).1 = true → allocates site m p h hd
        = (processRequest site m p h hd).2.responsePriv.isSome) ∧
      ((processRequest site m p h hd).1 = false → allocates site m p h hd = false) := by
  cases hd with
  | mem =>
      dsimp only [processRequest, responseMemProcessRequest, allocates]
      split_ifs with hm hu hmalloc <;> simp_all
  | fuses =>
      dsimp only [processRequest, responseFusesProcessRequest, allocates,
        responseStaticProcessRequest]
      split_ifs with hm hu hmalloc <;> simp_all
  | vfs =>
      dsimp only [processRequest, responseVfsProcessRequest, allocates]
      by_cases hm : m = bytes "GET"
      · cases hf : searchFile site (if p = bytes "/" then bytes "/index.dhtml" else p) with
        | none => simp [hm]
        | some f => cases hmalloc : site.malloc .vfs <;> simp [hm]
      · simp [hm]
  | err400 =>
      dsimp only [processRequest, responseErr400ProcessRequest, allocates,
        responseStaticProcessRequest]
      split_ifs with hcode hmalloc <;> simp_all
  | err404 =>
      dsimp only [processRequest, responseErr404ProcessRequest, allocates,
        responseStaticProcessRequest]
      cases site.malloc .err404 <;> simp

theorem findHandler_block (site : Site) (m p : List UInt8) :
    ∀ (hds : List Handler) (h : HttpState), .err404 ∈ hds →
      ∃ hd, (findHandler site m p hds h).handler = some hd ∧ findHandlerOps site m p hds h
        = blockOps hd (findHandler site m p hds h).responsePriv.isSome := by
  intro hds
  induction hds with
  | nil => intro h hmem; cases hmem
  | cons hd hds ih =>
      intro h hmem
      obtain ⟨htaken, hrefused⟩ := processRequest_block site m p h hd
      unfold findHandler findHandlerOps
      dsimp only
      by_cases htake : (processRequest site m p h hd).1 = true
      · rw [if_pos htake, if_pos htake, List.append_nil, htaken htake]
        exact ⟨hd, rfl, rfl⟩
      · rw [if_neg htake, if_neg htake, hrefused (by simpa using htake)]
        rcases List.mem_cons.mp hmem with rfl | hmem
        · exact absurd rfl htake
        · exact ih _ hmem

/-! ### The response -/

/-- Both are null, or both are the same block with a handler's notes in it. -/
inductive SameBlock : Option Priv → Option Priv → Prop
  | null : SameBlock none none
  | static (data : List UInt8) (ptr len ptr' len' : Nat) :
      SameBlock (some (.static data ptr len)) (some (.static data ptr' len'))
  | vfs (f : VfsEntry) (ptr hdrState ptr' hdrState' : Nat) :
      SameBlock (some (.vfs f ptr hdrState)) (some (.vfs f ptr' hdrState'))
  | mem (base len ptr hdrState ptr' hdrState' : Nat) :
      SameBlock (some (.mem base len ptr hdrState)) (some (.mem base len ptr' hdrState'))

theorem SameBlock.refl (p : Option Priv) : SameBlock p p := by
  match p with
  | none => exact .null
  | some (.static data ptr len) => exact .static data ptr len ptr len
  | some (.vfs f ptr hdrState) => exact .vfs f ptr hdrState ptr hdrState
  | some (.mem base len ptr hdrState) => exact .mem base len ptr hdrState ptr hdrState

theorem SameBlock.isSome_eq {p p' : Option Priv} (h : SameBlock p p') : p'.isSome = p.isSome := by
  cases h <;> rfl

/-- The server has the block it had, and has not counted a retry. -/
structure KeepsBlock (h h' : HttpState) : Prop where
  retries : h'.retries = h.retries
  block : SameBlock h.responsePriv h'.responsePriv

theorem KeepsBlock.refl (h : HttpState) : KeepsBlock h h := ⟨rfl, .refl _⟩

theorem doStdHeader_block (h : HttpState) : KeepsBlock h (doStdHeader h).2 := by
  cases doStdHeader_turn h with
  | full hs hfull hr =>
      rw [hr]
      exact .refl h
  | sent hs hfit hr =>
      rw [hr]
      exact ⟨by simp, by simpa using .refl _⟩
  | ended hs hr =>
      rw [hr]
      exact .refl h

theorem doField_block {h : HttpState} (t o : List UInt8) {next : Priv}
    (hnext : SameBlock h.responsePriv (some next)) : KeepsBlock h (doField t o next h).2 := by
  unfold doField
  split
  · exact .refl h
  · exact ⟨by simp, hnext⟩

theorem doHeader_block {h : HttpState} {hd : Handler} {r : DoResult × HttpState}
    (hr : doHeader h hd = some r) : KeepsBlock h r.2 := by
  cases doHeader_turn hr with
  | std hf heq =>
      subst heq
      exact doStdHeader_block h
  | mem hp hf heq =>
      subst heq
      exact doField_block _ _ (by rw [hp]; exact .mem ..)
  | vfs hp hf heq =>
      subst heq
      exact doField_block _ _ (by rw [hp]; exact .vfs ..)

theorem memLoop_block (memory : Mem UInt8) (base len hdrState : Nat) :
    ∀ (n ptr av : Nat) (h : HttpState), h.responsePriv = some (.mem base len ptr hdrState) →
      (memLoop memory base len hdrState n ptr av h).retries = h.retries ∧
        ∃ ptr', (memLoop memory base len hdrState n ptr av h).responsePriv
          = some (.mem base len ptr' hdrState) := by
  intro n
  induction n with
  | zero => intro ptr av h hp; exact ⟨rfl, ptr, hp⟩
  | succ n ih =>
      intro ptr av h hp
      unfold memLoop
      split
      · exact ⟨rfl, ptr, hp⟩
      · obtain ⟨hretries, hblock⟩ := ih (ptr + min 1024 av) (av - min 1024 av)
          { putSendbuffer (memory.slice (base + ptr) (min 1024 av)) h with
            responsePriv := some (.mem base len (ptr + min 1024 av) hdrState) } rfl
        exact ⟨by rw [hretries]; simp, hblock⟩

theorem flushText_retries (f : VfsEntry) (hdrState b e : Nat) (h : HttpState) :
    (flushText f hdrState b e h).retries = h.retries := by
  unfold flushText
  split
  · rfl
  · simp

theorem dynamicLoop_block {f : VfsEntry} {hdrState : Nat} :
    ∀ (n b e av : Nat) (h : HttpState) (r : DoResult × HttpState),
      h.responsePriv = some (.vfs f b hdrState) → dynamicLoop f hdrState n b e av h = some r →
      r.2.retries = h.retries ∧ ∃ ptr', r.2.responsePriv = some (.vfs f ptr' hdrState) := by
  intro n
  induction n with
  | zero => intro b e av h r _ hr; cases hr
  | succ n ih =>
      intro b e av h r hp hr
      have hflush := (flushText_frame e hp).1
      have hretries := flushText_retries f hdrState b e h
      cases dynamicLoop_turn hr with
      | stop hstop hr =>
          subst hr
          exact ⟨hretries, e, hflush⟩
      | text hgo hmap hc hr => exact ih b (e + 1) av h r hp hr
      | full hc hq hfull hr =>
          subst hr
          exact ⟨hretries, e, hflush⟩
      | primitive hgo hmap hc hq hfit hr =>
          obtain ⟨hr₂, hblock⟩ := ih _ _ _ _ _ rfl hr
          refine ⟨hr₂.trans ?_, hblock⟩
          simp [hretries]

theorem doData_block {site : Site} {h : HttpState} {hd : Handler} {r : DoResult × HttpState}
    (hr : doData site h hd = some r) : KeepsBlock h r.2 := by
  have hstatic : responseStaticDoData h = some r → KeepsBlock h r.2 := by
    intro hr
    cases responseStaticDoData_turn hr with
    | none hp hr =>
        subst hr
        exact .refl h
    | full hzero hr =>
        subst hr
        exact .refl h
    | sent hp hpos hav hr =>
        subst hr
        exact ⟨by simp, by rw [hp]; exact .static ..⟩
  cases hd with
  | mem =>
      cases responseMemDoData_turn hr with
      | full hzero hr =>
          subst hr
          exact .refl h
      | @sent base len ptr hdrState av hp hpos hav hr =>
          subst hr
          obtain ⟨hretries, ptr', hp'⟩ :=
            memLoop_block site.memory base len hdrState av ptr av h hp
          exact ⟨hretries, by rw [hp, hp']; exact .mem ..⟩
  | vfs =>
      cases responseVfsDoData_turn hr with
      | full hzero hr =>
          subst hr
          exact .refl h
      | ended hp hpos hflag hend hr =>
          subst hr
          exact .refl h
      | sent hp hflag hav hsome hr =>
          subst hr
          exact ⟨by simp, by rw [hp]; exact .vfs ..⟩
      | page hp hpos hflag hr =>
          obtain ⟨hretries, ptr', hp'⟩ := dynamicLoop_block _ _ _ _ h r hp hr
          exact ⟨hretries, by rw [hp, hp']; exact .vfs ..⟩
  | fuses | err400 | err404 => exact hstatic hr

theorem Works.block {site : Site} {h : HttpState} {next : ServerState} {r : DoResult × HttpState}
    (w : Works site h next r) : KeepsBlock h r.2 := by
  cases w with
  | header hs hh hdo => exact doHeader_block hdo
  | data hs hh hdo => exact doData_block hdo

/-- The server keeps the block until its end, and there only lets go of it. -/
theorem serverStep_block {site : Site} {h h' : HttpState} {stop : Bool}
    (hr : serverStep site h = some (stop, h')) : KeepsBlock h h' := by
  cases serverStep_turn hr with
  | idle hs => exact .refl h
  | full hs hsent =>
      obtain ⟨-, rfl⟩ := sendStatus_full hsent
      exact ⟨rfl, .refl _⟩
  | status hs hsent =>
      obtain ⟨-, -, -, hpriv, hretries⟩ := sendStatus_sent hsent
      exact ⟨hretries, hpriv ▸ .refl _⟩
  | done w => exact ⟨w.block.retries, w.block.block⟩
  | waits w => exact w.block
  | again w => exact w.block
  | close hs => exact ⟨rfl, .refl _⟩

/-! ### What is owed -/

/-- How the memory stands after `tr`: nothing has been asked for, or the handler has its block,
if it got one, or it has been finished with. -/
inductive Owed (site : Site) (tr : List Point) (h : HttpState) : Prop
  | asking (hc : h.stateClient = .request) (hh : h.handler = none) (hops : ops site tr = [])
  | serving (hc : h.stateClient ≠ .request) (hd : Handler) (hh : h.handler = some hd)
      (hops : ops site tr = blockOps hd h.responsePriv.isSome)
  | finished (hc : h.stateClient ≠ .request) (hh : h.handler = none) (hd : Handler)
      (allocated : Bool) (hops : ops site tr = blockOps hd allocated ++ [.finish hd])

/-- The same before the connection has ended. -/
structure Running (site : Site) (tr : List Point) (h : HttpState) : Prop where
  owed : Owed site tr h
  unbroken : ∀ h₁, .err h₁ ∉ tr

theorem serverStep_owed {site : Site} {tr : List Point} {h h' : HttpState} {stop : Bool}
    (hi : Indexed h) (ho : Owed site tr h) (hr : serverStep site h = some (stop, h')) :
    Owed site (tr ++ [.turn h]) h' := by
  obtain ⟨d, e, -⟩ := serverStep_sends hi hr
  obtain ⟨hclose, hkeep, -⟩ := serverStep_handler hi hr
  have hblock := (serverStep_block hr).block.isSome_eq
  have hops := ops_turn site tr h
  unfold finishOps at hops
  -- without a handler there is nothing to finish, and none comes back
  have hgone : h.handler = none → h'.handler = none ∧ ops site (tr ++ [.turn h]) = ops site tr := by
    intro hh
    rw [hh] at hops
    refine ⟨?_, by simpa using hops⟩
    by_cases hend : h.stateServer = .close
    · exact (hclose hend).1
    · exact (hkeep hend).trans hh
  cases ho with
  | asking hc hh hops' =>
      obtain ⟨hh', hsame⟩ := hgone hh
      exact .asking (e.client.trans hc) hh' (hsame.trans hops')
  | serving hc hd hh hops' =>
      have hc' : h'.stateClient ≠ .request := by
        rw [e.client]
        exact hc
      rw [hops', hh] at hops
      by_cases hend : h.stateServer = .close
      · rw [if_pos hend] at hops
        exact .finished hc' (hclose hend).1 hd _ hops
      · rw [if_neg hend, List.append_nil] at hops
        exact .serving hc' hd ((hkeep hend).trans hh) (by rw [hblock]; exact hops)
  | finished hc hh hd allocated hops' =>
      obtain ⟨hh', hsame⟩ := hgone hh
      have hc' : h'.stateClient ≠ .request := by
        rw [e.client]
        exact hc
      exact .finished hc' hh' hd allocated (hsame.trans hops')

theorem Owed.congr {site : Site} {tr tr' : List Point} {h h' : HttpState} (ho : Owed site tr h)
    (hops : ops site tr' = ops site tr) (hh : h'.handler = h.handler)
    (hp : h'.responsePriv = h.responsePriv)
    (hc : h'.stateClient = .request ↔ h.stateClient = .request) : Owed site tr' h' := by
  cases ho with
  | asking hc' hh' hops' => exact .asking (hc.mpr hc') (hh.trans hh') (hops.trans hops')
  | serving hc' hd hh' hops' =>
      refine .serving (fun hne => hc' (hc.mp hne)) hd (hh.trans hh') ?_
      rw [hp]
      exact hops.trans hops'
  | finished hc' hh' hd allocated hops' =>
      exact .finished (fun hne => hc' (hc.mp hne)) (hh.trans hh') hd allocated (hops.trans hops')

theorem receiveByte_owed {site : Site} {tr : List Point} {c : UInt8} {h h' : HttpState}
    (ho : Owed site tr h) (hr : receiveByte site c h = some h') :
    Owed site (tr ++ [.byte c h]) h' := by
  have hlater : h.stateClient ≠ .request → ops site (tr ++ [.byte c h]) = ops site tr :=
    fun hc => ops_byte_none fun hc' => absurd hc' hc
  rcases receiveByte_cases hr with ⟨hc, ha, l, rfl⟩ | ⟨hc, m, p, h₁, ha, rfl⟩ | ⟨hc, l, rfl⟩ |
    ⟨hc, -, l, rfl⟩ | ⟨hc, -, rfl⟩ | ⟨hc, rfl⟩
  · exact ho.congr (ops_byte_none fun _ => ha) rfl rfl Iff.rfl
  · cases ho with
    | asking _ hh hops' =>
        obtain ⟨hd, hfound, hblock⟩ := findHandler_block site m p httpHandler h₁ (by decide)
        have hops : ops site (tr ++ [.byte c h]) = _ := ops_byte_asked hc ha
        rw [hops', List.nil_append] at hops
        refine .serving ?_ hd hfound (hops.trans hblock)
        intro hne
        cases hne
    | serving hne _ _ _ => exact absurd hc hne
    | finished hne _ _ _ _ => exact absurd hc hne
  · exact ho.congr (hlater (by simp [hc])) rfl rfl Iff.rfl
  · exact ho.congr (hlater (by simp [hc])) rfl rfl (by simp [hc])
  · exact ho.congr (hlater (by simp [hc])) rfl rfl Iff.rfl
  · exact ho.congr (hlater (by simp [hc])) rfl rfl Iff.rfl

theorem running_keeps (site : Site) : Keeps site (Running site) (Running site) where
  enter _ _ hrun := hrun
  turn _ _ _ hi hrun hr := ⟨serverStep_owed hi hrun.owed hr, by simpa using hrun.unbroken⟩
  leave _ _ _ hi hrun hr := ⟨serverStep_owed hi hrun.owed hr, by simpa using hrun.unbroken⟩
  byte _ _ _ _ hrun hr := ⟨receiveByte_owed hrun.owed hr, by simpa using hrun.unbroken⟩
  unread _ _ _ _ hrun := ⟨hrun.owed.congr rfl rfl rfl Iff.rfl, hrun.unbroken⟩

/-! ### What is given back -/

/-- The `http_state` is freed once and last.  Before it goes the block of the handler, if one
was allocated, by one call of that handler's `finish`; without a block the call frees nothing. -/
inductive Released : List HeapOp → Prop
  | unasked : Released [.free]
  | null (hd : Handler) : Released [.finish hd, .free]
  | block (hd : Handler) : Released [.malloc hd, .finish hd, .free]

/-- The connection does not break here with a block in the handler's hands. -/
def Point.Settled : Point → Prop
  | .err h => h.handler.isNone ∨ h.responsePriv.isNone
  | _ => True

instance Point.Settled.decidable : (p : Point) → Decidable p.Settled
  | .turn _ => isTrue trivial
  | .byte _ _ => isTrue trivial
  | .close _ => isTrue trivial
  | .err h => inferInstanceAs (Decidable (h.handler.isNone ∨ h.responsePriv.isNone))

theorem released_finish (hd : Handler) (allocated : Bool) :
    Released (blockOps hd allocated ++ [.finish hd] ++ [.free]) := by
  cases allocated with
  | true => exact .block hd
  | false => exact .null hd

/-- `close_conn` leaves nothing behind. -/
theorem Owed.closed {site : Site} {tr : List Point} {h : HttpState} (ho : Owed site tr h) :
    Released (ops site (tr ++ [.close h])) := by
  rw [ops_snoc, show Point.ops site (.close h) = finishOps h ++ [.free] from rfl]
  unfold finishOps
  cases ho with
  | asking _ hh hops =>
      rw [hh, hops]
      exact .unasked
  | serving _ hd hh hops =>
      rw [hh, hops, ← List.append_assoc]
      exact released_finish hd _
  | finished _ hh hd allocated hops =>
      rw [hh, hops]
      exact released_finish hd allocated

/-- `conn_err` leaves the block of the handler. -/
theorem Owed.broken_iff {site : Site} {tr : List Point} {h : HttpState} (ho : Owed site tr h) :
    Released (ops site (tr ++ [.err h])) ↔ h.handler.isNone ∨ h.responsePriv.isNone := by
  rw [ops_snoc]
  unfold Point.ops
  cases ho with
  | asking _ hh hops =>
      rw [hh, hops]
      exact ⟨fun _ => Or.inl rfl, fun _ => .unasked⟩
  | serving _ hd hh hops =>
      rw [hh, hops]
      cases hp : h.responsePriv with
      | none => exact ⟨fun _ => Or.inr rfl, fun _ => .unasked⟩
      | some p =>
          constructor
          · intro hr
            cases hr
          · intro hne
            simp at hne
  | finished _ hh hd allocated hops =>
      rw [hh, hops]
      exact ⟨fun _ => Or.inl rfl, fun _ => released_finish hd allocated⟩

/--
**What a connection allocates is given back exactly once, if and only if it does not break with
a block in its handler's hands**, in every run that comes to the end of the connection.
-/
theorem released_iff (site : Site) (sendbuffer : Mem UInt8) (priv : Option Priv)
    (es : List Event) (c : Conn) (hrun : run site es (accept sendbuffer priv) = some c)
    (hdead : c.alive = false) :
    Released (ops site (runTrace site es (accept sendbuffer priv))) ↔
      ∀ p ∈ runTrace site es (accept sendbuffer priv), p.Settled := by
  have hstart : Running site [] (accept sendbuffer priv).http :=
    ⟨.asking rfl rfl rfl, fun _ => List.not_mem_nil⟩
  obtain ⟨-, hafter⟩ := accept_passes (running_keeps site) sendbuffer priv hstart es
  obtain ⟨tr, h, hrunning, htr⟩ := (hafter c hrun).dead hdead
  have hsettled : ∀ p ∈ tr, p.Settled := by
    intro p hp
    cases p with
    | err h₁ => exact absurd hp (hrunning.unbroken h₁)
    | turn _ => trivial
    | byte _ _ => trivial
    | close _ => trivial
  rcases htr with htr | htr <;> rw [htr]
  · refine ⟨fun _ p hp => ?_, fun _ => hrunning.owed.closed⟩
    rcases List.mem_append.mp hp with hp | hp
    · exact hsettled p hp
    · obtain rfl := List.mem_singleton.mp hp
      trivial
  · rw [hrunning.owed.broken_iff]
    constructor
    · intro hh p hp
      rcases List.mem_append.mp hp with hp | hp
      · exact hsettled p hp
      · obtain rfl := List.mem_singleton.mp hp
        exact hh
    · intro hall
      exact hall (.err h) (by simp)

/-- The client closes the connection in the middle of the response. -/
theorem bareSite_released :
    ∃ c, run bareSite [.recv [bytes "GET /FUSE HTTP/1.0\r\n\r\n"] shortTcp, .fin]
        (accept (fun _ => 0) none) = some c ∧ c.alive = false ∧
      Released (ops bareSite (runTrace bareSite
        [.recv [bytes "GET /FUSE HTTP/1.0\r\n\r\n"] shortTcp, .fin] (accept (fun _ => 0) none))) := by
  have hrun : (run bareSite [.recv [bytes "GET /FUSE HTTP/1.0\r\n\r\n"] shortTcp, .fin]
      (accept (fun _ => 0) none)).map Conn.alive = some false := by
    decide +kernel
  obtain ⟨c, hc, hdead⟩ := Option.map_eq_some_iff.mp hrun
  exact ⟨c, hc, hdead, (released_iff _ _ _ _ c hc hdead).mpr (by decide +kernel)⟩

/-- The connection breaks before the header is complete: the block stays behind. -/
theorem bareSite_not_released :
    ¬ Released (ops bareSite (runTrace bareSite
      [.recv [bytes "GET /FUSE HTTP/1.0\r\n"] shortTcp, .err] (accept (fun _ => 0) none))) := by
  have hops : ops bareSite (runTrace bareSite
      [.recv [bytes "GET /FUSE HTTP/1.0\r\n"] shortTcp, .err] (accept (fun _ => 0) none))
      = [.malloc .fuses, .free] := by
    decide +kernel
  rw [hops]
  intro hr
  cases hr

end Xell.Httpd
