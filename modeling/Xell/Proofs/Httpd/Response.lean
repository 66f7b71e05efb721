/-
A request has one response, however it arrives and however the answer is sent.

The parser's state after some bytes does not depend on how they were cut into segments, since
it takes them one at a time and the server does nothing before the last of them.  From then on
the response is fixed: what was put so far and `rest` together are the text of `respond`, and
a turn of the server only moves the border between the two.  TCP has taken a part of what was
put, so that it is the front of that same text in every run.
-/
import Xell.Lib.Gives
import Xell.Proofs.Httpd.Connection
import Xell.Proofs.Httpd.Turns

namespace Xell.Httpd

/-- Every file with primitives has its `%` in pairs. -/
def AllPaired (site : Site) : Prop := ∀ f ∈ site.vfs, ¬f.flags &&& 1 = 0 → Paired f 0

/-! ### Choosing the handler -/

/-- The private data with which a handler starts on its response. -/
structure Begins (site : Site) (R : Response) (p : Option Priv) : Prop where
  fields : fieldsRest (some R.handler) p = R.fields
  body : privRest site p = R.body
  ready : AllPaired site → Matches R.handler p

/-- `R` was chosen in state `h`, and what else the response depends on is as it was. -/
structure Chooses (site : Site) (R : Response) (h h' : HttpState) : Prop where
  handler : h'.handler = some R.handler
  code : h'.code = R.code
  begins : Begins site R h'.responsePriv
  server : h'.stateServer = h.stateServer
  descr : h'.codeDescr = h.codeDescr
  std : h'.stdHeaderState = h.stdHeaderState
  written : h'.written = h.written
  line : h'.linebuffer = h.linebuffer

theorem static_begins (site : Site) (hd : Handler) (hmem : hd ≠ .mem) (hvfs : hd ≠ .vfs)
    (code : Nat) (text : List UInt8) :
    Begins site (staticResponse hd code text) (some (.static text 0 text.length)) where
  fields := by
    cases hd with
    | mem => exact absurd rfl hmem
    | vfs => exact absurd rfl hvfs
    | fuses | err400 | err404 => rfl
  body := by
    show (text.drop 0).take text.length = text
    simp
  ready := fun _ => .static hmem hvfs

theorem mem_begins (site : Site) :
    Begins site (memResponse site) (some (.mem 0 (512 * 1024 * 1024) 0 0)) where
  fields := rfl
  body := by simp only [privRest, memResponse, Nat.add_zero, Nat.sub_zero]
  ready := fun _ => .mem (Nat.zero_le _)

theorem vfs_begins {site : Site} {f : VfsEntry} (hf : f ∈ site.vfs) :
    Begins site (vfsResponse f) (some (.vfs f 0 0)) where
  fields := rfl
  body := rfl
  ready := fun hpaired => .vfs (Nat.zero_le _) (hpaired f hf)

section Walk

variable {site : Site} {method path : List UInt8} {h : HttpState} {hd : Handler}
  {hds : List Handler}

theorem findHandler_skip (hr : processRequest site method path h hd = (false, h)) :
    findHandler site method path (hd :: hds) h = findHandler site method path hds h := by
  simp [findHandler, hr]

theorem findHandler_take (h' : HttpState) (hr : processRequest site method path h hd = (true, h')) :
    findHandler site method path (hd :: hds) h = { h' with handler := some hd } := by
  simp [findHandler, hr]

theorem mem_skip (hne : ¬(method = bytes "GET" ∧ path = bytes "/MEM")) :
    processRequest site method path h .mem = (false, h) := by
  unfold processRequest responseMemProcessRequest
  by_cases hget : method = bytes "GET"
  · have hpath : path ≠ bytes "/MEM" := fun hp => hne ⟨hget, hp⟩
    simp [hget, hpath]
  · simp [hget]

theorem fuses_skip (hne : ¬(method = bytes "GET" ∧ path = bytes "/FUSE")) :
    processRequest site method path h .fuses = (false, h) := by
  unfold processRequest responseFusesProcessRequest
  by_cases hget : method = bytes "GET"
  · have hpath : path ≠ bytes "/FUSE" := fun hp => hne ⟨hget, hp⟩
    simp [hget, hpath]
  · simp [hget]

theorem vfs_skip (hnone : requestedFile site method path = none) :
    processRequest site method path h .vfs = (false, h) := by
  unfold requestedFile at hnone
  unfold processRequest responseVfsProcessRequest
  by_cases hget : method = bytes "GET"
  · rw [if_pos hget] at hnone
    simp [hget, hnone]
  · simp [hget]

theorem vfs_take {f : VfsEntry} (hmalloc : site.malloc .vfs = true)
    (hf : requestedFile site method path = some f) :
    f ∈ site.vfs ∧ processRequest site method path h .vfs
      = (true, { h with responsePriv := some (.vfs f 0 0), code := 200 }) := by
  unfold requestedFile at hf
  split at hf
  · rename_i hget
    refine ⟨List.mem_of_find?_eq_some hf, ?_⟩
    simp [processRequest, responseVfsProcessRequest, hget, hf, hmalloc]
  · cases hf

end Walk

/-- With memory for what it asks for, the walk over the handlers ends at the one `route` names. -/
theorem findHandler_route {site : Site} (hmalloc : ∀ hd, site.malloc hd = true)
    (method path : List UInt8) {bad : Bool} {h : HttpState} (hcode : h.code = 400 ↔ bad = true) :
    Chooses site (route site method path bad) h (findHandler site method path httpHandler h) := by
  unfold httpHandler route
  by_cases hM : method = bytes "GET" ∧ path = bytes "/MEM"
  · rw [if_pos hM, findHandler_take { h with
      responsePriv := some (.mem 0 (512 * 1024 * 1024) 0 0), code := 200 }
      (by simp [processRequest, responseMemProcessRequest, hM, hmalloc])]
    exact ⟨rfl, rfl, mem_begins site, rfl, rfl, rfl, rfl, rfl⟩
  rw [if_neg hM, findHandler_skip (mem_skip hM)]
  by_cases hF : method = bytes "GET" ∧ path = bytes "/FUSE"
  · rw [if_pos hF, findHandler_take { h with
      responsePriv := some (.static site.fuses 0 site.fuses.length), code := 200 }
      (by simp [processRequest, responseFusesProcessRequest, responseStaticProcessRequest, hF,
        hmalloc])]
    have hbegins := static_begins site .fuses (by simp) (by simp) 200 site.fuses
    exact ⟨rfl, rfl, hbegins, rfl, rfl, rfl, rfl, rfl⟩
  rw [if_neg hF, findHandler_skip (fuses_skip hF)]
  cases hfile : requestedFile site method path with
  | some f =>
      obtain ⟨hf, htake⟩ := vfs_take (h := h) (hmalloc .vfs) hfile
      rw [findHandler_take _ htake]
      exact ⟨rfl, rfl, vfs_begins hf, rfl, rfl, rfl, rfl, rfl⟩
  | none =>
      rw [findHandler_skip (vfs_skip hfile)]
      by_cases hbad : bad = true
      · have h400 := hcode.mpr hbad
        rw [findHandler_take { h with
          responsePriv := some (.static text400 0 text400.length) }
          (by simp [processRequest, responseErr400ProcessRequest, responseStaticProcessRequest,
            h400, hmalloc])]
        simp only [hbad, if_true]
        have hbegins := static_begins site .err400 (by simp) (by simp) 400 text400
        exact ⟨rfl, h400, hbegins, rfl, rfl, rfl, rfl, rfl⟩
      · have h400 : h.code ≠ 400 := fun hc => hbad (hcode.mp hc)
        have hskip : processRequest site method path h .err400 = (false, h) := by
          simp [processRequest, responseErr400ProcessRequest, h400]
        rw [findHandler_skip hskip,
          findHandler_take { h with
            responsePriv := some (.static text404 0 text404.length), code := 404 }
          (by simp [processRequest, responseErr404ProcessRequest, responseStaticProcessRequest,
            hmalloc])]
        simp only [hbad]
        have hbegins := static_begins site .err404 (by simp) (by simp) 404 text404
        exact ⟨rfl, rfl, hbegins, rfl, rfl, rfl, rfl, rfl⟩

/-! ### The parser -/

/-- What a character does to the line buffer. -/
def pushed (buf : List UInt8) (c : UInt8) : List UInt8 :=
  if buf.length < maxLinesize then buf ++ [c] else buf

theorem receiveChar_eq (c : UInt8) (h : HttpState) :
    receiveChar c h = if c = 0x0d then (h, none)
      else if c = 0x0a then ({ h with linebuffer := [] }, some (pushed h.linebuffer c))
      else ({ h with linebuffer := pushed h.linebuffer c }, none) :=
  rfl

theorem lineSeen_snoc (seen : List UInt8) (c : UInt8) :
    lineSeen (seen ++ [c]) = if c = 0x0d then lineSeen seen else pushed (lineSeen seen) c := by
  unfold lineSeen pushed
  rw [List.filter_append]
  by_cases hc : c = 0x0d
  · simp [hc]
  · rw [if_neg hc, List.length_take, List.take_append]
    have hfilter : [c].filter (· ≠ 0x0d) = [c] := by simp [hc]
    rw [hfilter]
    generalize List.filter (· ≠ 0x0d) seen = text
    split
    · rw [List.take_of_length_le (l := [c]) (by rw [List.length_singleton]; omega)]
    · rw [show maxLinesize - text.length = 0 by omega]
      simp

/-- With `buf` in the line buffer, the bytes to come end the header, and end with it. -/
def Ends : List UInt8 → List UInt8 → Prop
  | _, [] => False
  | buf, c :: cs =>
      if c = 0x0d then Ends buf cs
      else if c = 0x0a then
        if (pushed buf c).head? = some 0x0a then cs = [] else Ends [] cs
      else Ends (pushed buf c) cs

theorem ends_blank {blank : List UInt8} (hb : ∀ c ∈ blank, c = 0x0d) :
    Ends [] (blank ++ [0x0a]) := by
  induction blank with
  | nil => simp [Ends, pushed, maxLinesize]
  | cons c cs ih =>
      have hc := hb c List.mem_cons_self
      rw [List.cons_append]
      unfold Ends
      rw [if_pos hc]
      exact ih fun c' hc' => hb c' (List.mem_cons_of_mem _ hc')

theorem pushed_ne_nil (buf : List UInt8) (c : UInt8) : pushed buf c ≠ [] := by
  unfold pushed
  split
  · simp
  · rename_i hfull
    intro hnil
    rw [hnil] at hfull
    exact hfull (Nat.succ_pos _)

/-- A line with something in it is followed by more lines. -/
theorem ends_line {buf l tail : List UInt8} (hbuf : 0x0a ∉ buf) (hl : 0x0a ∉ l)
    (hne : buf ≠ [] ∨ ∃ c ∈ l, c ≠ 0x0d) (htail : Ends [] tail) :
    Ends buf (l ++ [0x0a] ++ tail) := by
  induction l generalizing buf with
  | nil =>
      have hbuf' : buf ≠ [] := by
        rcases hne with hne | ⟨c, hc, -⟩
        · exact hne
        · cases hc
      obtain ⟨b, bs, rfl⟩ := List.exists_cons_of_ne_nil hbuf'
      have hb : b ≠ 0x0a := fun hb => hbuf (by simp [hb])
      show Ends (b :: bs) (0x0a :: tail)
      unfold Ends
      rw [if_neg (by decide), if_pos rfl, if_neg ?_]
      · exact htail
      · unfold pushed
        split <;> simp [hb]
  | cons c l ih =>
      have hl' : 0x0a ∉ l := fun hmem => hl (List.mem_cons_of_mem _ hmem)
      have hc : c ≠ 0x0a := fun hc => hl (by simp [hc])
      show Ends buf (c :: (l ++ [0x0a] ++ tail))
      unfold Ends
      split
      · rename_i hcr
        refine ih hbuf hl' ?_
        rcases hne with hne | ⟨c', hmem, hne⟩
        · exact .inl hne
        · rcases List.mem_cons.mp hmem with rfl | hmem
          · exact absurd hcr hne
          · exact .inr ⟨c', hmem, hne⟩
      · refine ih ?_ hl' (.inl (pushed_ne_nil buf c))
        unfold pushed
        split
        · simp [hbuf, Ne.symm hc]
        · exact hbuf

theorem Stream.ends (s : Stream) : Ends [] s.tail := by
  have hlines : ∀ ls : List (List UInt8), (∀ l ∈ ls, 0x0a ∉ l ∧ ∃ c ∈ l, c ≠ 0x0d) →
      Ends [] ((ls.flatMap fun l => l ++ [0x0a]) ++ (s.blank ++ [0x0a])) := by
    intro ls
    induction ls with
    | nil =>
        intro _
        exact ends_blank s.blank_line
    | cons l ls ih =>
        intro hls
        obtain ⟨hl, hne⟩ := hls l List.mem_cons_self
        rw [List.flatMap_cons, List.append_assoc]
        exact ends_line List.not_mem_nil hl (.inr hne)
          (ih fun l' hl' => hls l' (List.mem_cons_of_mem _ hl'))
  refine hlines s.headers fun l hl => ⟨s.header_line l hl, ?_⟩
  obtain ⟨c, hc, -⟩ := s.header_start l hl
  have hmem := List.mem_of_mem_head? hc
  rw [List.mem_filter] at hmem
  exact ⟨c, hmem.1, by simpa using hmem.2⟩

/-! ### Where a connection stands -/

/-- No part of a response has been made. -/
structure Quiet (h : HttpState) : Prop where
  server : h.stateServer = .idle
  descr : h.codeDescr = none
  std : h.stdHeaderState = 0
  written : h.written = []

/-- Nothing but a part of the request line has come in. -/
structure Fresh (h : HttpState) : Prop extends Quiet h where
  client : h.stateClient = .request
  code : h.code = 500

/-- The handler is chosen, and the response will be `R`. -/
structure Chosen (site : Site) (R : Response) (h : HttpState) : Prop where
  client : h.stateClient = .header
  server : h.stateServer = .idle
  code : h.code = R.code
  handler : h.handler = some R.handler
  text : h.written ++ rest site { h with stateServer := .response } = R.text
  nothing : h.written = []
  ready : AllPaired site → Matches R.handler h.responsePriv

/-- The response `R` is on its way: what was put and what is to come make it up. -/
structure Serving (site : Site) (R : Response) (h : HttpState) : Prop where
  client : h.stateClient = .data
  server : h.stateServer ≠ .idle
  code : h.code = R.code
  handler : h.handler = some R.handler ∨ h.handler = none ∧ h.stateServer = .close
  text : h.written ++ rest site h = R.text
  ready : AllPaired site → Ready h

/-- Where a connection stands with the bytes `todo` of the stream still to be received. -/
inductive Phase (site : Site) (s : Stream) : List UInt8 → HttpState → Prop
  | request {seen todo : List UInt8} {h : HttpState} (hseen : s.request = seen ++ todo)
      (hfresh : Fresh h) (hline : h.linebuffer = lineSeen seen) :
      Phase site s (todo ++ [0x0a] ++ s.tail) h
  | header {todo : List UInt8} {h : HttpState} (hends : Ends h.linebuffer todo)
      (hchosen : Chosen site (respond site s.request) h) : Phase site s todo h
  | data {h : HttpState} (hserving : Serving site (respond site s.request) h) : Phase site s [] h

theorem Chooses.chosen {site : Site} {R : Response} {h h' : HttpState} (hq : Quiet h)
    (hc : Chooses site R h h') : Chosen site R { h' with stateClient := .header } where
  client := rfl
  server := hc.server.trans hq.server
  code := hc.code
  handler := hc.handler
  nothing := hc.written.trans hq.written
  text := by
    rw [rest_eq.1 rfl]
    simp [hc.written, hq.written, statusRest, headerRest, bodyRest, hc.code, hc.descr, hq.descr,
      hc.std, hq.std, hc.handler, hc.begins.fields, hc.begins.body, stdRest, Response.text,
      statusLine]
  ready := hc.begins.ready

/-- The end of the request line chooses the handler. -/
theorem receiveRequest_chosen {site : Site} (hmalloc : ∀ hd, site.malloc hd = true)
    {line : List UInt8} {h : HttpState} (hfresh : Fresh h) (hline : h.linebuffer = lineSeen line) :
    Chosen site (respond site line) (receiveRequest site 0x0a h) ∧
      (receiveRequest site 0x0a h).linebuffer = [] := by
  have hpush := lineSeen_snoc line 0x0a
  rw [if_neg (by decide)] at hpush
  unfold receiveRequest
  rw [receiveChar_eq, if_neg (by decide), if_pos rfl, hline, ← hpush]
  dsimp only
  generalize hr : splitRequest (lineSeen (line ++ [0x0a])) = r
  generalize hbad : badRequest r.2.1 r.2.2 = bad
  -- the state in which the handlers are asked
  generalize hh : (if bad = true then { h with linebuffer := [], code := 400 }
    else { h with linebuffer := [] } : HttpState) = h₁
  have hquiet : Quiet h₁ := by
    rw [← hh]
    cases bad with
    | true => exact ⟨hfresh.server, hfresh.descr, hfresh.std, hfresh.written⟩
    | false => exact ⟨hfresh.server, hfresh.descr, hfresh.std, hfresh.written⟩
  have hline₁ : h₁.linebuffer = [] := by
    rw [← hh]
    cases bad <;> rfl
  have hcode : h₁.code = 400 ↔ bad = true := by
    rw [← hh]
    cases bad with
    | true => simp
    | false => simp [hfresh.code]
  have hchooses := findHandler_route hmalloc r.1 (if bad = true then [] else r.2.1) hcode
  have hroute : route site r.1 (if bad = true then [] else r.2.1) bad = respond site line := by
    simp only [respond, hr, hbad]
  rw [hroute] at hchooses
  exact ⟨hchooses.chosen hquiet, hchooses.line.trans hline₁⟩

theorem receiveRequest_end {site : Site} (hmalloc : ∀ hd, site.malloc hd = true) {s : Stream}
    {h : HttpState} (hfresh : Fresh h) (hline : h.linebuffer = lineSeen s.request) :
    Phase site s s.tail (receiveRequest site 0x0a h) := by
  obtain ⟨hchosen, hempty⟩ := receiveRequest_chosen hmalloc hfresh hline
  refine .header ?_ hchosen
  rw [hempty]
  exact s.ends

/-- Before its end, the request line is only collected. -/
theorem receiveRequest_more (site : Site) {seen : List UInt8} {c : UInt8} {h : HttpState}
    (hc : c ≠ 0x0a) (hfresh : Fresh h) (hline : h.linebuffer = lineSeen seen) :
    Fresh (receiveRequest site c h) ∧
      (receiveRequest site c h).linebuffer = lineSeen (seen ++ [c]) := by
  rw [lineSeen_snoc]
  unfold receiveRequest
  rw [receiveChar_eq, if_neg hc]
  by_cases hcr : c = 0x0d
  · rw [if_pos hcr, if_pos hcr]
    exact ⟨hfresh, hline⟩
  · rw [if_neg hcr, if_neg hcr]
    refine ⟨⟨⟨hfresh.server, hfresh.descr, hfresh.std, hfresh.written⟩, hfresh.client,
      hfresh.code⟩, ?_⟩
    show pushed h.linebuffer c = _
    rw [hline]

theorem Chosen.setLine {site : Site} {R : Response} {h : HttpState} (hc : Chosen site R h)
    (line : List UInt8) : Chosen site R { h with linebuffer := line } :=
  ⟨hc.client, hc.server, hc.code, hc.handler, hc.text, hc.nothing, hc.ready⟩

/-- The end of the header starts the response. -/
theorem Chosen.serving {site : Site} {R : Response} {h : HttpState} (hc : Chosen site R h) :
    Serving site R { h with linebuffer := [], stateClient := .data, stateServer := .response } where
  client := rfl
  server := by simp
  code := hc.code
  handler := .inl hc.handler
  text := hc.text
  ready := fun hpaired => .inr ⟨_, hc.handler, hc.ready hpaired⟩

theorem receiveHeader_phase {site : Site} {s : Stream} {c : UInt8} {cs : List UInt8}
    {h : HttpState} (hends : Ends h.linebuffer (c :: cs))
    (hchosen : Chosen site (respond site s.request) h) :
    ∃ h', receiveHeader c h = some h' ∧ Phase site s cs h' := by
  unfold Ends at hends
  unfold receiveHeader
  rw [receiveChar_eq]
  by_cases hcr : c = 0x0d
  · rw [if_pos hcr] at hends ⊢
    exact ⟨h, rfl, .header hends hchosen⟩
  rw [if_neg hcr] at hends ⊢
  by_cases hnl : c = 0x0a
  · rw [if_pos hnl] at hends ⊢
    dsimp only
    by_cases hempty : (pushed h.linebuffer c).head? = some 0x0a
    · rw [if_pos hempty] at hends ⊢
      subst hends
      refine ⟨_, ?_, .data hchosen.serving⟩
      simp [startResponse, hchosen.handler]
    · rw [if_neg hempty] at hends ⊢
      refine ⟨_, ?_, .header hends (hchosen.setLine [])⟩
      simp [hchosen.handler]
  · rw [if_neg hnl] at hends ⊢
    exact ⟨_, rfl, .header hends (hchosen.setLine _)⟩

/-- The next byte of the stream, in whatever segment it comes. -/
theorem receiveByte_phase {site : Site} (hmalloc : ∀ hd, site.malloc hd = true) {s : Stream}
    {c : UInt8} {cs : List UInt8} {h : HttpState} (hphase : Phase site s (c :: cs) h) :
    ∃ h', receiveByte site c h = some h' ∧ Phase site s cs h' := by
  generalize hbytes : c :: cs = bs at hphase
  unfold receiveByte
  cases hphase with
  | @request seen todo _ hseen hfresh hline =>
      rw [hfresh.client]
      refine ⟨_, rfl, ?_⟩
      cases todo with
      | nil =>
          obtain ⟨rfl, rfl⟩ : c = 0x0a ∧ cs = s.tail := by simpa using hbytes
          rw [show seen = s.request by simp [hseen]] at hline
          exact receiveRequest_end hmalloc hfresh hline
      | cons c' todo =>
          obtain ⟨rfl, rfl⟩ : c = c' ∧ cs = todo ++ [0x0a] ++ s.tail := by simpa using hbytes
          have hne : c ≠ 0x0a := by
            intro heq
            refine s.request_line ?_
            rw [hseen, heq]
            simp
          obtain ⟨hfresh', hline'⟩ := receiveRequest_more site hne hfresh hline
          exact .request (by simp [hseen]) hfresh' hline'
  | header hends hchosen =>
      rw [hchosen.client]
      rw [← hbytes] at hends
      exact receiveHeader_phase hends hchosen
  | data hserving => cases hbytes

theorem receiveLoop_phase {site : Site} (hmalloc : ∀ hd, site.malloc hd = true) {s : Stream}
    {data todo : List UInt8} {h : HttpState} (hphase : Phase site s (data ++ todo) h) :
    ∃ h', receiveLoop site data h = some h' ∧ Phase site s todo h' := by
  induction data generalizing h with
  | nil => exact ⟨h, rfl, hphase⟩
  | cons c cs ih =>
      obtain ⟨h₁, hbyte, hphase₁⟩ := receiveByte_phase hmalloc hphase
      obtain ⟨h', hloop, hphase'⟩ := ih hphase₁
      refine ⟨h', ?_, hphase'⟩
      unfold receiveLoop
      rw [hbyte]
      exact hloop

/-! ### The server and the callbacks -/

/-- The server gives up its handler at the end, and not before. -/
theorem serverStep_handler {site : Site} {h h' : HttpState} {stop : Bool} (hi : Indexed h)
    (hr : serverStep site h = some (stop, h')) :
    (h.stateServer = .close → h'.handler = none ∧ h'.stateServer = .close) ∧
      (h.stateServer ≠ .close → h'.handler = h.handler) ∧
      (h.stateServer ≠ .idle → h'.stateServer ≠ .idle) := by
  cases serverStep_turn hr with
  | idle hs => exact ⟨fun hc => (by rw [hs] at hc; cases hc), fun _ => rfl, id⟩
  | full hs hsent =>
      obtain ⟨-, rfl⟩ := sendStatus_full hsent
      exact ⟨fun hc => (by rw [hs] at hc; cases hc), fun _ => rfl, id⟩
  | status hs hsent =>
      obtain ⟨-, hheader, hhandler, -⟩ := sendStatus_sent hsent
      exact ⟨fun hc => (by rw [hs] at hc; cases hc), fun _ => hhandler, fun _ => by simp [hheader]⟩
  | done w =>
      obtain ⟨hs, hnext⟩ := w.working
      refine ⟨fun hc => ?_, fun _ => w.handler hi, fun _ => ?_⟩
      · rcases hs with hs | hs <;> simp [hs] at hc
      · rcases hnext with rfl | rfl <;> simp
  | waits w =>
      refine ⟨fun hc => ?_, fun _ => w.handler hi, fun hne => ?_⟩
      · rcases w.working.1 with hs | hs <;> simp [hs] at hc
      · exact fun hidle => hne ((w.server hi).symm.trans hidle)
  | again w =>
      refine ⟨fun hc => ?_, fun _ => w.handler hi, fun hne => ?_⟩
      · rcases w.working.1 with hs | hs <;> simp [hs] at hc
      · exact fun hidle => hne ((w.server hi).symm.trans hidle)
  | close hs => exact ⟨fun _ => ⟨rfl, hs⟩, fun hne => absurd hs hne, fun hne => hne⟩

theorem Serving.step {site : Site} {R : Response} {h h' : HttpState} {stop : Bool}
    (hi : Indexed h) (hs : Serving site R h) (hr : serverStep site h = some (stop, h')) :
    Serving site R h' := by
  obtain ⟨d, e, hrest⟩ := serverStep_sends hi hr
  obtain ⟨hclose, hkeep, hidle⟩ := serverStep_handler hi hr
  refine ⟨e.client.trans hs.client, hidle hs.server, e.code.trans hs.code, ?_, ?_, ?_⟩
  · by_cases hc : h.stateServer = .close
    · exact .inr (hclose hc)
    · rw [hkeep hc]
      rcases hs.handler with hh | ⟨-, hc'⟩
      · exact .inl hh
      · exact absurd hc' hc
  · rw [e.written, List.append_assoc, ← hrest]
    exact hs.text
  · intro hpaired
    obtain ⟨stop', h₁, hr', hready⟩ := serverStep_total site hi (hs.ready hpaired)
    rw [hr] at hr'
    cases hr'
    exact hready

/-- The ring and the place in the stream of a connection. -/
structure Standing (site : Site) (s : Stream) (todo accepted : List UInt8) (h : HttpState) :
    Prop where
  ring : RingOK accepted h
  phase : Phase site s todo h

theorem handleServer_idle {site : Site} {h : HttpState} (hs : h.stateServer = .idle) :
    handleServer site h = some h := by
  simp [handleServer, handleServerLoop, serverStep, hs]

theorem handleServer_gives {site : Site} {s : Stream} {todo accepted : List UInt8} {h : HttpState}
    (hst : Standing site s todo accepted h) :
    Gives (AllPaired site) (handleServer site h) (Standing site s todo accepted) := by
  obtain ⟨hring, hphase⟩ := hst
  cases hphase with
  | request hseen hfresh hline =>
      rw [handleServer_idle hfresh.server]
      exact .some ⟨hring, .request hseen hfresh hline⟩
  | header hends hchosen =>
      rw [handleServer_idle hchosen.server]
      exact .some ⟨hring, .header hends hchosen⟩
  | data hserving =>
      constructor
      · intro h' hr
        refine ⟨handleServer_ring hring hr, .data ?_⟩
        refine (handleServerLoop_keeps (P := fun h => Indexed h ∧
          Serving site (respond site s.request) h) ?_ ⟨hring.indexed, hserving⟩ hr).2
        rintro h₁ h₂ stop ⟨hi, hserving₁⟩ hstep
        obtain ⟨d, e, -⟩ := serverStep_sends hi hstep
        exact ⟨e.indexed hi, hserving₁.step hi hstep⟩
      · intro hpaired
        obtain ⟨h', hr, -⟩ := handleServer_total site hring.indexed
          (hserving.ready hpaired)
        exact ⟨h', hr⟩

theorem receivePbufs_gives {site : Site} (hmalloc : ∀ hd, site.malloc hd = true) {s : Stream}
    {qs : List (List UInt8)} {todo accepted : List UInt8} {h : HttpState}
    (hst : Standing site s (qs.flatten ++ todo) accepted h) :
    Gives (AllPaired site) (receivePbufs site qs h) (Standing site s todo accepted) := by
  induction qs generalizing h with
  | nil => exact .some hst
  | cons q qs ih =>
      rw [List.flatten_cons, List.append_assoc] at hst
      obtain ⟨h₁, hloop, hphase⟩ := receiveLoop_phase hmalloc hst.phase
      have hring := hst.ring.same (receiveLoop_same hloop)
      unfold receivePbufs receive
      rw [hloop, Option.bind_some]
      exact (handleServer_gives ⟨hring, hphase⟩).bind fun h' hst' => ih hst'

/-- Neither the place TCP has read to nor the retries are in a phase. -/
theorem Phase.unread {site : Site} {s : Stream} {todo : List UInt8} {h : HttpState}
    (hphase : Phase site s todo h) (read retries : Nat) :
    Phase site s todo { h with sendbufferRead := read, retries := retries } := by
  cases hphase with
  | request hseen hfresh hline =>
      exact .request hseen ⟨⟨hfresh.server, hfresh.descr, hfresh.std, hfresh.written⟩,
        hfresh.client, hfresh.code⟩ hline
  | header hends hchosen =>
      exact .header hends ⟨hchosen.client, hchosen.server, hchosen.code, hchosen.handler,
        hchosen.text, hchosen.nothing, hchosen.ready⟩
  | data hserving =>
      exact .data ⟨hserving.client, hserving.server, hserving.code, hserving.handler,
        hserving.text, hserving.ready⟩

/-- A connection that has `todo` of the stream before it, or was closed somewhere on the way. -/
structure Follows (site : Site) (s : Stream) (todo : List UInt8) (c : Conn) : Prop where
  ring : c.RingOK
  phase : ∃ left, Phase site s left c.http ∧ (c.alive = true → left = todo)

theorem Follows.closed {site : Site} {s : Stream} {todo left : List UInt8} {c : Conn}
    (hring : c.RingOK) (hphase : Phase site s left c.http) : Follows site s todo c.closed :=
  ⟨hring, left, hphase, (fun halive => by cases halive)⟩

theorem sendData_gives {site : Site} {s : Stream} {todo : List UInt8} (tcp : Tcp) {c : Conn}
    (hst : Standing site s todo c.accepted c.http) :
    Gives (AllPaired site) (sendData site tcp c) (Follows site s todo) := by
  refine (handleServer_gives hst).map fun h hst' => ?_
  exact ⟨hst'.ring.sendRing tcp, todo, hst'.phase.unread _ h.retries, fun _ => rfl⟩

/-- The bytes an event brings. -/
def Event.bytes : Event → List UInt8
  | .recv pbufs _ => pbufs.flatten
  | _ => []

/-- The bytes received in a run. -/
def received (es : List Event) : List UInt8 := es.flatMap Event.bytes

theorem step_gives {site : Site} (hmalloc : ∀ hd, site.malloc hd = true) {s : Stream} (e : Event)
    {todo : List UInt8} {c : Conn} (hf : Follows site s (e.bytes ++ todo) c) :
    Gives (AllPaired site) (step site e c) (Follows site s todo) := by
  obtain ⟨hring, left, hphase, hleft⟩ := hf
  unfold step
  split
  · rename_i hdead
    exact .some ⟨hring, left, hphase, fun halive => by rw [hdead] at halive; cases halive⟩
  · rename_i halive
    obtain rfl := hleft (by simpa using halive)
    have hretries : ∀ n, Standing site s (e.bytes ++ todo) c.accepted
        { c.http with retries := n } :=
      fun n => ⟨RingOK.same hring ⟨rfl, rfl, rfl, rfl⟩, hphase.unread c.http.sendbufferRead n⟩
    cases e with
    | recv pbufs tcp =>
        exact (receivePbufs_gives hmalloc ⟨hring, hphase⟩).bind fun h hst =>
          sendData_gives tcp (c := { c with http := h }) hst
    | sent tcp =>
        unfold httpSent
        dsimp only
        split
        · exact sendData_gives tcp (c := { c with http := { c.http with retries := 0 } })
            (hretries 0)
        · exact .some (.closed (c := { c with http := { c.http with retries := 0 } })
            (hretries 0).ring (hretries 0).phase)
    | poll tcp =>
        unfold httpPoll
        dsimp only
        split
        · split
          · exact .some (.closed
              (c := { c with http := { c.http with retries := c.http.retries + 1 } })
              (hretries _).ring (hretries _).phase)
          · exact sendData_gives tcp
              (c := { c with http := { c.http with retries := c.http.retries + 1 } }) (hretries _)
        · exact .some ⟨hring, todo, hphase, fun _ => rfl⟩
    | sendData tcp => exact sendData_gives tcp ⟨hring, hphase⟩
    | fin => exact .some (.closed hring hphase)
    | err => exact .some (.closed hring hphase)

theorem run_gives {site : Site} (hmalloc : ∀ hd, site.malloc hd = true) {s : Stream}
    {es : List Event} {todo : List UInt8} {c : Conn}
    (hf : Follows site s (received es ++ todo) c) :
    Gives (AllPaired site) (run site es c) (Follows site s todo) := by
  induction es generalizing c with
  | nil => exact .some hf
  | cons e es ih =>
      have hbytes : received (e :: es) ++ todo = e.bytes ++ (received es ++ todo) := by
        simp [received]
      rw [hbytes] at hf
      exact (step_gives hmalloc e hf).bind fun c' hf' => ih hf'

/-! ### One response -/

/-- What a connection shows of the response `R`. -/
structure Answers (R : Response) (c : Conn) : Prop where
  /-- TCP was given the front of it. -/
  accepted : c.accepted <+: R.text
  /-- After the request line the status code is settled. -/
  code : c.http.stateClient ≠ .request → c.http.code = R.code
  /-- So is the handler, until it is finished with. -/
  handler : c.http.stateClient ≠ .request →
    c.http.handler = some R.handler ∨ c.http.handler = none ∧ c.http.stateServer = .close
  /-- At the end all of it is sent or in the ring. -/
  complete : c.http.stateServer = .close → c.accepted ++ queued c.http = R.text

theorem Follows.answers {site : Site} {s : Stream} {todo : List UInt8} {c : Conn}
    (hf : Follows site s todo c) : Answers (respond site s.request) c := by
  obtain ⟨⟨hi, hkept⟩, left, hphase, -⟩ := hf
  have hfront : c.accepted <+: c.http.written := ⟨queued c.http, hkept⟩
  generalize hc : c.http = h at hphase
  rw [hc] at hkept hfront
  cases hphase with
  | request hseen hfresh hline =>
      rw [hfresh.written] at hfront
      refine ⟨hfront.trans List.nil_prefix, ?_, ?_, ?_⟩ <;> rw [hc]
      · exact fun hne => absurd hfresh.client hne
      · exact fun hne => absurd hfresh.client hne
      · rw [hfresh.server]
        exact fun hclose => by cases hclose
  | header hends hchosen =>
      rw [hchosen.nothing] at hfront
      refine ⟨hfront.trans List.nil_prefix, ?_, ?_, ?_⟩ <;> rw [hc]
      · exact fun _ => hchosen.code
      · exact fun _ => .inl hchosen.handler
      · rw [hchosen.server]
        exact fun hclose => by cases hclose
  | data hserving =>
      refine ⟨hfront.trans ⟨_, hserving.text⟩, ?_, ?_, ?_⟩ <;> rw [hc]
      · exact fun _ => hserving.code
      · exact fun _ => hserving.handler
      · intro hclose
        rw [hkept, ← hserving.text]
        simp [rest, hclose]

theorem accept_follows (site : Site) (s : Stream) (sendbuffer : Mem UInt8) (priv : Option Priv) :
    Follows site s s.bytes (accept sendbuffer priv) where
  ring := accept_ring sendbuffer priv
  phase := by
    refine ⟨s.bytes, .request (List.nil_append s.request).symm ?_ rfl, fun _ => rfl⟩
    exact ⟨⟨rfl, rfl, rfl, rfl⟩, rfl, rfl⟩

/-- With nothing left to receive, the response is on its way. -/
theorem Phase.client_data {site : Site} {s : Stream} {h : HttpState}
    (hphase : Phase site s [] h) : h.stateClient = .data := by
  generalize hbytes : ([] : List UInt8) = bs at hphase
  cases hphase with
  | request hseen hfresh hline => simp at hbytes
  | header hends hchosen =>
      rw [← hbytes] at hends
      exact hends.elim
  | data hserving => exact hserving.client

theorem route_cases (site : Site) (method path : List UInt8) (bad : Bool) :
    route site method path bad = memResponse site ∨
      (∃ f, route site method path bad = vfsResponse f) ∨
      ∃ hd code text, hd ≠ .mem ∧ route site method path bad = staticResponse hd code text := by
  unfold route
  split
  · exact .inl rfl
  · split
    · exact .inr (.inr ⟨.fuses, _, _, by simp, rfl⟩)
    · split
      · rename_i f hfile
        exact .inr (.inl ⟨f, rfl⟩)
      · split
        · exact .inr (.inr ⟨.err400, _, _, by simp, rfl⟩)
        · exact .inr (.inr ⟨.err404, _, _, by simp, rfl⟩)

theorem respond_cases (site : Site) (line : List UInt8) :
    respond site line = memResponse site ∨ (∃ f, respond site line = vfsResponse f) ∨
      ∃ hd code text, hd ≠ .mem ∧ respond site line = staticResponse hd code text :=
  route_cases site _ _ _

theorem contentLength_ne : bytes "Content-Length" ≠ bytes "Content-Type" := by decide

/-- A response that gives a length gives that of its body. -/
theorem respond_sized (site : Site) (line : List UInt8) {v : List UInt8}
    (hv : (bytes "Content-Length", v) ∈ (respond site line).fields) :
    v = decimal (respond site line).body.length := by
  rcases respond_cases site line with hR | ⟨f, hR⟩ | ⟨hd, code, text, -, hR⟩ <;>
    rw [hR] at hv ⊢
  · unfold memResponse memFields at hv
    unfold memResponse
    rw [Mem.slice_length]
    simpa only [List.mem_cons, Prod.mk.injEq, contentLength_ne, false_and, true_and, false_or,
      List.not_mem_nil, or_false] using hv
  · unfold vfsResponse at hv ⊢
    by_cases hflag : f.flags &&& 1 = 0
    · rw [vfsFields_static hflag] at hv
      rw [vfsBody_static hflag, Mem.slice_length, Nat.sub_zero]
      simpa only [List.mem_cons, Prod.mk.injEq, contentLength_ne, false_and, true_and, false_or,
        List.not_mem_nil, or_false] using hv
    · rw [vfsFields_dynamic hflag] at hv
      simp only [List.mem_cons, Prod.mk.injEq, contentLength_ne, false_and, List.not_mem_nil,
        or_false] at hv
  · cases hv

/-- The memory and the files without primitives are sent with a length. -/
theorem respond_length {site : Site} {line : List UInt8}
    (hR : (respond site line).handler = .mem ∨
      ∃ f, respond site line = vfsResponse f ∧ f.flags &&& 1 = 0) :
    ∃ v, (bytes "Content-Length", v) ∈ (respond site line).fields := by
  rcases hR with hmem | ⟨f, hR, hflag⟩
  · rcases respond_cases site line with hR | ⟨f, hR⟩ | ⟨hd, code, text, hne, hR⟩
    · rw [hR]
      exact ⟨_, List.mem_cons_of_mem _ List.mem_cons_self⟩
    · rw [hR] at hmem
      cases hmem
    · rw [hR] at hmem
      exact absurd hmem hne
  · rw [hR]
    unfold vfsResponse
    rw [vfsFields_static hflag]
    exact ⟨_, List.mem_cons_of_mem _ List.mem_cons_self⟩

/-- **A request has one response.**  Whatever the segments the stream comes in, and whatever TCP
makes of what it is offered, every run of the connection sends the front of the text of
`respond`, chooses its handler and its status code, and has sent or queued all of it when the
server comes to its end; no run faults unless a file has a `%` without its partner. -/
theorem responses_agree (site : Site) (hmalloc : ∀ hd, site.malloc hd = true) (s : Stream) :
    (∀ (es : List Event) (sendbuffer : Mem UInt8) (priv : Option Priv),
      received es <+: s.bytes →
        (AllPaired site → ∃ c, run site es (accept sendbuffer priv) = some c) ∧
        ∀ c, run site es (accept sendbuffer priv) = some c →
          Answers (respond site s.request) c ∧
          (c.alive = true → received es = s.bytes → c.http.stateClient = .data)) ∧
    (∀ v, (bytes "Content-Length", v) ∈ (respond site s.request).fields →
      v = decimal (respond site s.request).body.length) ∧
    ((respond site s.request).handler = .mem ∨
        (∃ f, respond site s.request = vfsResponse f ∧ f.flags &&& 1 = 0) →
      ∃ v, (bytes "Content-Length", v) ∈ (respond site s.request).fields) := by
  refine ⟨?_, fun v hv => respond_sized site s.request hv, respond_length⟩
  intro es sendbuffer priv hreceived
  obtain ⟨todo, htodo⟩ := hreceived
  have hf := accept_follows site s sendbuffer priv
  rw [← htodo] at hf
  have hrun := run_gives hmalloc hf
  refine ⟨hrun.exists_of, fun c hc => ?_⟩
  have hfollows := hrun.result c hc
  refine ⟨hfollows.answers, fun halive hall => ?_⟩
  obtain ⟨left, hphase, hleft⟩ := hfollows.phase
  have hnil : todo = [] := by
    rw [← hall] at htodo
    simpa using htodo
  rw [hleft halive, hnil] at hphase
  exact hphase.client_data

/-- A console with a text and a page with two primitives. -/
def smallSite : Site where
  memory := fun _ => 0
  fuses := []
  vfs :=
    [{ filename := bytes "/motd"
       data := fun i => (bytes "hello").getD i 0
       len := 5
       mimeType := bytes "text/plain"
       flags := 0
       mapped := 5
       len_le := Nat.le_refl _ },
     { filename := bytes "/index.dhtml"
       data := fun i => (bytes "100%% %fuses%").getD i 0
       len := 13
       mimeType := bytes "text/html"
       flags := 1
       mapped := 13
       len_le := Nat.le_refl _ }]
  malloc := fun _ => true

/-- A browser that asks for the page. -/
def getIndex : Stream where
  request := bytes "GET / HTTP/1.0\r"
  headers := [bytes "Host: xell\r"]
  blank := bytes "\r"
  request_line := by decide
  header_line := by decide
  header_start := by
    intro l hl
    obtain rfl := List.mem_singleton.mp hl
    exact ⟨0x48, by decide, by decide⟩
  blank_line := fun _ hc => List.mem_singleton.mp hc

theorem smallSite_responses_agree :
    ∃ c₁ c₂, run smallSite [.recv [getIndex.bytes] shortTcp, .sent shortTcp]
        (accept (fun _ => 0) none) = some c₁ ∧
      run smallSite [.recv [bytes "GET / HT"] shortTcp, .poll shortTcp,
          .recv [bytes "TP/1.0\r\nHost: xell\r", bytes "\n\r\n"] ⟨4096, fun _ => .ok⟩]
        (accept (fun _ => 1) none) = some c₂ ∧
      Answers (respond smallSite getIndex.request) c₁ ∧
      Answers (respond smallSite getIndex.request) c₂ := by
  have hpaired : AllPaired smallSite := by
    intro f hf hflag
    rcases List.mem_cons.mp hf with rfl | hf
    · exact absurd rfl hflag
    · obtain rfl := List.mem_singleton.mp hf
      exact ⟨Nat.zero_le _, by decide⟩
  obtain ⟨hruns, -, -⟩ := responses_agree smallSite (fun _ => rfl) getIndex
  obtain ⟨hex₁, hall₁⟩ := hruns [.recv [getIndex.bytes] shortTcp, .sent shortTcp]
    (fun _ => 0) none (by decide)
  obtain ⟨hex₂, hall₂⟩ := hruns [.recv [bytes "GET / HT"] shortTcp, .poll shortTcp,
    .recv [bytes "TP/1.0\r\nHost: xell\r", bytes "\n\r\n"] ⟨4096, fun _ => .ok⟩]
    (fun _ => 1) none (by decide)
  obtain ⟨c₁, hc₁⟩ := hex₁ hpaired
  obtain ⟨c₂, hc₂⟩ := hex₂ hpaired
  exact ⟨c₁, c₂, hc₁, hc₂, (hall₁ c₁ hc₁).1, (hall₂ c₂ hc₂).1⟩

end Xell.Httpd
