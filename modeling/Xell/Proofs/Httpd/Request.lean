/-
The request line: which lines are requests, and what they are answered with.

The line is collected byte by byte, without its `\r` and no further than the line buffer
reaches, and is then a C string that two loops cut at its blanks.  `Accepted` is the grammar
without the loops: a method, a blank, a path that is not empty, a blank, and a version that
starts with `HTTP/1.`.  `Answered` is the routing without the handlers: what is no request gets
a 400, what is served a 200, and everything else a 404.

The cuts of the parser find exactly the lines of the grammar, and the code that the walk over
the handlers leaves behind is the one of the routing, from the first place after the line on and
for as long as the connection is there.
-/
import Xell.Proofs.Httpd.Linked

namespace Xell.Httpd

/-! ### The grammar -/

/-- What the parser sees of the request line `l`, as a C string. -/
def requestText (l : List UInt8) : List UInt8 := (lineSeen (l ++ [0x0a])).takeWhile (· ≠ 0)

/-- A request: the two blanks are the first ones of the line. -/
def Accepted (text method path : List UInt8) : Prop :=
  ∃ version, text = method ++ 0x20 :: (path ++ 0x20 :: version) ∧ 0x20 ∉ method ∧ 0x20 ∉ path ∧
    path ≠ [] ∧ bytes "HTTP/1." <+: version

/-- `GET` of a path that one of the handlers has; `/` stands for `/index.dhtml`. -/
def Provided (site : Site) (method path : List UInt8) : Prop :=
  method = bytes "GET" ∧ (path = bytes "/MEM" ∨ path = bytes "/FUSE" ∨
    ∃ f ∈ site.vfs, f.filename = if path = bytes "/" then bytes "/index.dhtml" else path)

/-- The status code for the request line `l`. -/
structure Answered (site : Site) (l : List UInt8) (code : Nat) : Prop where
  bad : code = 400 ↔ ¬ ∃ method path, Accepted (requestText l) method path
  served : ∀ method path, Accepted (requestText l) method path → Provided site method path →
    code = 200
  missing : ∀ method path, Accepted (requestText l) method path → ¬ Provided site method path →
    code = 404

/-! ### The two cuts -/

theorem cutBlank_append {a : List UInt8} (ha : 0x20 ∉ a) (b : List UInt8) :
    cutBlank (a ++ 0x20 :: b) = (a, b) := by
  induction a with
  | nil => rfl
  | cons c a ih =>
      obtain ⟨hc, ha'⟩ : ¬ 0x20 = c ∧ 0x20 ∉ a := by simpa using ha
      rw [List.cons_append]
      unfold cutBlank
      rw [if_neg (Ne.symm hc), ih ha']

/-- Either there is a blank to cut at, or nothing comes after. -/
theorem cutBlank_cases (l : List UInt8) :
    (l = (cutBlank l).1 ++ 0x20 :: (cutBlank l).2 ∧ 0x20 ∉ (cutBlank l).1) ∨
      cutBlank l = (l, []) := by
  induction l with
  | nil => exact Or.inr rfl
  | cons c l ih =>
      unfold cutBlank
      by_cases hc : c = 0x20
      · rw [if_pos hc, hc]
        exact Or.inl ⟨rfl, by simp⟩
      · rw [if_neg hc]
        rcases ih with ⟨hl, hmem⟩ | hnil
        · refine Or.inl ⟨?_, ?_⟩
          · dsimp only
            rw [List.cons_append, ← hl]
          · simp [hmem, Ne.symm hc]
        · rw [hnil]
          exact Or.inr rfl

theorem badRequest_eq_false (path version : List UInt8) :
    badRequest path version = false ↔ path ≠ [] ∧ bytes "HTTP/1." <+: version := by
  have hlen : (bytes "HTTP/1.").length = 7 := by decide
  unfold badRequest
  rw [List.prefix_iff_eq_take, hlen]
  simp only [Bool.or_eq_false_iff, decide_eq_false_iff_not, not_not]
  constructor
  · rintro ⟨⟨hp, -⟩, hv⟩
    exact ⟨hp, hv.symm⟩
  · rintro ⟨hp, hv⟩
    refine ⟨⟨hp, ?_⟩, hv.symm⟩
    intro hnil
    rw [hnil, List.take_nil] at hv
    have hne : bytes "HTTP/1." ≠ [] := by decide
    exact hne hv

/-- **The parser takes exactly the lines of the grammar**, and cuts them as the grammar does. -/
theorem accepted_iff (line method path : List UInt8) :
    Accepted (line.takeWhile (· ≠ 0)) method path ↔
      (splitRequest line).1 = method ∧ (splitRequest line).2.1 = path ∧
        badRequest (splitRequest line).2.1 (splitRequest line).2.2 = false := by
  unfold splitRequest
  dsimp only
  generalize line.takeWhile (· ≠ 0) = text
  rw [badRequest_eq_false]
  constructor
  · rintro ⟨version, rfl, hm, hp, hne, hversion⟩
    rw [cutBlank_append hm, cutBlank_append hp]
    exact ⟨rfl, rfl, hne, hversion⟩
  · rintro ⟨rfl, rfl, hne, hversion⟩
    -- a version is left over, so that both cuts were made at a blank
    rcases cutBlank_cases (cutBlank text).2 with ⟨hsecond, hp⟩ | hnil
    · rcases cutBlank_cases text with ⟨hfirst, hm⟩ | hnil
      · exact ⟨_, by rw [← hsecond, ← hfirst], hm, hp, hne, hversion⟩
      · rw [hnil] at hne
        exact absurd rfl hne
    · rw [hnil] at hversion
      exact absurd (List.prefix_nil.mp hversion) (by decide)

/-! ### The routing -/

theorem requestedFile_isSome (site : Site) (method path : List UInt8) :
    (requestedFile site method path).isSome ↔ method = bytes "GET" ∧
      ∃ f ∈ site.vfs, f.filename = if path = bytes "/" then bytes "/index.dhtml" else path := by
  unfold requestedFile searchFile
  split
  · rename_i hget
    rw [List.find?_isSome]
    simp [hget, eq_comm]
  · rename_i hget
    simp [hget]

theorem route_code (site : Site) (method path : List UInt8) (bad : Bool) :
    (Provided site method path → (route site method path bad).code = 200) ∧
      (¬ Provided site method path →
        (route site method path bad).code = if bad then 400 else 404) := by
  have hfile := requestedFile_isSome site method path
  unfold route Provided
  by_cases hM : method = bytes "GET" ∧ path = bytes "/MEM"
  · rw [if_pos hM]
    exact ⟨fun _ => rfl, fun hn => absurd ⟨hM.1, Or.inl hM.2⟩ hn⟩
  rw [if_neg hM]
  by_cases hF : method = bytes "GET" ∧ path = bytes "/FUSE"
  · rw [if_pos hF]
    exact ⟨fun _ => rfl, fun hn => absurd ⟨hF.1, Or.inr (Or.inl hF.2)⟩ hn⟩
  rw [if_neg hF]
  cases hr : requestedFile site method path with
  | some f =>
      rw [hr] at hfile
      obtain ⟨hget, hf⟩ := hfile.mp rfl
      exact ⟨fun _ => rfl, fun hn => absurd ⟨hget, Or.inr (Or.inr hf)⟩ hn⟩
  | none =>
      rw [hr] at hfile
      refine ⟨?_, fun _ => ?_⟩
      · rintro ⟨hget, hmem | hfuse | hf⟩
        · exact absurd ⟨hget, hmem⟩ hM
        · exact absurd ⟨hget, hfuse⟩ hF
        · cases hfile.mpr ⟨hget, hf⟩
      · cases bad <;> rfl

theorem respond_answered {site : Site} (hvfs : ∀ f ∈ site.vfs, f.filename ≠ []) (l : List UInt8) :
    Answered site l (respond site l).code := by
  have hiff := accepted_iff (lineSeen (l ++ [0x0a]))
  unfold respond
  dsimp only
  generalize hr : splitRequest (lineSeen (l ++ [0x0a])) = r at hiff
  generalize hbad : badRequest r.2.1 r.2.2 = bad at hiff
  cases bad with
  | true =>
      -- no handler has the empty path that stands for a line that is no request
      have hno : ¬ Provided site r.1 [] := by
        rintro ⟨-, hmem | hfuse | ⟨f, hf, hname⟩⟩
        · exact absurd hmem (by decide)
        · exact absurd hfuse (by decide)
        · rw [if_neg (by decide)] at hname
          exact hvfs f hf hname
      have hcode := (route_code site r.1 [] true).2 hno
      have hnone : ∀ m p, ¬ Accepted (requestText l) m p := by
        intro m p ha
        cases ((hiff m p).mp ha).2.2
      refine ⟨⟨fun _ => ?_, fun _ => hcode⟩, ?_, ?_⟩
      · rintro ⟨m, p, ha⟩
        exact hnone m p ha
      · intro m p ha
        exact absurd ha (hnone m p)
      · intro m p ha
        exact absurd ha (hnone m p)
  | false =>
      have hsome : Accepted (requestText l) r.1 r.2.1 := (hiff _ _).mpr ⟨rfl, rfl, rfl⟩
      obtain ⟨hserved, hmissing⟩ := route_code site r.1 r.2.1 false
      refine ⟨⟨fun h400 => ?_, fun hn => absurd ⟨_, _, hsome⟩ hn⟩, ?_, ?_⟩
      · exfalso
        by_cases hs : Provided site r.1 r.2.1
        · exact absurd ((hserved hs).symm.trans h400) (by decide)
        · exact absurd ((hmissing hs).symm.trans h400) (by decide)
      · intro m p ha hs
        obtain ⟨rfl, rfl, -⟩ := (hiff m p).mp ha
        exact hserved hs
      · intro m p ha hs
        obtain ⟨rfl, rfl, -⟩ := (hiff m p).mp ha
        exact hmissing hs

/-! ### The bytes of a connection -/

/-- What the client has sent when the connection ends, or so far. -/
def heard : List Event → List UInt8
  | [] => []
  | .recv pbufs _ :: es => pbufs.flatten ++ heard es
  | .sent _ :: es => heard es
  | .poll _ :: es => heard es
  | .sendData _ :: es => heard es
  | .fin :: _ => []
  | .err :: _ => []

/-- A connection that has been given `bs`: it is still in the request line, or the code was
settled at the end of that line. -/
inductive Heard (site : Site) (bs : List UInt8) (h : HttpState) : Prop
  | line (hline : 0x0a ∉ bs) (hfresh : Fresh h) (hbuf : h.linebuffer = lineSeen bs)
  | settled (l rest : List UInt8) (hbs : bs = l ++ 0x0a :: rest) (hl : 0x0a ∉ l)
      (hcode : h.code = (respond site l).code) (hclient : h.stateClient ≠ .request)
      (hfirst : rest = [] →
        h.stateClient = .header ∧ h.stateServer = .idle ∧ h.linebuffer = [])

theorem line_unique {l l' rest rest' : List UInt8} (hl : 0x0a ∉ l) (hl' : 0x0a ∉ l')
    (h : l ++ 0x0a :: rest = l' ++ 0x0a :: rest') : l = l' ∧ rest = rest' := by
  induction l generalizing l' with
  | nil =>
      cases l' with
      | nil => simpa using h
      | cons c l' =>
          obtain ⟨rfl, -⟩ : 0x0a = c ∧ _ := by simpa using h
          exact absurd List.mem_cons_self hl'
  | cons c l ih =>
      cases l' with
      | nil =>
          obtain ⟨rfl, -⟩ : c = 0x0a ∧ _ := by simpa using h
          exact absurd List.mem_cons_self hl
      | cons c' l' =>
          obtain ⟨rfl, htail⟩ : c = c' ∧ l ++ 0x0a :: rest = l' ++ 0x0a :: rest' := by simpa using h
          obtain ⟨rfl, hrest⟩ := ih (fun hm => hl (List.mem_cons_of_mem _ hm))
            (fun hm => hl' (List.mem_cons_of_mem _ hm)) htail
          exact ⟨rfl, hrest⟩

theorem Heard.byte {site : Site} (hmalloc : ∀ hd, site.malloc hd = true) {bs : List UInt8}
    {c : UInt8} {h h' : HttpState} (hh : Heard site bs h)
    (hr : receiveByte site c h = some h') : Heard site (bs ++ [c]) h' := by
  cases hh with
  | line hline hfresh hbuf =>
      unfold receiveByte at hr
      rw [hfresh.client] at hr
      cases hr
      by_cases hc : c = 0x0a
      · subst hc
        obtain ⟨hchosen, hempty⟩ := receiveRequest_chosen hmalloc hfresh hbuf
        refine .settled bs [] rfl hline hchosen.code ?_ fun _ => ⟨hchosen.client, hchosen.server,
          hempty⟩
        rw [hchosen.client]
        simp
      · obtain ⟨hfresh', hbuf'⟩ := receiveRequest_more site hc hfresh hbuf
        exact .line (by simp [hline, Ne.symm hc]) hfresh' hbuf'
  | settled l rest hbs hl hcode hclient hfirst =>
      have hkept : h'.code = h.code ∧ h'.stateClient ≠ .request := by
        rcases receiveByte_cases hr with ⟨hc, -⟩ | ⟨hc, -⟩ | ⟨hc, l, rfl⟩ | ⟨-, -, l, rfl⟩ |
          ⟨-, -, rfl⟩ | ⟨-, rfl⟩
        · exact absurd hc hclient
        · exact absurd hc hclient
        · exact ⟨rfl, hclient⟩
        · exact ⟨rfl, by simp⟩
        · exact ⟨rfl, hclient⟩
        · exact ⟨rfl, hclient⟩
      refine .settled l (rest ++ [c]) (by simp [hbs]) hl (hkept.1.trans hcode) hkept.2 ?_
      intro hnil
      simp at hnil

theorem Heard.turn {site : Site} {bs : List UInt8} {h h' : HttpState} {stop : Bool}
    (hi : Indexed h) (hh : Heard site bs h) (hr : serverStep site h = some (stop, h')) :
    Heard site bs h' := by
  by_cases hidle : h.stateServer = .idle
  · rw [serverStep_idle hidle] at hr
    cases hr
    exact hh
  · obtain ⟨d, e, -⟩ := serverStep_sends hi hr
    cases hh with
    | line hline hfresh hbuf => exact absurd hfresh.server hidle
    | settled l rest hbs hl hcode hclient hfirst =>
        refine .settled l rest hbs hl (e.code.trans hcode) (by rw [e.client]; exact hclient) ?_
        intro hnil
        exact absurd (hfirst hnil).2.1 hidle

theorem Heard.unread {site : Site} {bs : List UInt8} {h : HttpState} (hh : Heard site bs h)
    (read retries : Nat) :
    Heard site bs { h with sendbufferRead := read, retries := retries } := by
  cases hh with
  | line hline hfresh hbuf =>
      exact .line hline ⟨⟨hfresh.server, hfresh.descr, hfresh.std, hfresh.written⟩, hfresh.client,
        hfresh.code⟩ hbuf
  | settled l rest hbs hl hcode hclient hfirst =>
      exact .settled l rest hbs hl hcode hclient hfirst

/-! ### At every place of a run -/

/-- At every place, the connection has been given what the parser saw before. -/
theorem heard_keeps {site : Site} (hmalloc : ∀ hd, site.malloc hd = true) :
    Keeps site (fun tr h => Heard site (seen tr) h) (fun tr h => Heard site (seen tr) h) where
  enter := fun _ _ hh => hh
  turn := by
    intro tr h h' hi hh hr
    rw [seen_turn]
    exact hh.turn hi hr
  leave := by
    intro tr h h' hi hh hr
    rw [seen_turn]
    exact hh.turn hi hr
  byte := by
    intro tr c h h' hh hr
    rw [seen_byte]
    exact hh.byte hmalloc hr
  unread := fun _ _ read retries hh => hh.unread read retries

theorem accept_heard (site : Site) (sendbuffer : Mem UInt8) (priv : Option Priv) :
    Heard site [] (accept sendbuffer priv).http :=
  .line List.not_mem_nil ⟨⟨rfl, rfl, rfl, rfl⟩, rfl, rfl⟩ rfl

theorem place_heard {site : Site} (hmalloc : ∀ hd, site.malloc hd = true)
    (sendbuffer : Mem UInt8) (priv : Option Priv) {es : List Event} {tr ps : List Point}
    {p : Point} (htr : runTrace site es (accept sendbuffer priv) = tr ++ p :: ps) :
    Heard site (seen tr) p.http :=
  place_keeps (heard_keeps hmalloc) sendbuffer priv (accept_heard site sendbuffer priv) htr

/-- The end of the line asks the handlers for what the grammar says. -/
theorem Heard.asked {site : Site} {l method path : List UInt8} {h : HttpState}
    (hh : Heard site l h) (hl : 0x0a ∉ l) (ha : Accepted (requestText l) method path) :
    ∃ h₁, asked 0x0a h = some (method, path, h₁) := by
  cases hh with
  | line hline hfresh hbuf =>
      obtain ⟨hm, hp, hbad⟩ := (accepted_iff (lineSeen (l ++ [0x0a])) method path).mp ha
      have hpush := lineSeen_snoc l 0x0a
      rw [if_neg (by decide)] at hpush
      unfold Httpd.asked
      rw [receiveChar_eq, if_neg (by decide), if_pos rfl, hbuf, ← hpush]
      dsimp only
      rw [hm, hp]
      rw [hp] at hbad
      rw [hbad]
      exact ⟨_, rfl⟩
  | settled l' rest hbs => exact absurd (by simp [hbs]) hl

/-! ### Nothing else happens during the line -/

/-- The bytes `bs` have come in and `todo` is still missing, up to the end of the first line. -/
structure Within (site : Site) (l bs todo : List UInt8) (h : HttpState) : Prop where
  heard : Heard site bs h
  line : bs ++ todo = l ++ [0x0a]
  read : h.sendbufferRead = 0
  write : h.sendbufferWrite = 0

section Line

variable {site : Site} {l bs todo : List UInt8} {h : HttpState}

theorem Within.idle (hl : 0x0a ∉ l) (w : Within site l bs todo h) : h.stateServer = .idle := by
  cases w.heard with
  | line hline hfresh hbuf => exact hfresh.server
  | settled l' rest hbs hl' hcode hclient hfirst =>
      have hline := w.line
      rw [hbs, List.append_assoc, List.cons_append] at hline
      obtain ⟨-, hnil⟩ := line_unique hl' hl hline
      exact (hfirst (List.append_eq_nil_iff.mp hnil).1).2.1

theorem Within.complete (w : Within site l bs [] h) : Heard site (l ++ [0x0a]) h := by
  rw [← w.line, List.append_nil]
  exact w.heard

/-- A byte of the line is taken. -/
theorem Within.byte (hmalloc : ∀ hd, site.malloc hd = true) (hl : 0x0a ∉ l) {c : UInt8}
    (w : Within site l bs (c :: todo) h) :
    ∃ h', receiveByte site c h = some h' ∧ Within site l (bs ++ [c]) todo h' := by
  have htaken : ∃ h', receiveByte site c h = some h' := by
    cases w.heard with
    | line hline hfresh hbuf =>
        unfold receiveByte
        rw [hfresh.client]
        exact ⟨_, rfl⟩
    | settled l' rest hbs hl' hcode hclient hfirst =>
        have hline := w.line
        rw [hbs, List.append_assoc, List.cons_append] at hline
        obtain ⟨-, hnil⟩ := line_unique hl' hl hline
        cases (List.append_eq_nil_iff.mp hnil).2
  obtain ⟨h', hr⟩ := htaken
  have hsame := receiveByte_same hr
  refine ⟨h', hr, w.heard.byte hmalloc hr, ?_, hsame.read.trans w.read, hsame.write.trans w.write⟩
  rw [List.append_assoc]
  exact w.line

theorem receiveLoop_within (hmalloc : ∀ hd, site.malloc hd = true) (hl : 0x0a ∉ l)
    {data : List UInt8} (w : Within site l bs (data ++ todo) h) :
    ∃ h', receiveLoop site data h = some h' ∧ Within site l (bs ++ data) todo h' := by
  induction data generalizing bs h with
  | nil =>
      rw [List.append_nil]
      exact ⟨h, rfl, w⟩
  | cons c cs ih =>
      obtain ⟨h₁, hbyte, w₁⟩ := w.byte hmalloc hl
      obtain ⟨h', hloop, w'⟩ := ih w₁
      rw [List.append_assoc] at w'
      refine ⟨h', ?_, w'⟩
      unfold receiveLoop
      rw [hbyte]
      exact hloop

theorem receivePbufs_within (hmalloc : ∀ hd, site.malloc hd = true) (hl : 0x0a ∉ l)
    {qs : List (List UInt8)} (w : Within site l bs (qs.flatten ++ todo) h) :
    ∃ h', receivePbufs site qs h = some h' ∧ Within site l (bs ++ qs.flatten) todo h' := by
  induction qs generalizing bs h with
  | nil =>
      rw [List.flatten_nil, List.append_nil]
      exact ⟨h, rfl, w⟩
  | cons q qs ih =>
      rw [List.flatten_cons, List.append_assoc] at w
      obtain ⟨h₁, hloop, w₁⟩ := receiveLoop_within hmalloc hl w
      obtain ⟨h', hrest, w'⟩ := ih w₁
      rw [List.append_assoc] at w'
      refine ⟨h', ?_, w'⟩
      unfold receivePbufs receive
      rw [hloop, Option.bind_some, handleServer_idle (w₁.idle hl)]
      exact hrest

/-- There is nothing to send during the line. -/
theorem sendData_within (hl : 0x0a ∉ l) {c : Conn} (w : Within site l bs todo c.http)
    (tcp : Tcp) :
    ∃ c', sendData site tcp c = some c' ∧ c'.alive = true ∧ Within site l bs todo c'.http := by
  have hoffer : offered tcp.sndbuf c.http = 0 := by
    simp [offered, w.read, w.write]
  have hnone : tcpDoSend tcp.write 1 0 = 0 := Nat.le_zero.mp (tcpDoSend_le _ _ _)
  unfold sendData
  rw [handleServer_idle (w.idle hl)]
  refine ⟨_, rfl, rfl, ?_⟩
  unfold sendRing
  dsimp only
  rw [hoffer, hnone, w.read]
  exact ⟨w.heard.unread _ c.http.retries, w.line, rfl, w.write⟩

theorem step_within (hmalloc : ∀ hd, site.malloc hd = true) (hl : 0x0a ∉ l) {e : Event}
    {es : List Event} {c : Conn} (halive : c.alive = true)
    (w : Within site l bs (heard (e :: es)) c.http) :
    ∃ c', step site e c = some c' ∧
      ((c'.alive = true ∧ ∃ bs', Within site l bs' (heard es) c'.http) ∨
        (c'.alive = false ∧ Heard site (l ++ [0x0a]) c'.http)) := by
  have hretries : ∀ n todo, Within site l bs todo c.http →
      Within site l bs todo { c.http with retries := n } :=
    fun n _ w => ⟨w.heard.unread c.http.sendbufferRead n, w.line, w.read, w.write⟩
  unfold step
  rw [if_neg (by simp [halive])]
  cases e with
  | recv pbufs tcp =>
      obtain ⟨h', hpbufs, w'⟩ := receivePbufs_within hmalloc hl w
      obtain ⟨c', hsend, halive', w''⟩ := sendData_within (c := { c with http := h' }) hl w' tcp
      dsimp only [httpRecv]
      rw [hpbufs, Option.bind_some, hsend]
      exact ⟨c', rfl, Or.inl ⟨halive', _, w''⟩⟩
  | sent tcp =>
      have hidle : c.http.stateServer ≠ .close := by
        rw [w.idle hl]
        simp
      obtain ⟨c', hsend, halive', w'⟩ :=
        sendData_within (c := { c with http := { c.http with retries := 0 } }) hl
          (hretries 0 _ w) tcp
      dsimp only [httpSent]
      rw [if_pos (Or.inr hidle), hsend]
      exact ⟨c', rfl, Or.inl ⟨halive', _, w'⟩⟩
  | poll tcp =>
      dsimp only [httpPoll]
      rw [if_neg (by simp [w.read, w.write])]
      exact ⟨c, rfl, Or.inl ⟨halive, _, w⟩⟩
  | sendData tcp =>
      obtain ⟨c', hsend, halive', w'⟩ := sendData_within hl w tcp
      exact ⟨c', hsend, Or.inl ⟨halive', _, w'⟩⟩
  | fin => exact ⟨c.closed, rfl, Or.inr ⟨rfl, w.complete⟩⟩
  | err => exact ⟨c.closed, rfl, Or.inr ⟨rfl, w.complete⟩⟩

theorem run_dead {c : Conn} (hdead : c.alive = false) (es : List Event) :
    run site es c = some c := by
  induction es with
  | nil => rfl
  | cons e es ih =>
      unfold run step
      rw [if_pos hdead]
      exact ih

/-- Up to the end of the line nothing goes wrong. -/
theorem run_within (hmalloc : ∀ hd, site.malloc hd = true) (hl : 0x0a ∉ l) :
    ∀ (es : List Event) (bs : List UInt8) (c : Conn), c.alive = true →
      Within site l bs (heard es) c.http →
      ∃ c', run site es c = some c' ∧ Heard site (l ++ [0x0a]) c'.http := by
  intro es
  induction es with
  | nil =>
      intro bs c _ w
      exact ⟨c, rfl, w.complete⟩
  | cons e es ih =>
      intro bs c halive w
      obtain ⟨c₁, hstep, ⟨halive₁, bs₁, w₁⟩ | ⟨hdead, hh⟩⟩ := step_within hmalloc hl halive w
      · unfold run
        rw [hstep]
        exact ih bs₁ c₁ halive₁ w₁
      · unfold run
        rw [hstep]
        exact ⟨c₁, run_dead hdead es, hh⟩

end Line

/-! ### The request line -/

theorem Heard.settles {site : Site} (hvfs : ∀ f ∈ site.vfs, f.filename ≠ []) {l rest : List UInt8}
    {h : HttpState} (hl : 0x0a ∉ l) (hh : Heard site (l ++ 0x0a :: rest) h) :
    Answered site l h.code ∧ (rest = [] → h.stateClient = .header ∧ h.linebuffer = []) := by
  cases hh with
  | line hline => exact absurd (by simp) hline
  | settled l' rest' hbs hl' hcode hclient hfirst =>
      obtain ⟨rfl, rfl⟩ := line_unique hl hl' hbs
      rw [hcode]
      exact ⟨respond_answered hvfs l, fun hnil => ⟨(hfirst hnil).1, (hfirst hnil).2.2⟩⟩

/-- **The request line is answered as the grammar and the routing say**, however it is cut into
segments and whatever other callbacks come in between.  A run that brings the line and no more
ends after it; a run that brings more has the code at every place behind the line, and the empty
line buffer at the first ones.  The handlers are asked for the method and the path of the
grammar. -/
theorem request_line {site : Site} (hmalloc : ∀ hd, site.malloc hd = true)
    (hvfs : ∀ f ∈ site.vfs, f.filename ≠ []) (sendbuffer : Mem UInt8) (priv : Option Priv)
    {l : List UInt8} (hl : 0x0a ∉ l) (es : List Event) :
    (heard es = l ++ [0x0a] → ∃ c, run site es (accept sendbuffer priv) = some c ∧
      Answered site l c.http.code ∧ c.http.stateClient = .header ∧ c.http.linebuffer = []) ∧
    (∀ tr p ps rest, runTrace site es (accept sendbuffer priv) = tr ++ p :: ps →
      seen tr = l ++ 0x0a :: rest → Answered site l p.http.code ∧
        (rest = [] → p.http.stateClient = .header ∧ p.http.linebuffer = [])) ∧
    (∀ tr h ps method path,
      runTrace site es (accept sendbuffer priv) = tr ++ .byte 0x0a h :: ps → seen tr = l →
        Accepted (requestText l) method path → ∃ h₁, asked 0x0a h = some (method, path, h₁)) := by
  refine ⟨?_, ?_, ?_⟩
  · intro hes
    have hw : Within site l [] (heard es) (accept sendbuffer priv).http :=
      ⟨accept_heard site sendbuffer priv, hes, rfl, rfl⟩
    obtain ⟨c, hrun, hh⟩ := run_within hmalloc hl es [] _ rfl hw
    obtain ⟨hcode, hfirst⟩ := hh.settles hvfs hl
    exact ⟨c, hrun, hcode, hfirst rfl⟩
  · intro tr p ps rest htr hseen
    have hh := place_heard hmalloc sendbuffer priv htr
    rw [hseen] at hh
    exact hh.settles hvfs hl
  · intro tr h ps method path htr hseen ha
    have hh := place_heard hmalloc sendbuffer priv htr
    rw [hseen] at hh
    exact hh.asked hl ha

/-- A doubled blank makes the path empty, which no request has. -/
theorem doubled_blank_refused :
    ∃ c, run bareSite [.recv [bytes "GET  /FU", bytes "SE HTTP/1.0\r"] shortTcp, .poll shortTcp,
        .recv [bytes "\n"] shortTcp] (accept (fun _ => 0) none) = some c ∧
      c.http.code = 400 ∧ c.http.stateClient = .header ∧ c.http.linebuffer = [] := by
  have hl : (0x0a : UInt8) ∉ bytes "GET  /FUSE HTTP/1.0\r" := by decide
  obtain ⟨c, hrun, hanswer, hstate⟩ := (@request_line bareSite (fun _ => rfl)
    (by simp [bareSite]) (fun _ => 0) none _ hl [.recv [bytes "GET  /FU", bytes "SE HTTP/1.0\r"]
      shortTcp, .poll shortTcp, .recv [bytes "\n"] shortTcp]).1 (by decide)
  refine ⟨c, hrun, hanswer.bad.mpr ?_, hstate⟩
  rintro ⟨method, path, ha⟩
  obtain ⟨-, -, hbad⟩ := (accepted_iff (lineSeen (bytes "GET  /FUSE HTTP/1.0\r" ++ [0x0a]))
    method path).mp ha
  exact absurd hbad (by decide)

end Xell.Httpd
