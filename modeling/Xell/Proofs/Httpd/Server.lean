/-
What the server still has to send, and that it sends it.

`rest` is an abstraction of the three nested states of a response, the server's state, the
handler's header state and its pointer into the body, to the one thing they stand for: the
text that is still to come.  Every turn of `httpd_handle_server` takes a piece off its front
and puts exactly this piece into the ring, wherever the room ends and from whichever
callback the server is entered.
-/
import Xell.Response
import Xell.Proofs.Httpd.Ring

namespace Xell.Httpd

/-! ### The text that is still to come -/

/-- The standard header, from its state `n` on. -/
def stdRest : Nat → List UInt8
  | 0 => bytes "Server: yahd v1.0\r\n" ++ bytes "\r\n"
  | 1 => bytes "\r\n"
  | _ => []

/-- The header lines a handler has yet to send. -/
def fieldsRest : Option Handler → Option Priv → List (List UInt8 × List UInt8)
  | some .mem, some (.mem _ len _ hdrState) => (memFields len).drop hdrState
  | some .vfs, some (.vfs f _ hdrState) => (vfsFields f).drop hdrState
  | _, _ => []

def headerRest (h : HttpState) : List UInt8 :=
  (fieldsRest h.handler h.responsePriv).flatMap fieldLine ++ stdRest h.stdHeaderState

/-- The body a handler has yet to send. -/
def privRest (site : Site) : Option Priv → List UInt8
  | none => []
  | some (.static data ptr len) => (data.drop ptr).take len
  | some (.vfs f ptr _) => vfsBody f ptr
  | some (.mem base len ptr _) => site.memory.slice (base + ptr) (len - ptr)

def bodyRest (site : Site) (h : HttpState) : List UInt8 := privRest site h.responsePriv

def statusRest (h : HttpState) : List UInt8 :=
  bytes "HTTP/1.0 " ++ codeText h.code ++ h.codeDescr.getD (getDescr h.code) ++ bytes "\r\n"

/-- What of the response is not yet in the ring. -/
def rest (site : Site) (h : HttpState) : List UInt8 :=
  match h.stateServer with
  | .idle => []
  | .response => statusRest h ++ (headerRest h ++ bodyRest site h)
  | .header => headerRest h ++ bodyRest site h
  | .data => bodyRest site h
  | .close => []

section Files

variable {f : VfsEntry}

theorem vfsFields_static (hflag : f.flags &&& 1 = 0) : vfsFields f =
    [(bytes "Content-Type", f.mimeType), (bytes "Content-Length", decimal f.len)] :=
  if_pos hflag

theorem vfsFields_dynamic (hflag : ¬f.flags &&& 1 = 0) :
    vfsFields f = [(bytes "Content-Type", f.mimeType)] :=
  if_neg hflag

theorem vfsBody_static (hflag : f.flags &&& 1 = 0) (ptr : Nat) :
    vfsBody f ptr = f.data.slice ptr (f.len - ptr) :=
  if_pos hflag

theorem vfsBody_dynamic (hflag : ¬f.flags &&& 1 = 0) (ptr : Nat) : vfsBody f ptr = dhtml f ptr :=
  if_neg hflag

theorem fieldsRest_vfs (f : VfsEntry) (ptr hdrState : Nat) :
    fieldsRest (some .vfs) (some (.vfs f ptr hdrState)) = (vfsFields f).drop hdrState :=
  rfl

theorem privRest_vfs (site : Site) (f : VfsEntry) (ptr hdrState : Nat) :
    privRest site (some (.vfs f ptr hdrState)) = vfsBody f ptr :=
  rfl

theorem vfsFields_length_le (f : VfsEntry) : (vfsFields f).length ≤ 2 := by
  unfold vfsFields
  split <;> simp

end Files

/-- A `do_*` function that has `part` to send went from `h` to `r`: it sent what it took off the
front of `part`, said it was done only when nothing was left, and let `tail` be. -/
structure Sends (part tail : HttpState → List UInt8) (h : HttpState) (r : DoResult × HttpState) :
    Prop where
  emits : ∃ d, Emits d h r.2 ∧ part h = d ++ part r.2
  tail : tail r.2 = tail h
  done : r.1 = .done → part r.2 = []
  handler : r.2.handler = h.handler
  server : r.2.stateServer = h.stateServer

/-- Nothing was sent, for want of room. -/
theorem Sends.wait {part tail : HttpState → List UInt8} {h : HttpState} (hi : Indexed h) :
    Sends part tail h (.waiting, h) :=
  ⟨⟨[], .refl hi, rfl⟩, rfl, (fun hdone => by cases hdone), rfl, rfl⟩

/-! ### Headers -/

/-- Line `s` of the standard header comes next. -/
structure StdLine (n : Nat) (s : List UInt8) : Prop where
  rest : stdRest n = s ++ stdRest (n + 1)
  lt : n < 2
  pos : 0 < s.length
  short : s.length ≤ 19

/-- What a call of `httpd_do_std_header` does. -/
inductive StdTurn (h : HttpState) (r : DoResult × HttpState) : Prop where
  | full {s : List UInt8} (hs : StdLine h.stdHeaderState s)
      (hfull : availableSendbuffer h < s.length) (hr : r = (.waiting, h))
  | sent {s : List UInt8} (hs : StdLine h.stdHeaderState s)
      (hfit : s.length ≤ availableSendbuffer h)
      (hr : r = (.again, { putSendbuffer s h with stdHeaderState := h.stdHeaderState + 1 }))
  | ended (hs : stdRest h.stdHeaderState = []) (hr : r = (.done, h))

theorem doStdHeader_turn (h : HttpState) : StdTurn h (doStdHeader h) := by
  have hline : ∀ {s}, StdLine h.stdHeaderState s → StdTurn h
      (if availableSendbuffer h < s.length then (.waiting, h)
        else (.again, { putSendbuffer s h with stdHeaderState := h.stdHeaderState + 1 })) := by
    intro s hs
    split
    · rename_i hfull
      exact .full hs hfull rfl
    · rename_i hfit
      exact .sent hs (Nat.le_of_not_lt hfit) rfl
  unfold doStdHeader
  dsimp only
  match hn : h.stdHeaderState with
  | 0 =>
      rw [hn] at hline
      exact hline ⟨rfl, by omega, by decide, by decide⟩
  | 1 =>
      rw [hn] at hline
      exact hline ⟨rfl, by omega, by decide, by decide⟩
  | n + 2 => exact .ended (by rw [hn]; rfl) rfl

theorem doStdHeader_sends {h : HttpState} (hi : Indexed h)
    (hf : fieldsRest h.handler h.responsePriv = []) (site : Site) :
    Sends headerRest (bodyRest site) h (doStdHeader h) := by
  cases doStdHeader_turn h with
  | full hs hfull hr =>
      rw [hr]
      exact .wait hi
  | @sent s hs hfit hr =>
      rw [hr]
      refine ⟨⟨s, (putSendbuffer_emits hi (lt_room hi hfit)).setStd _, ?_⟩, ?_, ?_, ?_, ?_⟩
      · simp [headerRest, hf, hs.rest]
      · simp [bodyRest]
      · intro hdone
        cases hdone
      · simp
      · simp
  | ended hs hr =>
      rw [hr]
      refine ⟨⟨[], .refl hi, rfl⟩, rfl, fun _ => ?_, rfl, rfl⟩
      show headerRest h = []
      simp [headerRest, hf, hs]

/-- A header line is sent as a whole, or not yet. -/
theorem doField_sends {h : HttpState} (hi : Indexed h) (site : Site) {t o : List UInt8}
    {next : Priv}
    (hf : fieldsRest h.handler h.responsePriv = (t, o) :: fieldsRest h.handler (some next))
    (hb : privRest site (some next) = privRest site h.responsePriv) :
    Sends headerRest (bodyRest site) h (doField t o next h) := by
  unfold doField
  split
  · exact .wait hi
  · rename_i hav
    have hroom : t.length + o.length + 4 < room h := lt_room hi (by omega)
    have hsep : (bytes ": ").length = 2 := rfl
    have hend : (bytes "\r\n").length = 2 := rfl
    have e := (((putSendbuffer_emits hi (d := t) (by omega)).put hi (bytes ": ") (by omega)).put
      hi o (by rw [List.length_append]; omega)).put hi (bytes "\r\n")
      (by rw [List.length_append, List.length_append]; omega)
    refine ⟨⟨fieldLine (t, o), e.setPriv (some next), ?_⟩, hb, ?_, ?_, ?_⟩
    · simp [headerRest, hf]
    · intro hdone
      cases hdone
    · simp
    · simp

/-- What a call of `do_header` is: the next line of a handler that has lines of its own, or the
standard header. -/
inductive HeaderTurn (h : HttpState) (r : DoResult × HttpState) : Handler → Prop
  | std {hd : Handler} (hf : fieldsRest (some hd) h.responsePriv = []) (hr : r = doStdHeader h) :
      HeaderTurn h r hd
  | mem {base len ptr n : Nat} {t o : List UInt8}
      (hp : h.responsePriv = some (.mem base len ptr n))
      (hf : (memFields len).drop n = (t, o) :: (memFields len).drop (n + 1))
      (hr : r = doField t o (.mem base len ptr (n + 1)) h) : HeaderTurn h r .mem
  | vfs {f : VfsEntry} {ptr n : Nat} {t o : List UInt8}
      (hp : h.responsePriv = some (.vfs f ptr n))
      (hf : (vfsFields f).drop n = (t, o) :: (vfsFields f).drop (n + 1))
      (hr : r = doField t o (.vfs f ptr (n + 1)) h) : HeaderTurn h r .vfs

theorem responseMemDoHeader_turn {h : HttpState} {r : DoResult × HttpState}
    (hr : responseMemDoHeader h = some r) : HeaderTurn h r .mem := by
  unfold responseMemDoHeader at hr
  split at hr
  · rename_i hp
    exact .mem hp rfl (Option.some.inj hr).symm
  · rename_i hp
    exact .mem hp rfl (Option.some.inj hr).symm
  · rename_i hp
    exact .std (by rw [hp]; rfl) (Option.some.inj hr).symm
  · cases hr

/-- Without a length to tell, `hdr_state` stays at 1 while the standard header is sent. -/
theorem responseVfsDoHeader_turn {h : HttpState} {r : DoResult × HttpState}
    (hr : responseVfsDoHeader h = some r) : HeaderTurn h r .vfs := by
  unfold responseVfsDoHeader at hr
  split at hr
  · rename_i f ptr hp
    refine .vfs hp ?_ (Option.some.inj hr).symm
    by_cases hflag : f.flags &&& 1 = 0
    · rw [vfsFields_static hflag]
      rfl
    · rw [vfsFields_dynamic hflag]
      rfl
  · rename_i f ptr hp
    split at hr
    · rename_i hflag
      refine .vfs hp ?_ (Option.some.inj hr).symm
      rw [vfsFields_static hflag]
      rfl
    · rename_i hflag
      refine .std ?_ (Option.some.inj hr).symm
      rw [hp, fieldsRest_vfs, vfsFields_dynamic hflag]
      rfl
  · rename_i f ptr hp
    refine .std ?_ (Option.some.inj hr).symm
    rw [hp]
    exact List.drop_eq_nil_of_le (vfsFields_length_le f)
  · cases hr

theorem doHeader_turn {h : HttpState} {hd : Handler} {r : DoResult × HttpState}
    (hr : doHeader h hd = some r) : HeaderTurn h r hd := by
  cases hd with
  | mem => exact responseMemDoHeader_turn hr
  | vfs => exact responseVfsDoHeader_turn hr
  | fuses | err400 | err404 => exact .std rfl (Option.some.inj hr).symm

theorem doHeader_sends {h : HttpState} (hi : Indexed h) (site : Site) {hd : Handler}
    (hh : h.handler = some hd) {r : DoResult × HttpState} (hr : doHeader h hd = some r) :
    Sends headerRest (bodyRest site) h r := by
  cases doHeader_turn hr with
  | std hf heq =>
      subst heq
      exact doStdHeader_sends hi (by rw [hh]; exact hf) site
  | mem hp hf heq =>
      subst heq
      exact doField_sends hi site (by rw [hh, hp]; exact hf) (by rw [hp]; rfl)
  | vfs hp hf heq =>
      subst heq
      exact doField_sends hi site (by rw [hh, hp]; exact hf) (by rw [hp]; rfl)

/-! ### Bodies -/

/-- What a call of `response_static_do_data` does. -/
inductive StaticTurn (h : HttpState) (r : DoResult × HttpState) : Prop where
  | none (hp : h.responsePriv = none) (hr : r = (.done, h))
  | full (hzero : availableSendbuffer h = 0) (hr : r = (.waiting, h))
  | sent {data : List UInt8} {ptr len av : Nat}
      (hp : h.responsePriv = some (.static data ptr len)) (hpos : availableSendbuffer h ≠ 0)
      (hav : av = min (availableSendbuffer h) len)
      (hr : r = (if len - av = 0 then .done else .waiting,
        { putSendbuffer ((data.drop ptr).take av) h with
          responsePriv := some (.static data (ptr + av) (len - av)) }))

theorem responseStaticDoData_turn {h : HttpState} {r : DoResult × HttpState}
    (hr : responseStaticDoData h = some r) : StaticTurn h r := by
  unfold responseStaticDoData at hr
  split at hr
  · rename_i hp
    exact .none hp (Option.some.inj hr).symm
  · rename_i data ptr len hp
    split at hr
    · rename_i hzero
      exact .full hzero (Option.some.inj hr).symm
    · rename_i hpos
      exact .sent hp hpos rfl (Option.some.inj hr).symm
  · cases hr

/-- The piece that is sent fits. -/
theorem static_emits {h : HttpState} (hi : Indexed h) (data : List UInt8) (ptr len : Nat)
    {av : Nat} (hav : av = min (availableSendbuffer h) len) :
    Emits ((data.drop ptr).take av) h
      { putSendbuffer ((data.drop ptr).take av) h with
        responsePriv := some (.static data (ptr + av) (len - av)) } := by
  refine (putSendbuffer_emits hi (lt_room hi ?_)).setPriv _
  rw [List.length_take]
  omega

theorem responseStaticDoData_sends {h : HttpState} (hi : Indexed h) (site : Site)
    {r : DoResult × HttpState} (hr : responseStaticDoData h = some r) :
    Sends (bodyRest site) (fun _ => []) h r := by
  cases responseStaticDoData_turn hr with
  | none hp hr =>
      subst hr
      exact ⟨⟨[], .refl hi, rfl⟩, rfl, fun _ => by simp [bodyRest, hp, privRest], rfl, rfl⟩
  | full hzero hr =>
      subst hr
      exact .wait hi
  | @sent data ptr len av hp hpos hav hr =>
      subst hr
      refine ⟨⟨_, static_emits hi data ptr len hav, ?_⟩, rfl, ?_, ?_, ?_⟩
      · show privRest site h.responsePriv = _
        rw [hp]
        show (data.drop ptr).take len
          = (data.drop ptr).take av ++ (data.drop (ptr + av)).take (len - av)
        rw [← List.drop_drop, ← List.take_add, show av + (len - av) = len by omega]
      · intro hdone
        have hlen : len - av = 0 := by
          by_contra hne
          rw [if_neg hne] at hdone
          cases hdone
        simp [bodyRest, privRest, hlen]
      · simp
      · simp

/-- The pieces of at most 1024 bytes are one piece of memory. -/
theorem memLoop_emits (memory : Mem UInt8) (base len hdrState n : Nat) {ptr av : Nat}
    {h : HttpState} (hi : Indexed h) (hn : av ≤ n) (hroom : av < room h)
    (hp : h.responsePriv = some (.mem base len ptr hdrState)) :
    ∃ h', memLoop memory base len hdrState n ptr av h = h' ∧
      Emits (memory.slice (base + ptr) av) h h' ∧
      h'.responsePriv = some (.mem base len (ptr + av) hdrState) ∧
      h'.handler = h.handler ∧ h'.stateServer = h.stateServer := by
  induction n generalizing ptr av h with
  | zero =>
      obtain rfl : av = 0 := by omega
      exact ⟨h, rfl, .refl hi, hp, rfl, rfl⟩
  | succ n ih =>
      unfold memLoop
      split
      · rename_i hav
        subst hav
        exact ⟨h, rfl, .refl hi, hp, rfl, rfl⟩
      · generalize hm : min 1024 av = m
        have e := (putSendbuffer_emits hi (d := memory.slice (base + ptr) m)
          (by rw [Mem.slice_length]; omega)).setPriv (some (.mem base len (ptr + m) hdrState))
        obtain ⟨h', heq, e', hp', hh', hs'⟩ := ih (e.indexed hi)
          (show av - m ≤ n by omega) (by rw [e.room, Mem.slice_length]; omega) rfl
        refine ⟨h', heq, ?_, ?_, ?_, ?_⟩
        · have := e.trans e'
          rw [← Nat.add_assoc, ← Mem.slice_add, show m + (av - m) = av by omega] at this
          exact this
        · rw [hp', show ptr + m + (av - m) = ptr + av by omega]
        · simpa using hh'
        · simpa using hs'

/-- What a call of `response_mem_do_data` does. -/
inductive MemTurn (site : Site) (h : HttpState) (r : DoResult × HttpState) : Prop where
  | full (hzero : availableSendbuffer h = 0) (hr : r = (.waiting, h))
  | sent {base len ptr hdrState av : Nat} (hp : h.responsePriv = some (.mem base len ptr hdrState))
      (hpos : availableSendbuffer h ≠ 0) (hav : av = min (availableSendbuffer h) (len - ptr))
      (hr : r = (.waiting, memLoop site.memory base len hdrState av ptr av h))

theorem responseMemDoData_turn {site : Site} {h : HttpState} {r : DoResult × HttpState}
    (hr : responseMemDoData site h = some r) : MemTurn site h r := by
  unfold responseMemDoData at hr
  split at hr
  · rename_i base len ptr hdrState hp
    split at hr
    · rename_i hzero
      exact .full hzero (Option.some.inj hr).symm
    · rename_i hpos
      exact .sent hp hpos rfl (Option.some.inj hr).symm
  · cases hr

theorem responseMemDoData_waiting {site : Site} {h : HttpState} {r : DoResult × HttpState}
    (hr : responseMemDoData site h = some r) : r.1 = .waiting := by
  cases responseMemDoData_turn hr with
  | full hzero hr => rw [hr]
  | sent hp hpos hav hr => rw [hr]

theorem responseMemDoData_sends {h : HttpState} (hi : Indexed h) (site : Site)
    {r : DoResult × HttpState} (hr : responseMemDoData site h = some r) :
    Sends (bodyRest site) (fun _ => []) h r := by
  cases responseMemDoData_turn hr with
  | full hzero hr =>
      subst hr
      exact .wait hi
  | @sent base len ptr hdrState av hp hpos hav hr =>
      obtain ⟨h', heq, e, hp', hh', hs'⟩ := memLoop_emits site.memory base len hdrState av hi
        (Nat.le_refl _) (lt_room hi (by omega)) hp
      rw [heq] at hr
      subst hr
      refine ⟨⟨_, e, ?_⟩, rfl, fun hdone => ?_, hh', hs'⟩
      · show privRest site h.responsePriv = _ ++ privRest site h'.responsePriv
        rw [hp, hp']
        show site.memory.slice (base + ptr) (len - ptr) = _
        show _ = _ ++ site.memory.slice (base + (ptr + av)) (len - (ptr + av))
        rw [← Nat.add_assoc base, ← Mem.slice_add,
          show av + (len - (ptr + av)) = len - ptr by omega]
      · cases hdone

/-! ### Files with primitives -/

theorem dhtml_len (f : VfsEntry) : dhtml f f.len = [] := by
  unfold dhtml
  rw [if_pos (Or.inl rfl)]

theorem dhtml_text {f : VfsEntry} {e : Nat} (hlen : e ≠ f.len) (hmap : e < f.mapped)
    (hc : f.data e ≠ 0x25) : dhtml f e = f.data e :: dhtml f (e + 1) := by
  rw [dhtml, if_neg (by omega), if_neg hc]

theorem dhtml_primitive {f : VfsEntry} {e q : Nat} (hlen : e ≠ f.len) (hmap : e < f.mapped)
    (hc : f.data e = 0x25) (hq : closing f (f.mapped - (e + 1)) (e + 1) = some q) :
    dhtml f e = dynamicText (q - (e + 1)) ++ dhtml f (q + 1) := by
  rw [dhtml, if_neg (by omega), if_pos hc]
  split
  · rename_i hnone
    rw [hq] at hnone
    cases hnone
  · rename_i q' hq'
    rw [hq] at hq'
    cases hq'
    rfl

theorem flushText_frame {f : VfsEntry} {hdrState b : Nat} (e : Nat) {h : HttpState}
    (hp : h.responsePriv = some (.vfs f b hdrState)) :
    (flushText f hdrState b e h).responsePriv = some (.vfs f e hdrState) ∧
      (flushText f hdrState b e h).handler = h.handler ∧
      (flushText f hdrState b e h).stateServer = h.stateServer := by
  unfold flushText
  split
  · rename_i heq
    subst heq
    exact ⟨hp, rfl, rfl⟩
  · exact ⟨rfl, by simp, by simp⟩

theorem flushText_emits {f : VfsEntry} {hdrState b e : Nat} {h : HttpState} (hi : Indexed h)
    (hroom : e - b < room h) :
    Emits (f.data.slice b (e - b)) h (flushText f hdrState b e h) := by
  unfold flushText
  split
  · rename_i heq
    subst heq
    rw [Nat.sub_self]
    exact .refl hi
  · refine (putSendbuffer_emits hi ?_).setPriv _
    rw [Mem.slice_length]
    exact hroom

/-- A turn of the loop over a page, with what comes of it.  The text from `b` to `e` is put when
the call ends and when a primitive follows. -/
inductive DynamicTurn (f : VfsEntry) (hdrState n b e av : Nat) (h : HttpState)
    (r : DoResult × HttpState) : Prop where
  | stop (hstop : ¬(e - b < av ∧ e ≠ f.len))
      (hr : r = (if e = f.len then .done else .waiting, flushText f hdrState b e h))
  | text (hgo : e - b < av ∧ e ≠ f.len) (hmap : e < f.mapped) (hc : ¬f.data e = 0x25)
      (hr : dynamicLoop f hdrState n b (e + 1) av h = some r)
  | full {q : Nat} (hc : f.data e = 0x25) (hq : closing f (f.mapped - (e + 1)) (e + 1) = some q)
      (hfull : availableSendbuffer (flushText f hdrState b e h)
        < (dynamicText (q - (e + 1))).length)
      (hr : r = (.waiting, flushText f hdrState b e h))
  | primitive {q : Nat} (hgo : e - b < av ∧ e ≠ f.len) (hmap : e < f.mapped)
      (hc : f.data e = 0x25) (hq : closing f (f.mapped - (e + 1)) (e + 1) = some q)
      (hfit : (dynamicText (q - (e + 1))).length
        ≤ availableSendbuffer (flushText f hdrState b e h))
      (hr : dynamicLoop f hdrState n (q + 1) (q + 1)
        (availableSendbuffer (putSendbuffer (dynamicText (q - (e + 1)))
          (flushText f hdrState b e h)))
        { putSendbuffer (dynamicText (q - (e + 1))) (flushText f hdrState b e h) with
          responsePriv := some (.vfs f (q + 1) hdrState) } = some r)

theorem dynamicLoop_turn {f : VfsEntry} {hdrState n b e av : Nat} {h : HttpState}
    {r : DoResult × HttpState} (hr : dynamicLoop f hdrState (n + 1) b e av h = some r) :
    DynamicTurn f hdrState n b e av h r := by
  unfold dynamicLoop at hr
  split at hr
  · rename_i hgo
    split at hr
    · cases hr
    rename_i hmap
    split at hr
    · rename_i hc
      dsimp only at hr
      split at hr
      · cases hr
      rename_i q hq
      unfold responseVfsDoDynamic at hr
      by_cases hfull : availableSendbuffer (flushText f hdrState b e h)
          < (dynamicText (q - (e + 1))).length
      · simp only [if_pos hfull, Option.some.injEq] at hr
        exact .full hc hq hfull hr.symm
      · simp only [if_neg hfull] at hr
        exact .primitive hgo (Nat.lt_of_not_le hmap) hc hq (Nat.le_of_not_lt hfull) hr
    · rename_i hc
      exact .text hgo (Nat.lt_of_not_le hmap) hc hr
  · rename_i hstop
    exact .stop hstop (Option.some.inj hr).symm

/-- How far a call of `response_vfs_do_data` got in a file with primitives: to position `p`. -/
structure Reaches (f : VfsEntry) (hdrState b p : Nat) (h : HttpState) (r : DoResult × HttpState) :
    Prop where
  emits : ∃ d, Emits d h r.2 ∧ dhtml f b = d ++ dhtml f p
  priv : r.2.responsePriv = some (.vfs f p hdrState)
  done : r.1 = .done → p = f.len
  handler : r.2.handler = h.handler
  server : r.2.stateServer = h.stateServer

/-- The bytes from `b` to `e` are text that was looked at and not yet put.  All the loop puts
in one turn is this text and, if a primitive follows, its replacement; `ptr` never stands
inside a primitive. -/
theorem dynamicLoop_reaches {f : VfsEntry} {hdrState n b e : Nat} {h : HttpState}
    {r : DoResult × HttpState} (hi : Indexed h) (hp : h.responsePriv = some (.vfs f b hdrState))
    (hbe : b ≤ e) (hav : e - b ≤ availableSendbuffer h)
    (htext : dhtml f b = f.data.slice b (e - b) ++ dhtml f e)
    (hr : dynamicLoop f hdrState n b e (availableSendbuffer h) h = some r) :
    ∃ p, Reaches f hdrState b p h r := by
  induction n generalizing b e h with
  | zero => cases hr
  | succ n ih =>
      have eflush : Emits (f.data.slice b (e - b)) h (flushText f hdrState b e h) :=
        flushText_emits hi (lt_room hi hav)
      obtain ⟨hp₁, hh₁, hs₁⟩ := flushText_frame e hp
      cases dynamicLoop_turn hr with
      | stop hstop hr =>
          subst hr
          refine ⟨e, ⟨_, eflush, htext⟩, hp₁, ?_, hh₁, hs₁⟩
          intro hdone
          by_contra hne
          rw [if_neg hne] at hdone
          cases hdone
      | text hgo hmap hc hr =>
          refine ih hi hp (by omega) (by omega) ?_ hr
          rw [htext, dhtml_text hgo.2 hmap hc, show e + 1 - b = e - b + 1 by omega,
            Mem.slice_add, show b + (e - b) = e by omega, Mem.slice_one]
          simp
      | full hc hq hfull hr =>
          -- no room for the replacement: the next call starts at this primitive
          subst hr
          refine ⟨e, ⟨_, eflush, htext⟩, hp₁, ?_, hh₁, hs₁⟩
          intro hdone
          cases hdone
      | @primitive q hgo hmap hc hq hfit hr =>
          have hi₁ := eflush.indexed hi
          have eput := putSendbuffer_emits hi₁ (d := dynamicText (q - (e + 1)))
            (lt_room hi₁ hfit)
          have e₂ := (eflush.trans eput).setPriv (some (.vfs f (q + 1) hdrState))
          obtain ⟨p, hreach⟩ := ih (e₂.indexed hi) rfl (Nat.le_refl _) (by omega)
            (by simp [Mem.slice]) hr
          obtain ⟨d, ed, hd⟩ := hreach.emits
          refine ⟨p, ⟨_, e₂.trans ed, ?_⟩, hreach.priv, hreach.done, ?_, ?_⟩
          · rw [htext, dhtml_primitive hgo.2 hmap hc hq, hd]
            simp
          · rw [hreach.handler]
            simpa using hh₁
          · rw [hreach.server]
            simpa using hs₁

/-- What a call of `response_vfs_do_data` does: with a file that is sent as it is, and with a
page. -/
inductive VfsTurn (h : HttpState) (r : DoResult × HttpState) : Prop where
  | full (hzero : availableSendbuffer h = 0) (hr : r = (.waiting, h))
  | ended {f : VfsEntry} {ptr hdrState : Nat} (hp : h.responsePriv = some (.vfs f ptr hdrState))
      (hpos : availableSendbuffer h ≠ 0) (hflag : f.flags &&& 1 = 0) (hend : f.len - ptr = 0)
      (hr : r = (.done, h))
  | sent {f : VfsEntry} {ptr hdrState av : Nat} (hp : h.responsePriv = some (.vfs f ptr hdrState))
      (hflag : f.flags &&& 1 = 0) (hav : av = min (availableSendbuffer h) (f.len - ptr))
      (hsome : av ≠ 0)
      (hr : r = (.waiting, { putSendbuffer (f.data.slice ptr av) h with
        responsePriv := some (.vfs f (ptr + av) hdrState) }))
  | page {f : VfsEntry} {ptr hdrState : Nat} (hp : h.responsePriv = some (.vfs f ptr hdrState))
      (hpos : availableSendbuffer h ≠ 0) (hflag : ¬f.flags &&& 1 = 0)
      (hr : dynamicLoop f hdrState (f.mapped + 1) ptr ptr (availableSendbuffer h) h = some r)

theorem responseVfsDoData_turn {h : HttpState} {r : DoResult × HttpState}
    (hr : responseVfsDoData h = some r) : VfsTurn h r := by
  unfold responseVfsDoData at hr
  split at hr
  · rename_i f ptr hdrState hp
    split at hr
    · rename_i hzero
      exact .full hzero (Option.some.inj hr).symm
    rename_i hpos
    split at hr
    · rename_i hflag
      dsimp only at hr
      split at hr
      · exact .ended hp hpos hflag (by omega) (Option.some.inj hr).symm
      · rename_i hsome
        exact .sent hp hflag rfl hsome (Option.some.inj hr).symm
    · rename_i hflag
      exact .page hp hpos hflag hr
  · cases hr

theorem vfs_emits {h : HttpState} (hi : Indexed h) (f : VfsEntry) (ptr hdrState : Nat) {av : Nat}
    (hav : av = min (availableSendbuffer h) (f.len - ptr)) :
    Emits (f.data.slice ptr av) h { putSendbuffer (f.data.slice ptr av) h with
      responsePriv := some (.vfs f (ptr + av) hdrState) } := by
  refine (putSendbuffer_emits hi (lt_room hi ?_)).setPriv _
  rw [Mem.slice_length]
  omega

theorem bodyRest_file {site : Site} {h : HttpState} {f : VfsEntry} {ptr hdrState : Nat}
    (hp : h.responsePriv = some (.vfs f ptr hdrState)) (hflag : f.flags &&& 1 = 0) :
    bodyRest site h = f.data.slice ptr (f.len - ptr) := by
  unfold bodyRest
  rw [hp]
  exact vfsBody_static hflag ptr

theorem responseVfsDoData_sends {h : HttpState} (hi : Indexed h) (site : Site)
    {r : DoResult × HttpState} (hr : responseVfsDoData h = some r) :
    Sends (bodyRest site) (fun _ => []) h r := by
  cases responseVfsDoData_turn hr with
  | full hzero hr =>
      subst hr
      exact .wait hi
  | ended hp hpos hflag hend hr =>
      subst hr
      refine ⟨⟨[], .refl hi, rfl⟩, rfl, fun _ => ?_, rfl, rfl⟩
      show bodyRest site h = []
      rw [bodyRest_file hp hflag, hend]
      simp [Mem.slice]
  | @sent f ptr hdrState av hp hflag hav hsome hr =>
      subst hr
      refine ⟨⟨_, vfs_emits hi f ptr hdrState hav, ?_⟩, rfl, fun hdone => ?_, by simp, by simp⟩
      · rw [bodyRest_file hp hflag]
        show _ = _ ++ vfsBody f (ptr + av)
        rw [vfsBody_static hflag, ← Mem.slice_add,
          show av + (f.len - (ptr + av)) = f.len - ptr by omega]
      · cases hdone
  | page hp hpos hflag hr =>
      obtain ⟨p, hreach⟩ := dynamicLoop_reaches hi hp (Nat.le_refl _) (by omega)
        (by simp [Mem.slice]) hr
      obtain ⟨d, e, hd⟩ := hreach.emits
      refine ⟨⟨d, e, ?_⟩, rfl, fun hdone => ?_, hreach.handler, hreach.server⟩
      · unfold bodyRest
        rw [hp, hreach.priv, privRest_vfs, privRest_vfs, vfsBody_dynamic hflag,
          vfsBody_dynamic hflag]
        exact hd
      · unfold bodyRest
        rw [hreach.priv, hreach.done hdone]
        exact (vfsBody_dynamic hflag _).trans (dhtml_len _)

theorem doData_sends {h : HttpState} (hi : Indexed h) {site : Site} {hd : Handler}
    {r : DoResult × HttpState} (hr : doData site h hd = some r) :
    Sends (bodyRest site) (fun _ => []) h r := by
  cases hd with
  | mem => exact responseMemDoData_sends hi site hr
  | vfs => exact responseVfsDoData_sends hi site hr
  | fuses | err400 | err404 => exact responseStaticDoData_sends hi site hr

/-! ### The turns of the server -/

/-- In the state whose work it is, a `do_*` function of the handler gives `r`; `next` is the state
to go to when it is done. -/
inductive Works (site : Site) (h : HttpState) : ServerState → DoResult × HttpState → Prop
  | header {hd : Handler} {r : DoResult × HttpState} (hs : h.stateServer = .header)
      (hh : h.handler = some hd) (hdo : doHeader h hd = some r) : Works site h .data r
  | data {hd : Handler} {r : DoResult × HttpState} (hs : h.stateServer = .data)
      (hh : h.handler = some hd) (hdo : doData site h hd = some r) : Works site h .close r

theorem Works.server {site : Site} {h : HttpState} {next : ServerState} {r : DoResult × HttpState}
    (w : Works site h next r) (hi : Indexed h) : r.2.stateServer = h.stateServer := by
  cases w with
  | header hs hh hdo => exact (doHeader_sends hi site hh hdo).server
  | data hs hh hdo => exact (doData_sends hi hdo).server

theorem Works.handler {site : Site} {h : HttpState} {next : ServerState} {r : DoResult × HttpState}
    (w : Works site h next r) (hi : Indexed h) : r.2.handler = h.handler := by
  cases w with
  | header hs hh hdo => exact (doHeader_sends hi site hh hdo).handler
  | data hs hh hdo => exact (doData_sends hi hdo).handler

theorem Works.working {site : Site} {h : HttpState} {next : ServerState} {r : DoResult × HttpState}
    (w : Works site h next r) :
    (h.stateServer = .header ∨ h.stateServer = .data) ∧ (next = .data ∨ next = .close) := by
  cases w with
  | header hs hh hdo => exact ⟨Or.inl hs, Or.inl rfl⟩
  | data hs hh hdo => exact ⟨Or.inr hs, Or.inr rfl⟩

/-- What a turn of the loop can be: whether the loop is left, and the state after it. -/
inductive Turn (site : Site) (h : HttpState) : Bool → HttpState → Prop
  | idle (hs : h.stateServer = .idle) : Turn site h true h
  | full {h' : HttpState} (hs : h.stateServer = .response) (hr : sendStatus h = (false, h')) :
      Turn site h true h'
  | status {h' : HttpState} (hs : h.stateServer = .response) (hr : sendStatus h = (true, h')) :
      Turn site h false h'
  | done {next : ServerState} {h₁ : HttpState} (w : Works site h next (.done, h₁)) :
      Turn site h false { h₁ with stateServer := next }
  | waits {next : ServerState} {h₁ : HttpState} (w : Works site h next (.waiting, h₁)) :
      Turn site h true h₁
  | again {next : ServerState} {h₁ : HttpState} (w : Works site h next (.again, h₁)) :
      Turn site h false h₁
  | close (hs : h.stateServer = .close) : Turn site h true { h with handler := none }

theorem advanceServer_turn {site : Site} {h h' : HttpState} {next : ServerState} {stop : Bool}
    {r : DoResult × HttpState} (w : Works site h next r) (hr : advanceServer next r = (stop, h')) :
    Turn site h stop h' := by
  obtain ⟨res, h₁⟩ := r
  cases res with
  | done =>
      cases hr
      exact .done w
  | waiting =>
      cases hr
      exact .waits w
  | again =>
      cases hr
      exact .again w

theorem serverStep_turn {site : Site} {h h' : HttpState} {stop : Bool}
    (hr : serverStep site h = some (stop, h')) : Turn site h stop h' := by
  unfold serverStep at hr
  split at hr
  · rename_i hs
    cases hr
    exact .idle hs
  · rename_i hs
    rcases hsent : sendStatus h with ⟨sent, h₁⟩
    rw [hsent] at hr
    cases sent with
    | false =>
        cases hr
        exact .full hs hsent
    | true =>
        cases hr
        exact .status hs hsent
  · rename_i hs
    obtain ⟨hd, hh, hr⟩ := Option.bind_eq_some_iff.mp hr
    obtain ⟨r, hdo, hr⟩ := Option.map_eq_some_iff.mp hr
    exact advanceServer_turn (.header hs hh hdo) hr
  · rename_i hs
    obtain ⟨hd, hh, hr⟩ := Option.bind_eq_some_iff.mp hr
    obtain ⟨r, hdo, hr⟩ := Option.map_eq_some_iff.mp hr
    exact advanceServer_turn (.data hs hh hdo) hr
  · rename_i hs
    cases hr
    exact .close hs

theorem sendStatus_full {h h' : HttpState} (hr : sendStatus h = (false, h')) :
    availableSendbuffer h < 13 + (h.codeDescr.getD (getDescr h.code)).length ∧
      h' = { h with codeDescr := some (h.codeDescr.getD (getDescr h.code)) } := by
  unfold sendStatus at hr
  dsimp only at hr
  split at hr
  · rename_i hfull
    cases hr
    exact ⟨hfull, rfl⟩
  · cases hr

/-- What the status line leaves alone. -/
theorem sendStatus_sent {h h' : HttpState} (hr : sendStatus h = (true, h')) :
    13 + (h.codeDescr.getD (getDescr h.code)).length ≤ availableSendbuffer h ∧
      h'.stateServer = .header ∧ h'.handler = h.handler ∧ h'.responsePriv = h.responsePriv ∧
      h'.retries = h.retries := by
  unfold sendStatus at hr
  dsimp only at hr
  split at hr
  · cases hr
  · rename_i hfit
    simp only [Prod.mk.injEq, true_and] at hr
    obtain rfl := hr
    exact ⟨Nat.le_of_not_lt hfit, by simp⟩

/-! ### The loop of the server -/

theorem rest_eq {site : Site} {h : HttpState} :
    (h.stateServer = .response → rest site h = statusRest h ++ (headerRest h ++ bodyRest site h)) ∧
    (h.stateServer = .header → rest site h = headerRest h ++ bodyRest site h) ∧
    (h.stateServer = .data → rest site h = bodyRest site h) := by
  refine ⟨fun hs => ?_, fun hs => ?_, fun hs => ?_⟩ <;> simp [rest, hs]

/-- The status line is two bytes longer than the room that was asked for, and fits. -/
theorem sendStatus_sends {h : HttpState} (hi : Indexed h) (site : Site)
    (hs : h.stateServer = .response) :
    ∃ d, Emits d h (sendStatus h).2 ∧ rest site h = d ++ rest site (sendStatus h).2 := by
  unfold sendStatus
  dsimp only
  have hdescr : statusRest h = bytes "HTTP/1.0 " ++ codeText h.code
      ++ h.codeDescr.getD (getDescr h.code) ++ bytes "\r\n" := rfl
  generalize h.codeDescr.getD (getDescr h.code) = descr at hdescr ⊢
  have e₀ := (Emits.refl hi).setDescr (some descr)
  have hi₀ := e₀.indexed hi
  have hav : availableSendbuffer { h with codeDescr := some descr } = availableSendbuffer h := rfl
  rw [rest_eq.1 hs]
  split
  · refine ⟨[], e₀, ?_⟩
    rw [rest_eq.1 (by exact hs), hdescr]
    rfl
  · rename_i hfit
    have hroom : room { h with codeDescr := some descr } = room h := rfl
    rw [hav, availableSendbuffer_eq hi] at hfit
    have hhttp : (bytes "HTTP/1.0 ").length = 9 := rfl
    have hcode : (codeText h.code).length = 4 := rfl
    have hend : (bytes "\r\n").length = 2 := rfl
    have e := (((putSendbuffer_emits hi₀ (d := bytes "HTTP/1.0 ") (by omega)).put hi₀
      (codeText h.code) (by omega)).put hi₀ descr (by rw [List.length_append]; omega)).put hi₀
      (bytes "\r\n") (by rw [List.length_append, List.length_append]; omega)
    rw [putSendbuffer_code (bytes "HTTP/1.0 ") { h with codeDescr := some descr }]
    refine ⟨_, (e₀.trans e).setServer .header, ?_⟩
    rw [rest_eq.2.1 rfl]
    simp [hdescr, headerRest, bodyRest]

/-- A `do_*` function in the state whose work it does, followed by the change of state. -/
theorem advanceServer_sends {part tail : HttpState → List UInt8} {h : HttpState} {site : Site}
    (next : ServerState) {r : DoResult × HttpState} (hsends : Sends part tail h r)
    (hpart : ∀ h', h'.stateServer = h.stateServer → rest site h' = part h' ++ tail h')
    (hnext : ∀ h', rest site { h' with stateServer := next } = tail h') :
    ∃ d, Emits d h (advanceServer next r).2 ∧
      rest site h = d ++ rest site (advanceServer next r).2 := by
  obtain ⟨⟨d, e, hd⟩, htail, hdone, -, hserver⟩ := hsends
  obtain ⟨res, h'⟩ := r
  refine ⟨d, ?_⟩
  have hrest : rest site h = d ++ (part h' ++ tail h') := by
    rw [hpart h rfl, hd, htail, List.append_assoc]
  cases res with
  | done =>
      refine ⟨e.setServer next, ?_⟩
      have hnil : part h' = [] := hdone rfl
      rw [hrest, hnil]
      exact congrArg (d ++ ·) (hnext h').symm
  | waiting | again =>
      refine ⟨e, ?_⟩
      rw [hrest]
      exact congrArg (d ++ ·) (hpart h' hserver).symm

theorem advanceServer_works {site : Site} {h : HttpState} {next : ServerState}
    {r : DoResult × HttpState} (hi : Indexed h) (w : Works site h next r) :
    ∃ d, Emits d h (advanceServer next r).2 ∧
      rest site h = d ++ rest site (advanceServer next r).2 := by
  cases w with
  | header hs hh hdo =>
      exact advanceServer_sends .data (doHeader_sends hi site hh hdo)
        (fun h₁ h₁s => rest_eq.2.1 (h₁s.trans hs)) (fun _ => rest_eq.2.2 rfl)
  | data hs hh hdo =>
      exact advanceServer_sends .close (doData_sends hi hdo)
        (fun h₁ h₁s => (rest_eq.2.2 (h₁s.trans hs)).trans (List.append_nil _).symm) (fun _ => rfl)

/-- **Every turn of the server puts the next piece of the response.** -/
theorem serverStep_sends {site : Site} {h h' : HttpState} {stop : Bool} (hi : Indexed h)
    (hr : serverStep site h = some (stop, h')) :
    ∃ d, Emits d h h' ∧ rest site h = d ++ rest site h' := by
  have hstatus : ∀ {sent}, h.stateServer = .response → sendStatus h = (sent, h') →
      ∃ d, Emits d h h' ∧ rest site h = d ++ rest site h' := by
    intro sent hs hsent
    have := sendStatus_sends hi site hs
    rw [hsent] at this
    exact this
  cases serverStep_turn hr with
  | idle hs => exact ⟨[], .refl hi, rfl⟩
  | full hs hsent => exact hstatus hs hsent
  | status hs hsent => exact hstatus hs hsent
  | done w => exact advanceServer_works hi w
  | waits w => exact advanceServer_works hi w
  | again w => exact advanceServer_works hi w
  | close hs => exact ⟨[], (Emits.refl hi).setHandler none, by simp [rest, hs]⟩

/-- What every turn keeps, the loop keeps. -/
theorem handleServerLoop_keeps {site : Site} {P : HttpState → Prop}
    (hstep : ∀ h h' stop, P h → serverStep site h = some (stop, h') → P h') {n : Nat}
    {h h' : HttpState} (hP : P h) (hr : handleServerLoop site n h = some h') : P h' := by
  induction n generalizing h with
  | zero => cases hr
  | succ n ih =>
      unfold handleServerLoop at hr
      split at hr
      · cases hr
      · rename_i h₁ hs
        cases hr
        exact hstep _ _ _ hP hs
      · rename_i h₁ hs
        exact ih (hstep _ _ _ hP hs) hr

theorem handleServer_ring {site : Site} {accepted : List UInt8} {h h' : HttpState}
    (ok : RingOK accepted h) (hr : handleServer site h = some h') : RingOK accepted h' := by
  refine handleServerLoop_keeps (P := RingOK accepted) ?_ ok hr
  intro h₁ h₂ stop ok₁ hs
  obtain ⟨d, e, -⟩ := serverStep_sends ok₁.indexed hs
  exact ok₁.emits e

end Xell.Httpd
