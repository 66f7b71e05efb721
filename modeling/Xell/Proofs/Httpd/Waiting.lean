/-
When the server waits, and when it comes to its end.

A call of `httpd_handle_server` that does not come to the end of the response waits for room in
the ring.  Then there is something in the ring, which is what a later callback needs to find: no
header line and no piece of a body waits for more room than an empty ring has.  The one
exception is a body that has nothing left, which `response_mem_do_data` never reports.

The other question is whether the end is reached in a call.  It is not as long as more is left
than the ring takes; and a file without primitives takes one more call after its last piece.
-/
import Xell.Proofs.Httpd.Blocks

namespace Xell.Httpd

/-- What `httpd_available_sendbuffer` gives for an empty ring. -/
def capacity : Nat := sendbufferLen - 10

theorem queued_ne_nil {h : HttpState} (hi : Indexed h) (hav : availableSendbuffer h < capacity) :
    queued h ≠ [] := by
  intro hnil
  rw [availableSendbuffer_eq hi] at hav
  unfold room capacity at hav
  rw [hnil] at hav
  simp at hav

theorem queued_ne_nil_of_full {h : HttpState} (hi : Indexed h) (hzero : availableSendbuffer h = 0) :
    queued h ≠ [] := by
  refine queued_ne_nil hi ?_
  rw [hzero]
  exact Nat.succ_pos _

theorem queued_le_capacity {h : HttpState} (hi : Indexed h) (hpos : availableSendbuffer h ≠ 0) :
    (queued h).length ≤ capacity := by
  rw [availableSendbuffer_eq hi] at hpos
  unfold room capacity at *
  omega

/-! ### Waiting -/

theorem doStdHeader_waits {h h' : HttpState} (hi : Indexed h)
    (hr : doStdHeader h = (.waiting, h')) : queued h' ≠ [] := by
  have hturn := doStdHeader_turn h
  rw [hr] at hturn
  cases hturn with
  | full hs hfull hr =>
      cases hr
      have hshort := hs.short
      exact queued_ne_nil hi (by unfold capacity sendbufferLen; omega)
  | sent hs hfit hr => cases hr
  | ended hs hr => cases hr

theorem doField_waits {h h' : HttpState} (hi : Indexed h) {t o : List UInt8} {next : Priv}
    (hfit : (fieldLine (t, o)).length ≤ capacity) (hr : doField t o next h = (.waiting, h')) :
    queued h' ≠ [] := by
  have hline : (fieldLine (t, o)).length = t.length + o.length + 4 := by
    simp [fieldLine, bytes]
    omega
  unfold doField at hr
  split at hr
  · cases hr
    exact queued_ne_nil hi (by omega)
  · cases hr

/-- The header lines of the handler whose block this is. -/
def blockFields : Option Priv → List (List UInt8 × List UInt8)
  | some (.mem _ len _ _) => memFields len
  | some (.vfs f _ _) => vfsFields f
  | _ => []

theorem SameBlock.fields_eq {p p' : Option Priv} (h : SameBlock p p') :
    blockFields p' = blockFields p := by
  cases h <;> rfl

/-- Every header line fits into the empty ring. -/
def LinesFit (p : Option Priv) : Prop :=
  ∀ field ∈ blockFields p, (fieldLine field).length ≤ capacity

theorem mem_of_drop {α : Type} {l l' : List α} {x : α} {n : Nat} (h : l.drop n = x :: l') :
    x ∈ l :=
  List.mem_of_mem_drop (by rw [h]; exact List.mem_cons_self)

theorem doHeader_waits {h h' : HttpState} {hd : Handler} (hi : Indexed h)
    (hfit : LinesFit h.responsePriv) (hr : doHeader h hd = some (.waiting, h')) :
    queued h' ≠ [] := by
  cases doHeader_turn hr with
  | std hf heq => exact doStdHeader_waits hi heq.symm
  | mem hp hf heq =>
      rw [hp] at hfit
      exact doField_waits hi (hfit _ (mem_of_drop hf)) heq.symm
  | vfs hp hf heq =>
      rw [hp] at hfit
      exact doField_waits hi (hfit _ (mem_of_drop hf)) heq.symm

theorem Emits.queued_ne_nil {d : List UInt8} {h h' : HttpState} (e : Emits d h h')
    (hne : queued h ≠ [] ∨ d ≠ []) : queued h' ≠ [] := by
  rw [e.queue]
  rcases hne with hne | hne
  · simp [hne]
  · simp [hne]

theorem dynamicText_length (l : Nat) : (dynamicText l).length ≤ 23 := by
  have hone : (bytes "%").length = 1 := rfl
  have htext : (bytes "illegal dhtml primitive").length = 23 := rfl
  unfold dynamicText
  split <;> omega

/-- A file with primitives waits only with something in the ring, and does not fill the ring
further than the server asks for. -/
theorem dynamicLoop_ring {f : VfsEntry} {hdrState : Nat} :
    ∀ (n b e : Nat) (h : HttpState) (r : DoResult × HttpState), Indexed h → b ≤ e →
      e - b ≤ availableSendbuffer h → (queued h).length ≤ capacity →
      dynamicLoop f hdrState n b e (availableSendbuffer h) h = some r →
      (r.1 = .waiting → queued r.2 ≠ []) ∧ (queued r.2).length ≤ capacity := by
  intro n
  induction n with
  | zero => intro b e h r _ _ _ _ hr; cases hr
  | succ n ih =>
      intro b e h r hi hbe hav hq hr
      have eflush : Emits (f.data.slice b (e - b)) h (flushText f hdrState b e h) :=
        flushText_emits hi (lt_room hi hav)
      have hi₁ := eflush.indexed hi
      have hq₁ : (queued (flushText f hdrState b e h)).length ≤ capacity := by
        rw [availableSendbuffer_eq hi] at hav
        rw [eflush.queue, List.length_append, Mem.slice_length]
        unfold room capacity at *
        omega
      cases dynamicLoop_turn hr with
      | stop hstop hr =>
          subst hr
          refine ⟨fun hwait => ?_, hq₁⟩
          have hend : e ≠ f.len := by
            intro heq
            rw [if_pos heq] at hwait
            cases hwait
          -- the text looked at fills what room there was
          by_cases hzero : availableSendbuffer h = 0
          · exact eflush.queued_ne_nil (Or.inl (queued_ne_nil_of_full hi hzero))
          · exact eflush.queued_ne_nil (Or.inr (Mem.slice_ne_nil _ _ (by omega)))
      | text hgo hmap hc hr => exact ih b (e + 1) h r hi (by omega) (by omega) hq hr
      | @full q hc hclose hfull hr =>
          subst hr
          have hlen := dynamicText_length (q - (e + 1))
          have hlt : availableSendbuffer (flushText f hdrState b e h) < capacity := by
            unfold capacity sendbufferLen
            omega
          exact ⟨fun _ => Httpd.queued_ne_nil hi₁ hlt, hq₁⟩
      | @primitive q hgo hmap hc hclose hfit hr =>
          have e₂ := (putSendbuffer_emits hi₁ (d := dynamicText (q - (e + 1)))
            (lt_room hi₁ hfit)).setPriv (some (.vfs f (q + 1) hdrState))
          refine ih (q + 1) (q + 1) _ r (e₂.indexed hi₁) (Nat.le_refl _) (by omega) ?_ hr
          rw [availableSendbuffer_eq hi₁] at hfit
          rw [e₂.queue, List.length_append]
          unfold room capacity at *
          omega

theorem responseStaticDoData_waits {h h' : HttpState} (hi : Indexed h) (site : Site)
    (hr : responseStaticDoData h = some (.waiting, h')) :
    queued h' ≠ [] ∨ bodyRest site h' = [] := by
  cases responseStaticDoData_turn hr with
  | none hp hr => cases hr
  | full hzero hr =>
      cases hr
      exact Or.inl (queued_ne_nil_of_full hi hzero)
  | @sent data ptr len av hp hpos hav hr =>
      obtain ⟨hres, rfl⟩ := Prod.mk.inj hr
      have hsome : av ≠ 0 := by
        intro hzero
        have hlen : len = 0 := by omega
        simp [hlen] at hres
      by_cases hnil : (data.drop ptr).take av = []
      · right
        rw [List.take_eq_nil_iff] at hnil
        rcases hnil with hnil | hnil
        · exact absurd hnil hsome
        · show ((data.drop (ptr + av)).take (len - av)) = []
          rw [← List.drop_drop, hnil]
          simp
      · exact Or.inl ((static_emits hi data ptr len hav).queued_ne_nil (Or.inr hnil))

theorem responseMemDoData_waits {h h' : HttpState} (hi : Indexed h) (site : Site)
    (hr : responseMemDoData site h = some (.waiting, h')) :
    queued h' ≠ [] ∨ bodyRest site h' = [] := by
  cases responseMemDoData_turn hr with
  | full hzero hr =>
      cases hr
      exact Or.inl (queued_ne_nil_of_full hi hzero)
  | @sent base len ptr hdrState av hp hpos hav hr =>
      obtain ⟨h₁, heq, e, hp', -, -⟩ := memLoop_emits site.memory base len hdrState av hi
        (Nat.le_refl _) (lt_room hi (by omega)) hp
      rw [heq] at hr
      cases hr
      by_cases hnone : av = 0
      · right
        show privRest site h'.responsePriv = []
        rw [hp']
        show site.memory.slice _ _ = []
        rw [show len - (ptr + av) = 0 by omega]
        rfl
      · exact Or.inl (e.queued_ne_nil (Or.inr (Mem.slice_ne_nil _ _ hnone)))

theorem responseVfsDoData_waits {h h' : HttpState} (hi : Indexed h)
    (hr : responseVfsDoData h = some (.waiting, h')) : queued h' ≠ [] := by
  cases responseVfsDoData_turn hr with
  | full hzero hr =>
      cases hr
      exact queued_ne_nil_of_full hi hzero
  | ended hp hpos hflag hend hr => cases hr
  | @sent f ptr hdrState av hp hflag hav hsome hr =>
      cases hr
      exact (vfs_emits hi f ptr hdrState hav).queued_ne_nil (Or.inr (Mem.slice_ne_nil _ _ hsome))
  | page hp hpos hflag hr =>
      have hq := queued_le_capacity hi hpos
      exact (dynamicLoop_ring _ _ _ h _ hi (Nat.le_refl _) (by omega) hq hr).1 rfl

theorem doData_waits {site : Site} {h h' : HttpState} {hd : Handler} (hi : Indexed h)
    (hr : doData site h hd = some (.waiting, h')) :
    queued h' ≠ [] ∨ bodyRest site h' = [] := by
  cases hd with
  | mem => exact responseMemDoData_waits hi site hr
  | vfs => exact Or.inl (responseVfsDoData_waits hi hr)
  | fuses | err400 | err404 => exact responseStaticDoData_waits hi site hr

/-- Until the status line is out, there is no description of the code but one of the table. -/
def Described (h : HttpState) : Prop :=
  h.stateServer = .idle ∨ h.stateServer = .response → ∀ t, h.codeDescr = some t → t.length ≤ 21

theorem getDescr_length (code : Nat) : (getDescr code).length ≤ 21 := by
  have hok : (bytes "OK").length = 2 := rfl
  have h404 : (bytes "Not Found").length = 9 := rfl
  have h400 : (bytes "Bad Request").length = 11 := rfl
  have h500 : (bytes "Internal Server Error").length = 21 := rfl
  unfold getDescr
  split <;> omega

theorem Described.getD {h : HttpState} (hd : Described h) (hs : h.stateServer = .response) :
    (h.codeDescr.getD (getDescr h.code)).length ≤ 21 := by
  cases hc : h.codeDescr with
  | none => exact getDescr_length h.code
  | some t => exact hd (Or.inr hs) t hc

/-- **A server that is left waiting has something in the ring, or nothing left to send.** -/
theorem serverStep_waits {site : Site} {h h' : HttpState} (hi : Indexed h) (hdescr : Described h)
    (hfit : LinesFit h.responsePriv) (hr : serverStep site h = some (true, h')) :
    queued h' ≠ [] ∨ rest site h' = [] := by
  cases serverStep_turn hr with
  | idle hs => exact Or.inr (by simp [rest, hs])
  | full hs hsent =>
      have hlen := hdescr.getD hs
      obtain ⟨hfull, rfl⟩ := sendStatus_full hsent
      left
      refine queued_ne_nil (h := { h with codeDescr := some (h.codeDescr.getD (getDescr h.code)) })
        ⟨hi.read_lt, hi.write_lt⟩ (Nat.lt_of_lt_of_le hfull ?_)
      unfold capacity sendbufferLen
      omega
  | waits w =>
      cases w with
      | header hs hh hdo => exact Or.inl (doHeader_waits hi hfit hdo)
      | data hs hh hdo =>
          have hserver := (doData_sends hi hdo).server
          rcases doData_waits hi hdo with hne | hnil
          · exact Or.inl hne
          · exact Or.inr ((rest_eq.2.2 (hserver.trans hs)).trans hnil)
  | close hs => exact Or.inr (by simp [rest, hs])

/-! ### Coming to the end -/

/-- What of the response TCP has not taken yet. -/
def left (site : Site) (h : HttpState) : Nat := (queued h).length + (rest site h).length

/-- The handler does not come to the end of its body in the next call, with `n` bytes of the
response not yet taken by TCP and room for `av`: it is the one that never does, it is at a file
without primitives and can put a piece of it or nothing at all, or more is left than the ring
takes. -/
def PrivLeft (n av : Nat) : Option Priv → Prop
  | none => False
  | some (.mem _ _ _ _) => True
  | some (.vfs f ptr _) => if f.flags &&& 1 = 0 then ptr < f.len ∨ av = 0 else capacity < n
  | some (.static _ _ _) => capacity < n

instance PrivLeft.decidable (n av : Nat) : (p : Option Priv) → Decidable (PrivLeft n av p)
  | none => isFalse id
  | some (.mem _ _ _ _) => isTrue trivial
  | some (.vfs f ptr _) => inferInstanceAs
      (Decidable (if f.flags &&& 1 = 0 then ptr < f.len ∨ av = 0 else capacity < n))
  | some (.static _ _ _) => inferInstanceAs (Decidable (capacity < n))

theorem privLeft_vfs {n av : Nat} {f : VfsEntry} {ptr hdrState : Nat} :
    PrivLeft n av (some (.vfs f ptr hdrState)) ↔
      if f.flags &&& 1 = 0 then ptr < f.len ∨ av = 0 else capacity < n :=
  Iff.rfl

theorem privLeft_static {n av : Nat} {data : List UInt8} {ptr len : Nat} :
    PrivLeft n av (some (.static data ptr len)) ↔ capacity < n :=
  Iff.rfl

def BodyLeft (n : Nat) (h : HttpState) : Prop :=
  PrivLeft n (availableSendbuffer h) h.responsePriv

theorem BodyLeft.congr {n : Nat} {h h' : HttpState} (hb : BodyLeft n h)
    (hp : h'.responsePriv = h.responsePriv)
    (hav : availableSendbuffer h ≠ 0 ∨ availableSendbuffer h' = 0) : BodyLeft n h' := by
  unfold BodyLeft at hb ⊢
  rw [hp]
  match h.responsePriv, hb with
  | some (.mem _ _ _ _), _ => trivial
  | some (.static _ _ _), hb => exact hb
  | some (.vfs f ptr hdrState), hb =>
      rw [privLeft_vfs] at hb ⊢
      split
      · rename_i hflag
        rw [if_pos hflag] at hb
        rcases hb with hlt | hzero
        · exact Or.inl hlt
        · rcases hav with hne | hzero'
          · exact absurd hzero hne
          · exact Or.inr hzero'
      · rename_i hflag
        rw [if_neg hflag] at hb
        exact hb

/-- A header line that has been sent: there was room, and only the handler's notes changed. -/
theorem doField_sent {h h' : HttpState} {t o : List UInt8} {next : Priv} {res : DoResult}
    (hne : res ≠ .waiting) (hr : doField t o next h = (res, h')) :
    availableSendbuffer h ≠ 0 ∧ h'.responsePriv = some next := by
  unfold doField at hr
  split at hr
  · cases hr
    exact absurd rfl hne
  · cases hr
    exact ⟨by omega, rfl⟩

/-- The next header line changes nothing about that. -/
theorem doField_bodyLeft {n : Nat} {h h' : HttpState} {t o : List UInt8} {f : VfsEntry}
    {ptr hdrState : Nat} (hp : h.responsePriv = some (.vfs f ptr hdrState)) (next : Nat)
    {res : DoResult} (hne : res ≠ .waiting) (hb : BodyLeft n h)
    (hr : doField t o (.vfs f ptr next) h = (res, h')) : BodyLeft n h' := by
  obtain ⟨hpos, hp'⟩ := doField_sent hne hr
  unfold BodyLeft at hb ⊢
  rw [hp, privLeft_vfs] at hb
  rw [hp', privLeft_vfs]
  split
  · rename_i hflag
    rw [if_pos hflag] at hb
    exact Or.inl (hb.resolve_right hpos)
  · rename_i hflag
    rw [if_neg hflag] at hb
    exact hb

theorem doStdHeader_bodyLeft {n : Nat} {h h' : HttpState} {res : DoResult} (hb : BodyLeft n h)
    (hr : doStdHeader h = (res, h')) : BodyLeft n h' := by
  have hsame : availableSendbuffer h ≠ 0 ∨ availableSendbuffer h = 0 := ne_or_eq _ _
  have hp := doStdHeader_priv h
  have hturn := doStdHeader_turn h
  rw [hr] at hp hturn
  refine hb.congr hp ?_
  cases hturn with
  | full hs hfull hr =>
      cases hr
      exact hsame
  | sent hs hfit hr =>
      have hpos := hs.pos
      exact Or.inl (by omega)
  | ended hs hr =>
      cases hr
      exact hsame

theorem doHeader_bodyLeft {n : Nat} {h h' : HttpState} {hd : Handler} {res : DoResult}
    (hne : res ≠ .waiting) (hb : BodyLeft n h) (hr : doHeader h hd = some (res, h')) :
    BodyLeft n h' := by
  cases doHeader_turn hr with
  | std hf heq => exact doStdHeader_bodyLeft hb heq.symm
  | mem hp hf heq =>
      unfold BodyLeft
      rw [(doField_sent hne heq.symm).2]
      trivial
  | vfs hp hf heq => exact doField_bodyLeft hp _ hne hb heq.symm

/-- A static body is not done while more is left than the ring holds afterwards. -/
theorem responseStaticDoData_not_done {h h' : HttpState} (hi : Indexed h)
    (hb : BodyLeft (queued h').length h) (hr : responseStaticDoData h = some (.done, h')) :
    False := by
  unfold BodyLeft at hb
  cases responseStaticDoData_turn hr with
  | none hp hr =>
      rw [hp] at hb
      exact hb
  | full hzero hr => cases hr
  | @sent data ptr len av hp hpos hav hr =>
      rw [hp, privLeft_static] at hb
      obtain ⟨-, rfl⟩ := Prod.mk.inj hr
      rw [(static_emits hi data ptr len hav).queue, List.length_append, List.length_take] at hb
      rw [availableSendbuffer_eq hi] at hpos hav
      unfold room capacity at *
      omega

/-- Nor is a body from the table of files. -/
theorem responseVfsDoData_not_done {h h' : HttpState} (hi : Indexed h)
    (hb : BodyLeft (queued h').length h) (hr : responseVfsDoData h = some (.done, h')) :
    False := by
  unfold BodyLeft at hb
  cases responseVfsDoData_turn hr with
  | full hzero hr => cases hr
  | ended hp hpos hflag hend hr =>
      rw [hp, privLeft_vfs, if_pos hflag] at hb
      have hlt := hb.resolve_right hpos
      omega
  | sent hp hflag hav hsome hr => cases hr
  | page hp hpos hflag hr =>
      rw [hp, privLeft_vfs, if_neg hflag] at hb
      have hring := (dynamicLoop_ring _ _ _ h _ hi (Nat.le_refl _) (by omega)
        (queued_le_capacity hi hpos) hr).2
      dsimp only at hring
      omega

/-- A body that is said to be done was not said to be left. -/
theorem doData_not_done {site : Site} {h h' : HttpState} {hd : Handler} (hi : Indexed h)
    (hs : h.stateServer = .data) (hb : BodyLeft (left site h) h)
    (hr : doData site h hd = some (.done, h')) : False := by
  have hsends := doData_sends hi hr
  obtain ⟨d, e, hd'⟩ := hsends.emits
  -- all that was left is in the ring now
  have hleft : left site h = (queued h').length := by
    have hnil : bodyRest site h' = [] := hsends.done rfl
    unfold left
    rw [rest_eq.2.2 hs, hd', hnil, e.queue, List.append_nil, List.length_append]
  rw [hleft] at hb
  cases hd with
  | mem => cases responseMemDoData_waiting hr
  | vfs => exact responseVfsDoData_not_done hi hb hr
  | fuses | err400 | err404 => exact responseStaticDoData_not_done hi hb hr

/-- The server is not at its end, and does not come to it in the next call. -/
structure Unfinished (site : Site) (h : HttpState) : Prop where
  server : h.stateServer ≠ .close
  body : BodyLeft (left site h) h

theorem serverStep_left {site : Site} {h h' : HttpState} {stop : Bool} (hi : Indexed h)
    (hr : serverStep site h = some (stop, h')) : left site h' = left site h := by
  obtain ⟨d, e, hrest⟩ := serverStep_sends hi hr
  unfold left
  rw [hrest, e.queue, List.length_append, List.length_append]
  omega

theorem serverStep_unfinished {site : Site} {h h' : HttpState} {stop : Bool} (hi : Indexed h)
    (hu : Unfinished site h) (hr : serverStep site h = some (stop, h')) :
    h'.stateServer ≠ .close ∧ (stop = false → Unfinished site h') := by
  have hleft := serverStep_left hi hr
  have hbody := hu.body
  cases serverStep_turn hr with
  | idle hs => exact ⟨hu.server, fun hc => by cases hc⟩
  | full hs hsent =>
      obtain ⟨-, rfl⟩ := sendStatus_full hsent
      exact ⟨hu.server, fun hc => by cases hc⟩
  | status hs hsent =>
      obtain ⟨hfit, hheader, -, hpriv, -⟩ := sendStatus_sent hsent
      have hne : h'.stateServer ≠ .close := by simp [hheader]
      refine ⟨hne, fun _ => ⟨hne, ?_⟩⟩
      rw [hleft]
      exact hbody.congr hpriv (Or.inl (by omega))
  | @done next h₁ w =>
      cases w with
      | header hs hh hdo =>
          refine ⟨by simp, fun _ => ⟨by simp, ?_⟩⟩
          rw [hleft]
          exact (doHeader_bodyLeft (by simp) hbody hdo).congr rfl (by
            by_cases hzero : availableSendbuffer h₁ = 0
            · exact Or.inr hzero
            · exact Or.inl hzero)
      | data hs hh hdo => exact (doData_not_done hi hs hbody hdo).elim
  | waits w =>
      refine ⟨?_, fun hc => by cases hc⟩
      rw [w.server hi]
      exact hu.server
  | again w =>
      have hne : h'.stateServer ≠ .close := by
        rw [w.server hi]
        exact hu.server
      refine ⟨hne, fun _ => ⟨hne, ?_⟩⟩
      rw [hleft]
      cases w with
      | header hs hh hdo => exact doHeader_bodyLeft (by simp) hbody hdo
      | data hs hh hdo => exact absurd hdo doData_not_again
  | close hs => exact absurd hs hu.server

end Xell.Httpd
