/-
The loops of the server come to their end.

The loop of `httpd_handle_server` goes on only after it has put a status line or a header
line or has gone to the next state, which makes eight turns at most.  In a file whose `%`
come in pairs the search for the closing one ends inside the file, and so does the loop
over it.  Together: with files like that, the server never follows a pointer that leads
nowhere.
-/
import Xell.Proofs.Httpd.Server

namespace Xell.Httpd

/-! ### Eight turns -/

/-- The header lines that are still to come, standard ones included. -/
def headersLeft (h : HttpState) : Nat :=
  (fieldsRest h.handler h.responsePriv).length + (2 - h.stdHeaderState)

/-- A bound on the turns of the server from this state on. -/
def turns (h : HttpState) : Nat :=
  match h.stateServer with
  | .idle => 1
  | .response => 8
  | .header => 3 + headersLeft h
  | .data => 2
  | .close => 1

theorem fieldsRest_length_le (hd : Option Handler) (p : Option Priv) :
    (fieldsRest hd p).length ≤ 2 := by
  unfold fieldsRest
  split
  · rw [List.length_drop]
    exact Nat.sub_le _ _
  · rw [List.length_drop]
    exact (Nat.sub_le _ _).trans (vfsFields_length_le _)
  · exact Nat.zero_le _

theorem turns_le (h : HttpState) : turns h ≤ 8 := by
  have := fieldsRest_length_le h.handler h.responsePriv
  unfold turns headersLeft
  split <;> omega

theorem turns_pos (h : HttpState) : 0 < turns h := by
  unfold turns
  split <;> omega

/-- A header line has gone out. -/
def OneLess (h h' : HttpState) : Prop :=
  headersLeft h' < headersLeft h ∧ h'.stateServer = h.stateServer

theorem doStdHeader_again {h h' : HttpState} (hr : doStdHeader h = (.again, h')) :
    OneLess h h' := by
  have hturn := doStdHeader_turn h
  rw [hr] at hturn
  cases hturn with
  | full hs hfull hr => cases hr
  | sent hs hfit hr =>
      cases hr
      have hlt := hs.lt
      refine ⟨?_, by simp⟩
      simp only [headersLeft, putSendbuffer_handler, putSendbuffer_responsePriv]
      omega
  | ended hs hr => cases hr

theorem doField_again {h h' : HttpState} {t o : List UInt8} {next : Priv}
    (hr : doField t o next h = (.again, h'))
    (hf : (fieldsRest h.handler (some next)).length
      < (fieldsRest h.handler h.responsePriv).length) : OneLess h h' := by
  unfold doField at hr
  split at hr
  · cases hr
  · cases hr
    refine ⟨?_, by simp⟩
    simp only [headersLeft, putSendbuffer_handler, putSendbuffer_stdHeaderState]
    omega

theorem doHeader_again {h h' : HttpState} {hd : Handler} (hh : h.handler = some hd)
    (hr : doHeader h hd = some (.again, h')) : OneLess h h' := by
  cases doHeader_turn hr with
  | std hf heq => exact doStdHeader_again heq.symm
  | mem hp hf heq =>
      refine doField_again heq.symm ?_
      rw [hh, hp]
      show _ < ((memFields _).drop _).length
      rw [hf]
      exact Nat.lt_succ_self _
  | vfs hp hf heq =>
      refine doField_again heq.symm ?_
      rw [hh, hp]
      show _ < ((vfsFields _).drop _).length
      rw [hf]
      exact Nat.lt_succ_self _

/-- No `do_data` asks to be called again at once. -/
theorem dynamicLoop_not_again {f : VfsEntry} {hdrState n b e av : Nat} {h h' : HttpState} :
    dynamicLoop f hdrState n b e av h ≠ some (.again, h') := by
  induction n generalizing b e av h with
  | zero =>
      intro hr
      cases hr
  | succ n ih =>
      intro hr
      cases dynamicLoop_turn hr with
      | stop hstop hr =>
          have hres := congrArg Prod.fst hr
          dsimp only at hres
          split at hres
          · cases hres
          · cases hres
      | text hgo hmap hc hr => exact ih hr
      | full hc hq hfull hr => cases hr
      | primitive hgo hmap hc hq hfit hr => exact ih hr

theorem doData_not_again {site : Site} {h h' : HttpState} {hd : Handler} :
    doData site h hd ≠ some (.again, h') := by
  intro hr
  have hstatic : responseStaticDoData h ≠ some (.again, h') := by
    intro hr
    cases responseStaticDoData_turn hr with
    | none hp hr => cases hr
    | full hzero hr => cases hr
    | sent hp hpos hav hr =>
        have hres := congrArg Prod.fst hr
        dsimp only at hres
        split at hres
        · cases hres
        · cases hres
  cases hd with
  | mem => cases responseMemDoData_waiting hr
  | vfs =>
      cases responseVfsDoData_turn hr with
      | full hzero hr => cases hr
      | ended hp hpos hflag hend hr => cases hr
      | sent hp hflag hav hsome hr => cases hr
      | page hp hpos hflag hr => exact dynamicLoop_not_again hr
  | fuses | err400 | err404 => exact hstatic hr

/-- A turn that does not leave the loop brings its end nearer. -/
theorem serverStep_turns {site : Site} {h h' : HttpState}
    (hr : serverStep site h = some (false, h')) : turns h' < turns h := by
  cases serverStep_turn hr with
  | status hs hsent =>
      have hbound := fieldsRest_length_le h'.handler h'.responsePriv
      have hstate := (sendStatus_sent hsent).2.1
      simp only [turns, hs, hstate, headersLeft]
      omega
  | done w =>
      cases w with
      | header hs hh hdo =>
          simp only [turns, hs]
          omega
      | data hs hh hdo => simp [turns, hs]
  | again w =>
      cases w with
      | header hs hh hdo =>
          obtain ⟨hless, hsame⟩ := doHeader_again hh hdo
          simp only [turns, hsame, hs]
          omega
      | data hs hh hdo => exact absurd hdo doData_not_again

/-- **Eight turns are enough**: more of them change nothing. -/
theorem handleServerLoop_turns {site : Site} {n k : Nat} {h : HttpState} (hn : turns h ≤ n) :
    handleServerLoop site (n + k) h = handleServerLoop site n h := by
  induction n generalizing h with
  | zero =>
      have := turns_pos h
      omega
  | succ n ih =>
      rw [show n + 1 + k = (n + k) + 1 by omega]
      unfold handleServerLoop
      split
      · rfl
      · rfl
      · rename_i h' hs
        exact ih (by have := serverStep_turns hs; omega)

/-! ### Files with primitives -/

theorem closing_lt {f : VfsEntry} {n e q : Nat} (h : closing f n e = some q) : q < e + n := by
  induction n generalizing e with
  | zero => cases h
  | succ n ih =>
      unfold closing at h
      split at h
      · cases h
        omega
      · have := ih h
        omega

/-- No turn of the loop over a file is without a step forward, and none goes past the memory
that is there. -/
theorem dynamicLoop_turns {f : VfsEntry} {hdrState n b e av : Nat} {h : HttpState} (k : Nat)
    (hn : 0 < n) (hmap : f.mapped < e + n) :
    dynamicLoop f hdrState (n + k) b e av h = dynamicLoop f hdrState n b e av h := by
  induction n generalizing b e av h with
  | zero => omega
  | succ n ih =>
      rw [show n + 1 + k = (n + k) + 1 by omega]
      unfold dynamicLoop
      split
      · split
        · rfl
        · split
          · dsimp only
            split
            · rfl
            · rename_i q hq
              have hlt := closing_lt hq
              have hge := closing_ge hq
              split
              · rfl
              · exact ih (by omega) (by omega)
          · exact ih (by omega) (by omega)
      · rfl

/-! ### Pairs -/

/-- With an odd number of `%` ahead the search finds one, and an even number is left. -/
theorem closing_of_odd {f : VfsEntry} {n k e : Nat} (hk : k ≤ n)
    (hodd : Odd ((f.data.slice e k).count 0x25)) :
    ∃ q, closing f n e = some q ∧ q < e + k ∧
      Even ((f.data.slice (q + 1) (e + k - (q + 1))).count 0x25) := by
  induction n generalizing k e with
  | zero =>
      obtain rfl : k = 0 := by omega
      simp [Mem.slice] at hodd
  | succ n ih =>
      cases k with
      | zero => simp [Mem.slice] at hodd
      | succ k =>
          rw [Mem.slice_succ] at hodd
          unfold closing
          by_cases hc : f.data e = 0x25
          · rw [hc, List.count_cons_self, Nat.odd_add_one, Nat.not_odd_iff_even] at hodd
            refine ⟨e, if_pos hc, by omega, ?_⟩
            rw [show e + (k + 1) - (e + 1) = k by omega]
            exact hodd
          · rw [List.count_cons_of_ne hc] at hodd
            obtain ⟨q, hq, hlt, heven⟩ := ih (by omega) hodd
            refine ⟨q, (if_neg hc).trans hq, by omega, ?_⟩
            rw [show e + (k + 1) - (q + 1) = e + 1 + k - (q + 1) by omega]
            exact heven

namespace Paired

variable {f : VfsEntry} {e : Nat}

theorem lt_len (hp : Paired f e) (hlen : e ≠ f.len) : e < f.len := by
  have := hp.1
  omega

theorem text (hp : Paired f e) (hlen : e ≠ f.len) (hc : f.data e ≠ 0x25) : Paired f (e + 1) := by
  have hlt := hp.lt_len hlen
  obtain ⟨-, heven⟩ := hp
  rw [show f.len - e = f.len - (e + 1) + 1 by omega, Mem.slice_succ,
    List.count_cons_of_ne hc] at heven
  exact ⟨hlt, heven⟩

theorem primitive (hp : Paired f e) (hlen : e ≠ f.len) (hc : f.data e = 0x25) :
    ∃ q, closing f (f.mapped - (e + 1)) (e + 1) = some q ∧ Paired f (q + 1) := by
  have hlt := hp.lt_len hlen
  have hmap := f.len_le
  obtain ⟨-, heven⟩ := hp
  rw [show f.len - e = f.len - (e + 1) + 1 by omega, Mem.slice_succ, hc, List.count_cons_self,
    Nat.even_add_one, Nat.not_even_iff_odd] at heven
  obtain ⟨q, hq, hqlt, hrest⟩ := closing_of_odd (n := f.mapped - (e + 1)) (by omega) heven
  refine ⟨q, hq, by omega, ?_⟩
  rw [show e + 1 + (f.len - (e + 1)) - (q + 1) = f.len - (q + 1) by omega] at hrest
  exact hrest

end Paired

theorem dynamicLoop_total {f : VfsEntry} {hdrState n b e : Nat} (av : Nat) {h : HttpState}
    (hpair : Paired f e) (hn : f.len < e + n)
    (hp : h.responsePriv = some (.vfs f b hdrState)) :
    ∃ r p, dynamicLoop f hdrState n b e av h = some r ∧
      r.2.responsePriv = some (.vfs f p hdrState) ∧ Paired f p := by
  induction n generalizing b e av h with
  | zero =>
      have := hpair.1
      omega
  | succ n ih =>
      have hflush := (flushText_frame e hp).1
      unfold dynamicLoop
      split
      · rename_i hgo
        have hlt := hpair.lt_len hgo.2
        have hmap := f.len_le
        rw [if_neg (by omega)]
        split
        · rename_i hc
          obtain ⟨q, hq, hpair'⟩ := hpair.primitive hgo.2 hc
          have hge := closing_ge hq
          rw [hq]
          dsimp only
          split
          · rename_i h₂ heq
            have hsame : h₂ = flushText f hdrState b e h := by
              unfold responseVfsDoDynamic at heq
              dsimp only at heq
              split at heq <;> cases heq
              rfl
            exact ⟨_, e, rfl, by rw [hsame]; exact hflush, hpair⟩
          · exact ih _ hpair' (by omega) rfl
        · rename_i hc
          exact ih _ (hpair.text hgo.2 hc) (by omega) hp
      · exact ⟨_, e, rfl, hflush, hpair⟩

/-! ### No fault -/

/-- The private data is the handler's own, in a state its functions know. -/
inductive Matches : Handler → Option Priv → Prop
  | mem {base len ptr hdrState : Nat} (hle : hdrState ≤ 2) :
      Matches .mem (some (.mem base len ptr hdrState))
  | vfs {f : VfsEntry} {ptr hdrState : Nat} (hle : hdrState ≤ 2)
      (hpair : ¬f.flags &&& 1 = 0 → Paired f ptr) : Matches .vfs (some (.vfs f ptr hdrState))
  | static {hd : Handler} {data : List UInt8} {ptr len : Nat} (hmem : hd ≠ .mem)
      (hvfs : hd ≠ .vfs) : Matches hd (some (.static data ptr len))

theorem doStdHeader_priv (h : HttpState) : (doStdHeader h).2.responsePriv = h.responsePriv := by
  cases doStdHeader_turn h with
  | full hs hfull hr => rw [hr]
  | sent hs hfit hr =>
      rw [hr]
      simp
  | ended hs hr => rw [hr]

theorem doField_priv {P : Option Priv → Prop} {h : HttpState} (t o : List UInt8) {next : Priv}
    (hold : P h.responsePriv) (hnew : P (some next)) : P (doField t o next h).2.responsePriv := by
  unfold doField
  split
  · exact hold
  · exact hnew

theorem doHeader_total {h : HttpState} {hd : Handler} (hm : Matches hd h.responsePriv) :
    ∃ r, doHeader h hd = some r ∧ Matches hd r.2.responsePriv := by
  have hstd : Matches hd (doStdHeader h).2.responsePriv := by
    rw [doStdHeader_priv]
    exact hm
  generalize hp : h.responsePriv = p at hm
  cases hm with
  | @mem base len ptr hdrState hle =>
      have hnext : ∀ n ≤ 2, Matches .mem (some (.mem base len ptr n)) := fun n hn => .mem hn
      have hold := hnext hdrState hle
      rw [← hp] at hold
      simp only [doHeader, responseMemDoHeader, hp]
      match hdrState, hle with
      | 0, _ => exact ⟨_, rfl, doField_priv _ _ hold (hnext 1 (by omega))⟩
      | 1, _ => exact ⟨_, rfl, doField_priv _ _ hold (hnext 2 (by omega))⟩
      | 2, _ => exact ⟨_, rfl, hstd⟩
  | @vfs f ptr hdrState hle hpair =>
      have hnext : ∀ n ≤ 2, Matches .vfs (some (.vfs f ptr n)) := fun n hn => .vfs hn hpair
      have hold := hnext hdrState hle
      rw [← hp] at hold
      simp only [doHeader, responseVfsDoHeader, hp]
      match hdrState, hle with
      | 0, _ => exact ⟨_, rfl, doField_priv _ _ hold (hnext 1 (by omega))⟩
      | 1, _ =>
          by_cases hflag : f.flags &&& 1 = 0
          · exact ⟨_, if_pos hflag, doField_priv _ _ hold (hnext 2 (by omega))⟩
          · exact ⟨_, if_neg hflag, hstd⟩
      | 2, _ => exact ⟨_, rfl, hstd⟩
  | static hmem hvfs =>
      cases hd with
      | mem => exact absurd rfl hmem
      | vfs => exact absurd rfl hvfs
      | fuses | err400 | err404 => exact ⟨_, rfl, hstd⟩

theorem doData_total (site : Site) {h : HttpState} {hd : Handler} (hi : Indexed h)
    (hm : Matches hd h.responsePriv) :
    ∃ r, doData site h hd = some r ∧ Matches hd r.2.responsePriv := by
  have hwait : Matches hd h.responsePriv := hm
  generalize hp : h.responsePriv = p at hm
  cases hm with
  | @mem base len ptr hdrState hle =>
      simp only [doData, responseMemDoData, hp]
      split
      · exact ⟨_, rfl, hwait⟩
      · obtain ⟨h', heq, -, hp', -, -⟩ := memLoop_emits site.memory base len hdrState
          (min (availableSendbuffer h) (len - ptr)) hi (Nat.le_refl _)
          (lt_room hi (by omega)) hp
        refine ⟨_, rfl, ?_⟩
        dsimp only
        rw [heq, hp']
        exact .mem hle
  | @vfs f ptr hdrState hle hpair =>
      simp only [doData, responseVfsDoData, hp]
      split
      · exact ⟨_, rfl, hwait⟩
      · split
        · rename_i hflag
          split
          · exact ⟨_, rfl, hwait⟩
          · exact ⟨_, rfl, .vfs hle fun hne => absurd hflag hne⟩
        · rename_i hflag
          have hmap := f.len_le
          obtain ⟨r, p', hr, hp', hpair'⟩ := dynamicLoop_total (n := f.mapped + 1)
            (availableSendbuffer h) (hpair hflag) (by omega) hp
          refine ⟨r, hr, ?_⟩
          rw [hp']
          exact .vfs hle fun _ => hpair'
  | @static _ data ptr len hmem hvfs =>
      have hstatic : ∃ r, responseStaticDoData h = some r ∧ Matches hd r.2.responsePriv := by
        simp only [responseStaticDoData, hp]
        split
        · exact ⟨_, rfl, hwait⟩
        · exact ⟨_, rfl, .static hmem hvfs⟩
      cases hd with
      | mem => exact absurd rfl hmem
      | vfs => exact absurd rfl hvfs
      | fuses | err400 | err404 => exact hstatic

/-- The server can go on from here: it has nothing to do, or a handler to do it. -/
def Ready (h : HttpState) : Prop :=
  (h.stateServer = .idle ∨ h.stateServer = .close) ∨
    ∃ hd, h.handler = some hd ∧ Matches hd h.responsePriv

theorem Ready.handler {h : HttpState} (hready : Ready h) (hidle : h.stateServer ≠ .idle)
    (hclose : h.stateServer ≠ .close) :
    ∃ hd, h.handler = some hd ∧ Matches hd h.responsePriv := by
  rcases hready with (hs | hs) | hready
  · exact absurd hs hidle
  · exact absurd hs hclose
  · exact hready

theorem advanceServer_ready {next : ServerState} {r : DoResult × HttpState} {hd : Handler}
    (hh : r.2.handler = some hd) (hm : Matches hd r.2.responsePriv) :
    Ready (advanceServer next r).2 := by
  obtain ⟨res, h⟩ := r
  cases res with
  | done | waiting | again => exact .inr ⟨hd, hh, hm⟩

theorem serverStep_total (site : Site) {h : HttpState} (hi : Indexed h) (hready : Ready h) :
    ∃ stop h', serverStep site h = some (stop, h') ∧ Ready h' := by
  unfold serverStep
  split
  · exact ⟨_, _, rfl, hready⟩
  · rename_i hs
    obtain ⟨hd, hh, hm⟩ := hready.handler (by simp [hs]) (by simp [hs])
    refine ⟨_, _, rfl, .inr ⟨hd, ?_⟩⟩
    unfold sendStatus
    dsimp only
    split
    · exact ⟨hh, hm⟩
    · simp [hh, hm]
  · rename_i hs
    obtain ⟨hd, hh, hm⟩ := hready.handler (by simp [hs]) (by simp [hs])
    obtain ⟨r, hr, hm'⟩ := doHeader_total hm
    have hh' := (doHeader_sends hi site hh hr).handler
    rw [hh, Option.bind_some, hr]
    exact ⟨_, _, rfl, advanceServer_ready (hh'.trans hh) hm'⟩
  · rename_i hs
    obtain ⟨hd, hh, hm⟩ := hready.handler (by simp [hs]) (by simp [hs])
    obtain ⟨r, hr, hm'⟩ := doData_total site hi hm
    have hh' := (doData_sends hi hr).handler
    rw [hh, Option.bind_some, hr]
    exact ⟨_, _, rfl, advanceServer_ready (hh'.trans hh) hm'⟩
  · rename_i hs
    exact ⟨_, _, rfl, .inl (.inr hs)⟩

/-- **The server returns** from every state it can go on from. -/
theorem handleServer_total (site : Site) {h : HttpState} (hi : Indexed h) (hready : Ready h) :
    ∃ h', handleServer site h = some h' ∧ Ready h' := by
  have hloop : ∀ n h, turns h ≤ n → Indexed h → Ready h →
      ∃ h', handleServerLoop site n h = some h' ∧ Ready h' := by
    intro n
    induction n with
    | zero =>
        intro h hn
        have := turns_pos h
        omega
    | succ n ih =>
        intro h hn hi hready
        obtain ⟨stop, h₁, hs, hready₁⟩ := serverStep_total site hi hready
        unfold handleServerLoop
        rw [hs]
        cases stop with
        | true => exact ⟨h₁, rfl, hready₁⟩
        | false =>
            obtain ⟨d, e, -⟩ := serverStep_sends hi hs
            have hless := serverStep_turns hs
            exact ih h₁ (by omega) (e.indexed hi) hready₁
  exact hloop 8 h (turns_le h) hi hready

end Xell.Httpd
