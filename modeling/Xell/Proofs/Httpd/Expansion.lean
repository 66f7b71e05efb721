/-
The pages with primitives, over any number of calls.

`response_vfs_do_data` stops wherever the room ends and goes on from `ptr` when it is called
again.  How much room there is at each call depends on how far the other side has read the ring
in the meantime, which can be anything.  `expand` is what the page stands for, as a function of
its bytes alone; `dataCalls` makes the calls, one after another, with the ring read to any place
before each.

`ptr` never stands inside of a primitive, so that what is still to come is always the expansion
of what is behind it (`dhtml_eq_expand`), and a call only moves a piece of it to what was put.
-/
import Xell.Proofs.Httpd.Turns

namespace Xell.Httpd

/-! ### The expansion of a page -/

/-- The expansion of a text, outside of a primitive or behind so many bytes of its name. -/
def expand : Option Nat → List UInt8 → List UInt8
  | _, [] => []
  | none, c :: cs => if c = 0x25 then expand (some 0) cs else c :: expand none cs
  | some 0, c :: cs => if c = 0x25 then 0x25 :: expand none cs else expand (some 1) cs
  | some (n + 1), c :: cs =>
      if c = 0x25 then bytes "illegal dhtml primitive" ++ expand none cs
      else expand (some (n + 2)) cs

example : expand none (bytes "100%% of %x%!") = bytes "100% of illegal dhtml primitive!" := by
  decide

theorem expand_none (c : UInt8) (cs : List UInt8) :
    expand none (c :: cs) = if c = 0x25 then expand (some 0) cs else c :: expand none cs :=
  rfl

theorem expand_some (n : Nat) (c : UInt8) (cs : List UInt8) :
    expand (some n) (c :: cs) =
      if c = 0x25 then dynamicText n ++ expand none cs else expand (some (n + 1)) cs := by
  cases n with
  | zero => rfl
  | succ n => rfl

/-- The name of a primitive is skipped up to the `%` that closes it. -/
theorem expand_closing {f : VfsEntry} {n e q k : Nat} (hq : closing f n e = some q)
    (hlt : q < f.len) :
    expand (some k) (f.data.slice e (f.len - e)) =
      dynamicText (k + (q - e)) ++ expand none (f.data.slice (q + 1) (f.len - (q + 1))) := by
  induction n generalizing e k with
  | zero => cases hq
  | succ n ih =>
      have hge := closing_ge hq
      rw [show f.len - e = f.len - (e + 1) + 1 by omega, Mem.slice_succ, expand_some]
      unfold closing at hq
      split at hq
      · rename_i hc
        cases hq
        rw [if_pos hc, Nat.sub_self]
        rfl
      · rename_i hc
        have hge' := closing_ge hq
        rw [if_neg hc, ih hq, show k + 1 + (q - (e + 1)) = k + (q - e) by omega]

/-- What is to come from a place outside of the primitives is the expansion of the rest. -/
theorem dhtml_eq_expand {f : VfsEntry} {e : Nat} (hpair : Paired f e) :
    dhtml f e = expand none (f.data.slice e (f.len - e)) := by
  induction hm : f.len - e using Nat.strong_induction_on generalizing e with
  | _ m ih =>
      by_cases hlen : e = f.len
      · obtain rfl : m = 0 := by omega
        rw [hlen, dhtml_len]
        rfl
      have hlt := hpair.lt_len hlen
      have hmap := f.len_le
      by_cases hc : f.data e = 0x25
      · obtain ⟨q, hq, hpair'⟩ := hpair.primitive hlen hc
        have hge := closing_ge hq
        have hqlt : q < f.len := hpair'.1
        rw [dhtml_primitive hlen (by omega) hc hq, ih _ (by omega) hpair' rfl, ← hm,
          show f.len - e = f.len - (e + 1) + 1 by omega, Mem.slice_succ, expand_none, if_pos hc,
          expand_closing hq hqlt, Nat.zero_add]
      · rw [dhtml_text hlen (by omega) hc, ih _ (by omega) (hpair.text hlen hc) rfl, ← hm,
          show f.len - e = f.len - (e + 1) + 1 by omega, Mem.slice_succ, expand_none, if_neg hc]

/-! ### The places that are read -/

/-- The places that the search for the closing `%` looks at. -/
def closingReads (f : VfsEntry) : Nat → Nat → List Nat
  | 0, _ => []
  | n + 1, e => e :: if f.data e = 0x25 then [] else closingReads f n (e + 1)

/-- The places of the file that the loop of `response_vfs_do_data` reads: what it looks at, and
the text that it copies. -/
def dynamicReads (f : VfsEntry) (hdrState : Nat) : Nat → Nat → Nat → Nat → HttpState → List Nat
  | 0, _, _, _, _ => []
  | n + 1, b, e, av, h =>
      if e - b < av ∧ e ≠ f.len then
        e :: if f.mapped ≤ e then []
          else if f.data e = 0x25 then
            let h₁ := flushText f hdrState b e h
            List.range' b (e - b) ++ closingReads f (f.mapped - (e + 1)) (e + 1) ++
              match closing f (f.mapped - (e + 1)) (e + 1) with
              | none => []
              | some q =>
                  match responseVfsDoDynamic (q - (e + 1)) h₁ with
                  | (.waiting, _) => []
                  | (_, h₂) =>
                      dynamicReads f hdrState n (q + 1) (q + 1) (availableSendbuffer h₂)
                        { h₂ with responsePriv := some (.vfs f (q + 1) hdrState) }
          else dynamicReads f hdrState n b (e + 1) av h
      else List.range' b (e - b)

/-- The places of the file that `response_vfs_do_data` reads. -/
def dataReads (h : HttpState) : List Nat :=
  match h.responsePriv with
  | some (.vfs f ptr hdrState) =>
      if availableSendbuffer h = 0 then []
      else if f.flags &&& 1 = 0 then
        List.range' ptr (min (availableSendbuffer h) (f.len - ptr))
      else dynamicReads f hdrState (f.mapped + 1) ptr ptr (availableSendbuffer h) h
  | _ => []

theorem closingReads_le {f : VfsEntry} {n e q : Nat} (hq : closing f n e = some q) :
    ∀ i ∈ closingReads f n e, i ≤ q := by
  induction n generalizing e with
  | zero => cases hq
  | succ n ih =>
      have hge := closing_ge hq
      intro i hi
      unfold closing at hq
      unfold closingReads at hi
      rcases List.mem_cons.mp hi with rfl | hi
      · exact hge
      · split at hi
        · cases hi
        · rename_i hc
          rw [if_neg hc] at hq
          exact ih hq i hi

/-- In a file whose `%` come in pairs, nothing is read behind its end. -/
theorem dynamicReads_inside {f : VfsEntry} {hdrState n b e : Nat} (av : Nat) {h : HttpState}
    (hpair : Paired f e) (hbe : b ≤ e) :
    ∀ i ∈ dynamicReads f hdrState n b e av h, i < f.len := by
  have htext : ∀ b e, e ≤ f.len → ∀ i ∈ List.range' b (e - b), i < f.len := by
    intro b e he i hi
    have := List.mem_range'_1.mp hi
    omega
  induction n generalizing b e av h with
  | zero =>
      intro i hi
      cases hi
  | succ n ih =>
      intro i hi
      unfold dynamicReads at hi
      split at hi
      · rename_i hgo
        have hlt := hpair.lt_len hgo.2
        rcases List.mem_cons.mp hi with rfl | hi
        · exact hlt
        split at hi
        · cases hi
        split at hi
        · rename_i hc
          obtain ⟨q, hq, hpair'⟩ := hpair.primitive hgo.2 hc
          have hqlt : q < f.len := hpair'.1
          dsimp only at hi
          rw [hq] at hi
          rcases List.mem_append.mp hi with hi | hi
          · rcases List.mem_append.mp hi with hi | hi
            · exact htext b e (by omega) i hi
            · have := closingReads_le hq i hi
              omega
          · dsimp only at hi
            split at hi
            · cases hi
            · exact ih _ hpair' (Nat.le_refl _) i hi
        · rename_i hc
          exact ih av (hpair.text hgo.2 hc) (by omega) i hi
      · exact htext b e hpair.1 i hi

/-! ### The calls -/

/-- Calls of `response_vfs_do_data` until it is done, or as many as there are.  Before each call
the ring has been read up to some place. -/
def dataCalls : List Nat → HttpState → Option (DoResult × HttpState)
  | [], h => some (.waiting, h)
  | read :: reads, h =>
      match responseVfsDoData { h with sendbufferRead := read } with
      | none => none
      | some (.done, h') => some (.done, h')
      | some (_, h') => dataCalls reads h'

/-- The places of the file that are read in these calls. -/
def callsReads : List Nat → HttpState → List Nat
  | [], _ => []
  | read :: reads, h =>
      dataReads { h with sendbufferRead := read } ++
        match responseVfsDoData { h with sendbufferRead := read } with
        | none => []
        | some (.done, _) => []
        | some (_, h') => callsReads reads h'

/-- With the places the ring can be read up to, the free space can be anything that it can be. -/
theorem availableSendbuffer_any {h : HttpState} (hi : Indexed h) {av : Nat}
    (hav : av + 10 ≤ sendbufferLen) :
    ∃ read < sendbufferLen, availableSendbuffer { h with sendbufferRead := read } = av := by
  have hw := hi.write_lt
  have hlen : sendbufferLen = 4096 := rfl
  unfold availableSendbuffer
  dsimp only
  by_cases hwrap : h.sendbufferWrite + av + 10 < sendbufferLen
  · refine ⟨h.sendbufferWrite + av + 10, hwrap, ?_⟩
    split_ifs <;> omega
  · refine ⟨h.sendbufferWrite + av + 10 - sendbufferLen, by omega, ?_⟩
    split_ifs <;> omega

/-- A page that is being sent: `ptr` stands outside of its primitives. -/
structure Sending (f : VfsEntry) (hdrState ptr : Nat) (h : HttpState) : Prop where
  indexed : Indexed h
  priv : h.responsePriv = some (.vfs f ptr hdrState)
  paired : Paired f ptr

/-- One call, with any room. -/
theorem Sending.call {f : VfsEntry} {hdrState ptr : Nat} {h : HttpState}
    (hflag : ¬f.flags &&& 1 = 0) (hs : Sending f hdrState ptr h) :
    ∃ r p d, responseVfsDoData h = some r ∧ Sending f hdrState p r.2 ∧
      r.2.written = h.written ++ d ∧ dhtml f ptr = d ++ dhtml f p ∧
      (r.1 = .done → dhtml f p = []) ∧ ∀ i ∈ dataReads h, i < f.len := by
  obtain ⟨hi, hp, hpair⟩ := hs
  have hmap := f.len_le
  have hlen := hpair.1
  unfold responseVfsDoData dataReads
  rw [hp]
  dsimp only
  by_cases hav : availableSendbuffer h = 0
  · rw [if_pos hav, if_pos hav]
    refine ⟨_, ptr, [], rfl, ⟨hi, hp, hpair⟩, by simp, rfl, ?_, ?_⟩
    · intro hdone
      cases hdone
    · intro i hmem
      cases hmem
  rw [if_neg hav, if_neg hav, if_neg hflag, if_neg hflag]
  obtain ⟨r, p, hr, hp', hpair'⟩ := dynamicLoop_total (n := f.mapped + 1) (b := ptr)
    (availableSendbuffer h) hpair (by omega) hp
  obtain ⟨p', hreach⟩ := dynamicLoop_reaches hi hp (Nat.le_refl _) (by omega) (by simp [Mem.slice]) hr
  obtain rfl : p = p' := by
    have hsame := hp'.symm.trans hreach.priv
    simpa using hsame
  obtain ⟨d, hemits, hd⟩ := hreach.emits
  refine ⟨r, p, d, hr, ⟨hemits.indexed hi, hp', hpair'⟩, hemits.written, hd, ?_, ?_⟩
  · intro hdone
    rw [hreach.done hdone]
    exact dhtml_len f
  · exact dynamicReads_inside _ hpair (Nat.le_refl _)

theorem dataCalls_done {read : Nat} (reads : List Nat) {h h' : HttpState}
    (hr : responseVfsDoData { h with sendbufferRead := read } = some (.done, h')) :
    dataCalls (read :: reads) h = some (.done, h') ∧
      callsReads (read :: reads) h = dataReads { h with sendbufferRead := read } := by
  rw [dataCalls, callsReads, hr]
  exact ⟨rfl, List.append_nil _⟩

theorem dataCalls_more {read : Nat} (reads : List Nat) {h h' : HttpState} {res : DoResult}
    (hr : responseVfsDoData { h with sendbufferRead := read } = some (res, h'))
    (hres : res ≠ .done) :
    dataCalls (read :: reads) h = dataCalls reads h' ∧
      callsReads (read :: reads) h =
        dataReads { h with sendbufferRead := read } ++ callsReads reads h' := by
  cases res with
  | done => exact absurd rfl hres
  | waiting =>
      rw [dataCalls, callsReads, hr]
      exact ⟨rfl, rfl⟩
  | again =>
      rw [dataCalls, callsReads, hr]
      exact ⟨rfl, rfl⟩

/-- However the calls are cut, they put a first part of the expansion, and all of it once they
are done. -/
theorem Sending.calls {f : VfsEntry} {hdrState : Nat} (hflag : ¬f.flags &&& 1 = 0) :
    ∀ (reads : List Nat) (ptr : Nat) (h : HttpState), (∀ read ∈ reads, read < sendbufferLen) →
      Sending f hdrState ptr h →
      ∃ res h' p d, dataCalls reads h = some (res, h') ∧ h'.written = h.written ++ d ∧
        dhtml f ptr = d ++ dhtml f p ∧ (res = .done → dhtml f p = []) ∧
        ∀ i ∈ callsReads reads h, i < f.len := by
  intro reads
  induction reads with
  | nil =>
      intro ptr h _ _
      refine ⟨.waiting, h, ptr, [], rfl, by simp, rfl, ?_, ?_⟩
      · intro hdone
        cases hdone
      · intro i hi
        cases hi
  | cons read reads ih =>
      intro ptr h hreads hs
      have hs' : Sending f hdrState ptr { h with sendbufferRead := read } :=
        ⟨⟨hreads read List.mem_cons_self, hs.indexed.write_lt⟩, hs.priv, hs.paired⟩
      obtain ⟨⟨res, h₁⟩, p, d, hr, hs₁, hwritten, hd, hdone, hinside⟩ := hs'.call hflag
      by_cases hres : res = .done
      · subst hres
        obtain ⟨hcalls, hreads'⟩ := dataCalls_done reads hr
        refine ⟨.done, h₁, p, d, hcalls, hwritten, hd, fun _ => hdone rfl, ?_⟩
        rw [hreads']
        exact hinside
      · obtain ⟨hcalls, hreads'⟩ := dataCalls_more reads hr hres
        obtain ⟨res', h', p', d', hcalls', hwritten', hd', hdone', hinside'⟩ :=
          ih p h₁ (fun r hr => hreads r (List.mem_cons_of_mem _ hr)) hs₁
        refine ⟨res', h', p', d ++ d', hcalls.trans hcalls', ?_, ?_, hdone', ?_⟩
        · rw [hwritten', hwritten, List.append_assoc]
        · rw [hd, hd', List.append_assoc]
        · rw [hreads', List.forall_mem_append]
          exact ⟨hinside, hinside'⟩

/-- **A page is expanded the same whatever room there is between the calls.**  Up to any call, a
first part of its expansion has been put, and nothing else; when the calls are done, it is the
whole.  No call reads outside of the file. -/
theorem expansion_any_schedule {f : VfsEntry} (hflag : ¬f.flags &&& 1 = 0) (hpair : Paired f 0)
    {h : HttpState} (hi : Indexed h) {hdrState : Nat}
    (hp : h.responsePriv = some (.vfs f 0 hdrState)) {reads : List Nat}
    (hreads : ∀ read ∈ reads, read < sendbufferLen) :
    ∃ res h' d, dataCalls reads h = some (res, h') ∧ h'.written = h.written ++ d ∧
      d <+: expand none (f.data.slice 0 f.len) ∧
      (res = .done → d = expand none (f.data.slice 0 f.len)) ∧
      ∀ i ∈ callsReads reads h, i < f.len := by
  obtain ⟨res, h', p, d, hcalls, hwritten, hd, hdone, hinside⟩ :=
    Sending.calls hflag reads 0 h hreads ⟨hi, hp, hpair⟩
  rw [dhtml_eq_expand hpair, Nat.sub_zero] at hd
  refine ⟨res, h', d, hcalls, hwritten, ⟨_, hd.symm⟩, ?_, hinside⟩
  intro hres
  rw [hd, hdone hres, List.append_nil]

/-- A page with two primitives, and a connection that is about to send it. -/
def fusesPage : VfsEntry where
  filename := bytes "/fuses.dhtml"
  data := fun i => (bytes "100%% %fuses%\n").getD i 0
  len := 14
  mimeType := bytes "text/html"
  flags := 1
  mapped := 14
  len_le := Nat.le_refl _

def sendsPage : HttpState :=
  { (accept (fun _ => 0) (some (.vfs fusesPage 0 1))).http with
    stateServer := .data, stateClient := .data, handler := some .vfs }

/-- Room for two bytes, for none, for the rest of the text, and for everything. -/
theorem fusesPage_expanded :
    ∃ h', dataCalls [12, 12, 15, 40, 0] sendsPage = some (.done, h') ∧
      h'.written = bytes "100% illegal dhtml primitive\n" := by
  have hpair : Paired fusesPage 0 := ⟨Nat.zero_le _, by decide⟩
  obtain ⟨res, h', d, hcalls, hwritten, -, hall, -⟩ :=
    @expansion_any_schedule fusesPage (by decide) hpair sendsPage ⟨by decide, by decide⟩ 1 rfl
      [12, 12, 15, 40, 0] (by decide)
  have hdone : (dataCalls [12, 12, 15, 40, 0] sendsPage).map Prod.fst = some .done := by
    decide +kernel
  rw [hcalls] at hdone
  obtain rfl : res = .done := by simpa using hdone
  refine ⟨h', hcalls, ?_⟩
  rw [hwritten, hall rfl]
  decide

end Xell.Httpd
