/-
The control blocks of UDP.

In every run a control block is on the list at most once, so that the assertion of `udp_bind` never
fails, and exactly those have a port that are on it.  A port that `udp_bind` chose itself is used
by no other control block then, and two that were chosen are different for as long as both are
there; a port that was asked for is not compared with any other.

`udp_input` is meant to hand a datagram to the first control block that fits at both ends, and else
to the first unconnected one whose local end fits.  As `local_match` is not cleared, it does so
exactly if no control block that fits at its remote end only gets in between.
-/
import Xell.Udp

namespace Xell.Udp

variable {st st' : Pcbs} {i j : Nat} {port : UInt16} {ipaddr : UInt32}

@[simp] theorem set_udpPcbs (st : Pcbs) (i : Nat) (pcb : UdpPcb) :
    (st.set i pcb).udpPcbs = st.udpPcbs := rfl

@[simp] theorem set_pcb_self (st : Pcbs) (i : Nat) (pcb : UdpPcb) : (st.set i pcb).pcb i = pcb := by
  simp [Pcbs.set]

theorem set_pcb_ne (pcb : UdpPcb) (h : j ≠ i) : (st.set i pcb).pcb j = st.pcb j := by
  simp [Pcbs.set, h]

/-! ### Choosing a port -/

/-- Nobody on the list has the port. -/
def Free (st : Pcbs) (port : UInt16) : Prop := ∀ i ∈ st.udpPcbs, (st.pcb i).localPort ≠ port

/-- What the loop has found out when it is at `rest` with `port`. -/
structure Searched (st : Pcbs) (port : UInt16) (rest : List Nat) : Prop where
  range : 4096 ≤ port.toNat ∧ port.toNat ≤ 0x7fff
  last : port = udpLocalPortRangeEnd → rest ≠ []
  taken : ∀ p : UInt16, 4096 ≤ p.toNat → p.toNat < port.toNat → ¬Free st p
  seen : ∃ pre, st.udpPcbs = pre ++ rest ∧ ∀ i ∈ pre, (st.pcb i).localPort ≠ port

theorem searched_start (st : Pcbs) : Searched st udpLocalPortRangeStart st.udpPcbs :=
  ⟨by decide, fun h => absurd h (by decide), fun p h₁ h₂ => absurd h₂ (by
    rw [show udpLocalPortRangeStart.toNat = 4096 by rfl]; omega), [], rfl, by simp⟩

/-- A port that was found is free, and without one all are taken. -/
theorem portLoop_spec (st : Pcbs) (port : UInt16) (rest : List Nat) (h : Searched st port rest) :
    (∀ p, portLoop st port rest = some p → 4096 ≤ p.toNat ∧ p.toNat < 0x7fff ∧ Free st p) ∧
      (portLoop st port rest = none →
        ∀ p : UInt16, 4096 ≤ p.toNat → p.toNat < 0x7fff → ¬Free st p) := by
  have hend : udpLocalPortRangeEnd.toNat = 0x7fff := rfl
  induction port, rest using portLoop.induct st with
  | case1 port =>
      obtain ⟨pre, hpre, hne⟩ := h.seen
      rw [List.append_nil] at hpre
      have hlt : port.toNat ≠ 0x7fff := fun heq => h.last (UInt16.toNat.inj heq) rfl
      have hrange := h.range
      rw [portLoop]
      refine ⟨fun p hp => ?_, nofun⟩
      obtain rfl := Option.some.inj hp
      exact ⟨hrange.1, by omega, fun i hi => hne i (hpre ▸ hi)⟩
  | case2 i rest =>
      rw [portLoop, dif_pos rfl]
      exact ⟨nofun, fun _ p h₁ h₂ => h.taken p h₁ (by omega)⟩
  | case3 i rest hne ih =>
      rw [portLoop, dif_neg hne, if_pos rfl]
      obtain ⟨pre, hpre, -⟩ := h.seen
      have hi : i ∈ st.udpPcbs := by
        rw [hpre]
        exact List.mem_append_right _ List.mem_cons_self
      have hrange := h.range
      have hlt : (st.pcb i).localPort.toNat ≠ 0x7fff := fun he => hne (UInt16.toNat.inj he)
      have hnext : ((st.pcb i).localPort + 1).toNat = (st.pcb i).localPort.toNat + 1 := by
        rw [UInt16.toNat_add, show (1 : UInt16).toNat = 1 by rfl]
        omega
      refine ih ⟨by omega, fun _ => List.ne_nil_of_mem hi, fun p h₁ h₂ => ?_, [], rfl, by simp⟩
      rcases Nat.lt_or_ge p.toNat (st.pcb i).localPort.toNat with hp | hp
      · exact h.taken p h₁ hp
      · obtain rfl : p = (st.pcb i).localPort := UInt16.toNat.inj (by omega)
        exact fun hfree => hfree i hi rfl
  | case4 port i rest hne hport ih =>
      rw [portLoop, dif_neg hne, if_neg hport]
      obtain ⟨pre, hpre, hseen⟩ := h.seen
      refine ih ⟨h.range, fun he => absurd he hne, h.taken, pre ++ [i], by simp [hpre], fun j hj => ?_⟩
      rcases List.mem_append.mp hj with hj | hj
      · exact hseen j hj
      · rw [List.mem_singleton.mp hj]
        exact hport

/-! ### One call -/

theorem set_set (st : Pcbs) (i : Nat) (a b : UdpPcb) : (st.set i a).set i b = st.set i b := by
  simp [Pcbs.set]

/-- A new address changes no port. -/
theorem free_set {pcb : UdpPcb} (h : pcb.localPort = (st.pcb i).localPort) (port : UInt16) :
    Free (st.set i pcb) port ↔ Free st port := by
  have hport : ∀ j, ((st.set i pcb).pcb j).localPort = (st.pcb j).localPort := by
    intro j
    by_cases hj : j = i
    · rw [hj, set_pcb_self, h]
    · rw [set_pcb_ne _ hj]
  unfold Free
  simp only [set_udpPcbs, hport]

/-- A port that is asked for is taken, and one that is chosen is free. -/
theorem choosePort_cases (port : UInt16) (st : Pcbs) :
    (choosePort port st = none ∧ port = 0 ∧
      ∀ p : UInt16, 4096 ≤ p.toNat → p.toNat < 0x7fff → ¬Free st p) ∨
    ∃ p, choosePort port st = some p ∧ p ≠ 0 ∧ (port ≠ 0 → p = port) ∧
      (port = 0 → 4096 ≤ p.toNat ∧ p.toNat < 0x7fff ∧ Free st p) := by
  obtain ⟨hsome, hnone⟩ := portLoop_spec st udpLocalPortRangeStart st.udpPcbs (searched_start st)
  unfold choosePort
  by_cases hport : port = 0
  · rw [if_pos hport]
    cases hloop : portLoop st udpLocalPortRangeStart st.udpPcbs with
    | none => exact Or.inl ⟨rfl, hport, hnone hloop⟩
    | some p =>
        have hp := hsome p hloop
        refine Or.inr ⟨p, rfl, ?_, fun h => absurd hport h, fun _ => hp⟩
        rintro rfl
        exact absurd hp.1 (by decide)
  · rw [if_neg hport]
    exact Or.inr ⟨port, rfl, hport, fun _ => rfl, fun h => absurd h hport⟩

/-- What `udp_bind` does: it fails and changes an address only, or the control block gets a port,
which is free if it was chosen, and is on the list. -/
theorem udpBind_cases (i : Nat) (ipaddr : UInt32) (port : UInt16) (st : Pcbs) :
    (∃ pcb, udpBind i ipaddr port st = (.use, st.set i pcb) ∧ port = 0 ∧
        pcb.localPort = (st.pcb i).localPort ∧
        ∀ p : UInt16, 4096 ≤ p.toNat → p.toNat < 0x7fff → ¬Free st p) ∨
    ∃ pcb, udpBind i ipaddr port st = (.ok, (st.set i pcb).enlist i) ∧ pcb.localPort ≠ 0 ∧
      (port ≠ 0 → pcb.localPort = port) ∧
      (port = 0 → 4096 ≤ pcb.localPort.toNat ∧ pcb.localPort.toNat < 0x7fff ∧
        Free st pcb.localPort) := by
  have hfree : ∀ p, Free (st.set i { st.pcb i with localIp := ipaddr }) p ↔ Free st p := free_set rfl
  unfold udpBind
  rcases choosePort_cases port (st.set i { st.pcb i with localIp := ipaddr }) with
    ⟨hnone, hport, htaken⟩ | ⟨p, hsome, hne, hasked, hchosen⟩
  · left
    simp only [hnone]
    exact ⟨_, rfl, hport, rfl, fun p h₁ h₂ hp => htaken p h₁ h₂ ((hfree p).mpr hp)⟩
  · right
    simp only [hsome, set_set]
    refine ⟨_, rfl, hne, hasked, fun hport => ?_⟩
    obtain ⟨h₁, h₂, h₃⟩ := hchosen hport
    exact ⟨h₁, h₂, (hfree p).mp h₃⟩

theorem mem_enlist (st : Pcbs) (i j : Nat) : j ∈ (st.enlist i).udpPcbs ↔ j = i ∨ j ∈ st.udpPcbs := by
  unfold Pcbs.enlist
  split
  · next h =>
      constructor
      · exact Or.inr
      · rintro (rfl | hj)
        · exact h
        · exact hj
  · exact List.mem_cons

@[simp] theorem enlist_pcb (st : Pcbs) (i : Nat) : (st.enlist i).pcb = st.pcb := by
  unfold Pcbs.enlist
  split <;> rfl

theorem enlist_of_mem (h : i ∈ st.udpPcbs) : st.enlist i = st := if_pos h

/-- Binding a control block if it has no port: it fails for want of a port, or there is one now. -/
theorem ensureBound_cases (i : Nat) (st : Pcbs) :
    (∃ pcb, ensureBound i st = (.use, st.set i pcb) ∧ pcb.localPort = (st.pcb i).localPort) ∨
    (ensureBound i st = (.ok, st) ∧ (st.pcb i).localPort ≠ 0) ∨
    ∃ pcb, ensureBound i st = (.ok, (st.set i pcb).enlist i) ∧ (st.pcb i).localPort = 0 ∧
      pcb.localPort ≠ 0 ∧ 4096 ≤ pcb.localPort.toNat ∧ pcb.localPort.toNat < 0x7fff ∧
      Free st pcb.localPort := by
  unfold ensureBound
  by_cases hport : (st.pcb i).localPort = 0
  · rw [if_pos hport]
    rcases udpBind_cases i (st.pcb i).localIp 0 st with ⟨pcb, hrun, -, hp, -⟩ | ⟨pcb, hrun, hp, -, hc⟩
    · exact Or.inl ⟨pcb, hrun, hp⟩
    · exact Or.inr (Or.inr ⟨pcb, hrun, hport, hp, hc rfl⟩)
  · rw [if_neg hport]
    exact Or.inr (Or.inl ⟨rfl, hport⟩)

/-! ### Runs -/

/-- The control blocks, those of them that are allocated, and those whose port `udp_bind` chose. -/
structure World where
  st : Pcbs
  live : Finset Nat
  chosen : Nat → Prop

/-- What a call that may bind the control block `i` leaves. -/
def World.bound (w : World) (i : Nat) (err : Err) (chosen : Prop) (st : Pcbs) : World :=
  ⟨st, w.live, if err = .ok then Function.update w.chosen i chosen else w.chosen⟩

/-- With another remote end, as in `udp_sendto`. -/
def Pcbs.toward (st : Pcbs) (i : Nat) (dstIp : UInt32) (dstPort : UInt16) : Pcbs :=
  st.set i { st.pcb i with remoteIp := dstIp, remotePort := dstPort }

/-- The port is chosen if there was none. -/
def World.chooses (w : World) (i : Nat) : Prop := (w.st.pcb i).localPort = 0 ∨ w.chosen i

/-- One call. -/
inductive Step : World → World → Prop
  | new {w : World} {i : Nat} (fresh : i ∉ w.live) :
      Step w ⟨udpNew i w.st, insert i w.live, Function.update w.chosen i False⟩
  | bind {w : World} {i : Nat} (ipaddr : UInt32) (port : UInt16) (live : i ∈ w.live) :
      Step w (w.bound i (udpBind i ipaddr port w.st).1 (port = 0) (udpBind i ipaddr port w.st).2)
  | connect {w : World} {i : Nat} (ipaddr : UInt32) (port : UInt16) (live : i ∈ w.live) :
      Step w (w.bound i (ensureBound i w.st).1 (w.chooses i) (udpConnect i ipaddr port w.st).2)
  | send {w : World} {i : Nat} (netif : Option Ip.Netif) (alloc : Option Pbuf) (p : List Pbuf)
      (mem : Mem UInt8) (live : i ∈ w.live) :
      Step w (w.bound i (ensureBound i w.st).1 (w.chooses i) (udpSend netif alloc i p w.st mem).2.1)
  | sendto {w : World} {i : Nat} (netif : Option Ip.Netif) (alloc : Option Pbuf) (p : List Pbuf)
      (dstIp : UInt32) (dstPort : UInt16) (mem : Mem UInt8) (live : i ∈ w.live) :
      Step w (w.bound i (ensureBound i (w.st.toward i dstIp dstPort)).1 (w.chooses i)
        (udpSendto netif alloc i p dstIp dstPort w.st mem).2.1)
  | disconnect {w : World} {i : Nat} (live : i ∈ w.live) :
      Step w { w with st := udpDisconnect i w.st }
  | recv {w : World} {i : Nat} (recv : Bool) (live : i ∈ w.live) :
      Step w { w with st := udpRecv i recv w.st }
  | remove {w : World} {i : Nat} (live : i ∈ w.live) :
      Step w { w with st := udpRemove i w.st, live := w.live.erase i }

/-- What calls lead to, from the empty list on. -/
inductive Reach : World → Prop
  | init (pcb : Nat → UdpPcb) : Reach ⟨⟨pcb, []⟩, ∅, fun _ => False⟩
  | step {w w' : World} (hw : Reach w) (hs : Step w w') : Reach w'

/-- What holds of every list of control blocks. -/
structure Sound (w : World) : Prop where
  nodup : w.st.udpPcbs.Nodup
  live : ∀ i ∈ w.st.udpPcbs, i ∈ w.live
  listed : ∀ i ∈ w.live, (w.st.pcb i).localPort ≠ 0 ↔ i ∈ w.st.udpPcbs
  range : ∀ i ∈ w.st.udpPcbs, w.chosen i →
    4096 ≤ (w.st.pcb i).localPort.toNat ∧ (w.st.pcb i).localPort.toNat < 0x7fff
  apart : ∀ i ∈ w.st.udpPcbs, ∀ j ∈ w.st.udpPcbs, w.chosen i → w.chosen j →
    (w.st.pcb i).localPort = (w.st.pcb j).localPort → i = j

variable {w w' : World}

/-- A call that leaves the port alone. -/
theorem Sound.same (h : Sound w) {pcb : UdpPcb} (hport : pcb.localPort = (w.st.pcb i).localPort) :
    Sound { w with st := w.st.set i pcb } := by
  have hports : ∀ j, ((w.st.set i pcb).pcb j).localPort = (w.st.pcb j).localPort := by
    intro j
    by_cases hj : j = i
    · rw [hj, set_pcb_self, hport]
    · rw [set_pcb_ne _ hj]
  constructor
  · exact h.nodup
  · exact h.live
  · intro j hj
    rw [hports]
    exact h.listed j hj
  · intro j hj hc
    rw [hports]
    exact h.range j hj hc
  · intro j hj k hk hcj hck heq
    rw [hports, hports] at heq
    exact h.apart j hj k hk hcj hck heq

/-- A control block gets a port. -/
theorem Sound.gets (h : Sound w) (hi : i ∈ w.live) {pcb : UdpPcb} {c : Prop}
    (hport : pcb.localPort ≠ 0)
    (hc : c → 4096 ≤ pcb.localPort.toNat ∧ pcb.localPort.toNat < 0x7fff ∧ Free w.st pcb.localPort) :
    Sound ⟨(w.st.set i pcb).enlist i, w.live, Function.update w.chosen i c⟩ := by
  constructor
  · show ((w.st.set i pcb).enlist i).udpPcbs.Nodup
    unfold Pcbs.enlist
    split
    · exact h.nodup
    · next hmem => exact List.nodup_cons.mpr ⟨hmem, h.nodup⟩
  · intro j hj
    rcases (mem_enlist _ _ _).mp hj with rfl | hj
    · exact hi
    · exact h.live j hj
  · intro j hj
    show ((((w.st.set i pcb).enlist i).pcb j).localPort ≠ 0) ↔ _
    rw [mem_enlist, enlist_pcb, set_udpPcbs]
    by_cases hji : j = i
    · rw [hji, set_pcb_self]
      simp [hport]
    · rw [set_pcb_ne _ hji, h.listed j hj]
      simp [hji]
  · intro j hj hcj
    show 4096 ≤ (((w.st.set i pcb).enlist i).pcb j).localPort.toNat ∧ _
    rw [enlist_pcb]
    by_cases hji : j = i
    · subst hji
      rw [set_pcb_self]
      have hcj' : c := by simpa using hcj
      exact ⟨(hc hcj').1, (hc hcj').2.1⟩
    · rw [set_pcb_ne _ hji]
      have hj' : j ∈ w.st.udpPcbs := ((mem_enlist _ _ _).mp hj).resolve_left hji
      exact h.range j hj' (by simpa [hji] using hcj)
  · intro j hj k hk hcj hck heq
    have hother : ∀ x, x ∈ ((w.st.set i pcb).enlist i).udpPcbs → x ≠ i → x ∈ w.st.udpPcbs :=
      fun x hx hxi => ((mem_enlist _ _ _).mp hx).resolve_left hxi
    have heq' : ((w.st.set i pcb).pcb j).localPort = ((w.st.set i pcb).pcb k).localPort := by
      simpa using heq
    by_cases hji : j = i
    · by_cases hki : k = i
      · rw [hji, hki]
      · subst hji
        rw [set_pcb_self, set_pcb_ne _ hki] at heq'
        have hcj' : c := by simpa using hcj
        exact absurd heq'.symm ((hc hcj').2.2 k (hother k hk hki))
    · by_cases hki : k = i
      · subst hki
        rw [set_pcb_self, set_pcb_ne _ hji] at heq'
        have hck' : c := by simpa using hck
        exact absurd heq' ((hc hck').2.2 j (hother j hj hji))
      · rw [set_pcb_ne _ hji, set_pcb_ne _ hki] at heq'
        exact h.apart j (hother j hj hji) k (hother k hk hki) (by simpa [hji] using hcj)
          (by simpa [hki] using hck) heq'

theorem bound_ok {c : Prop} {st : Pcbs} :
    w.bound i .ok c st = ⟨st, w.live, Function.update w.chosen i c⟩ := by
  unfold World.bound
  rw [if_pos rfl]

theorem bound_use {c : Prop} {st : Pcbs} : w.bound i .use c st = { w with st := st } := by
  unfold World.bound
  rw [if_neg nofun]

/-- The beginning of a call that binds the control block if it has no port. -/
theorem Sound.ensureBound (h : Sound w) (hi : i ∈ w.live) :
    Sound (w.bound i (ensureBound i w.st).1 (w.chooses i) (ensureBound i w.st).2) ∧
      ((ensureBound i w.st).1 = .ok → i ∈ (ensureBound i w.st).2.udpPcbs) ∧
      ((ensureBound i w.st).1 = .ok ∨ (ensureBound i w.st).1 = .use) := by
  rcases ensureBound_cases i w.st with ⟨pcb, hrun, hp⟩ | ⟨hrun, hp⟩ |
    ⟨pcb, hrun, hzero, hp, h₁, h₂, hfree⟩ <;> rw [hrun]
  · exact ⟨bound_use ▸ h.same hp, nofun, Or.inr rfl⟩
  · refine ⟨?_, fun _ => (h.listed i hi).mp hp, Or.inl rfl⟩
    have hsame : Function.update w.chosen i (w.chooses i) = w.chosen := by
      funext j
      by_cases hj : j = i
      · subst hj
        rw [Function.update_self]
        unfold World.chooses
        simp [hp]
      · rw [Function.update_of_ne hj]
    rw [bound_ok, hsame]
    exact h
  · refine ⟨?_, fun _ => (mem_enlist _ _ _).mpr (Or.inl rfl), Or.inl rfl⟩
    rw [bound_ok]
    exact h.gets hi hp fun _ => ⟨h₁, h₂, hfree⟩

/-- Nothing more happens to the ports. -/
theorem Sound.after {err : Err} {c : Prop} {st : Pcbs} (h : Sound (w.bound i err c st)) {pcb : UdpPcb}
    (hport : pcb.localPort = (st.pcb i).localPort) : Sound (w.bound i err c (st.set i pcb)) :=
  h.same hport

theorem udpSend_st (netif : Option Ip.Netif) (alloc : Option Pbuf) (i : Nat) (p : List Pbuf) (st : Pcbs)
    (mem : Mem UInt8) : (udpSend netif alloc i p st mem).2.1 = (ensureBound i st).2 := by
  unfold udpSend
  split
  · next st' hrun =>
      rw [hrun]
      split
      · rfl
      · rfl
      · dsimp only
        split <;> rfl
  · next err st' _ hrun => rw [hrun]

theorem Sound.step (h : Sound w) (hs : Step w w') : Sound w' := by
  cases hs with
  | @new i fresh =>
      have hnot : ∀ j ∈ w.st.udpPcbs, j ≠ i := by
        rintro j hj rfl
        exact fresh (h.live j hj)
      have hports : ∀ j ∈ w.st.udpPcbs, (udpNew i w.st).pcb j = w.st.pcb j :=
        fun j hj => set_pcb_ne _ (hnot j hj)
      have hchosen : ∀ j ∈ w.st.udpPcbs,
          (Function.update w.chosen i False j ↔ w.chosen j) := fun j hj => by simp [hnot j hj]
      constructor
      · exact h.nodup
      · exact fun j hj => Finset.mem_insert_of_mem (h.live j hj)
      · intro j hj
        show ((udpNew i w.st).pcb j).localPort ≠ 0 ↔ j ∈ w.st.udpPcbs
        by_cases hji : j = i
        · subst hji
          have hout : j ∉ w.st.udpPcbs := fun hmem => hnot j hmem rfl
          simp [udpNew, hout]
        · unfold udpNew
          rw [set_pcb_ne _ hji]
          exact h.listed j (Finset.mem_of_mem_insert_of_ne hj hji)
      · intro j hj hc
        show 4096 ≤ ((udpNew i w.st).pcb j).localPort.toNat ∧ _
        rw [hports j hj]
        exact h.range j hj ((hchosen j hj).mp hc)
      · intro j hj k hk hcj hck heq
        have heq' : ((udpNew i w.st).pcb j).localPort = ((udpNew i w.st).pcb k).localPort := heq
        rw [hports j hj, hports k hk] at heq'
        exact h.apart j hj k hk ((hchosen j hj).mp hcj) ((hchosen k hk).mp hck) heq'
  | @bind i ipaddr port live =>
      rcases udpBind_cases i ipaddr port w.st with ⟨pcb, hrun, -, hp, -⟩ | ⟨pcb, hrun, hp, -, hc⟩ <;>
        rw [hrun]
      · exact bound_use ▸ h.same hp
      · rw [bound_ok]
        exact h.gets live hp fun hz => hc hz
  | @connect i ipaddr port live =>
      obtain ⟨hsound, hmem, hres⟩ := h.ensureBound live
      unfold udpConnect
      split
      · next st hrun =>
          rw [hrun] at hsound hmem ⊢
          have hlisted : ∀ pcb, (st.set i pcb).enlist i = st.set i pcb :=
            fun pcb => enlist_of_mem (hmem rfl : i ∈ st.udpPcbs)
          dsimp only
          rw [hlisted]
          exact hsound.after rfl
      · exact hsound
  | @send i netif alloc p mem live =>
      rw [udpSend_st]
      exact (h.ensureBound live).1
  | @sendto i netif alloc p dstIp dstPort mem live =>
      have hport : ((w.st.toward i dstIp dstPort).pcb i).localPort = (w.st.pcb i).localPort := by
        unfold Pcbs.toward
        rw [set_pcb_self]
      have htoward : Sound { w with st := w.st.toward i dstIp dstPort } := h.same rfl
      have hbound := (htoward.ensureBound live).1
      unfold World.chooses at hbound
      dsimp only at hbound
      rw [hport] at hbound
      have hst := udpSend_st netif alloc i p (w.st.toward i dstIp dstPort) mem
      unfold udpSendto
      dsimp only
      rw [show w.st.set i { w.st.pcb i with remoteIp := dstIp, remotePort := dstPort }
        = w.st.toward i dstIp dstPort from rfl, hst]
      exact hbound.after rfl
  | @disconnect i live => exact h.same rfl
  | @recv i recv live => exact h.same rfl
  | @remove i live =>
      have hmem : ∀ j, j ∈ w.st.udpPcbs.erase i ↔ j ≠ i ∧ j ∈ w.st.udpPcbs := fun j =>
        h.nodup.mem_erase_iff
      constructor
      · exact h.nodup.erase i
      · intro j hj
        obtain ⟨hji, hj⟩ := (hmem j).mp hj
        exact Finset.mem_erase.mpr ⟨hji, h.live j hj⟩
      · intro j hj
        obtain ⟨hji, hj⟩ := Finset.mem_erase.mp hj
        show (w.st.pcb j).localPort ≠ 0 ↔ j ∈ w.st.udpPcbs.erase i
        rw [hmem, h.listed j hj]
        simp [hji]
      · exact fun j hj hc => h.range j ((hmem j).mp hj).2 hc
      · exact fun j hj k hk hcj hck heq =>
          h.apart j ((hmem j).mp hj).2 k ((hmem k).mp hk).2 hcj hck heq

theorem Reach.sound (hr : Reach w) : Sound w := by
  induction hr with
  | init pcb => exact ⟨List.nodup_nil, by simp, by simp, by simp, by simp⟩
  | step _ hs ih => exact ih.step hs

/-- **In every run the list of control blocks is sound**, and a control block without a port is
refused one exactly if all of the range are taken. -/
theorem reach_pcbs (hr : Reach w) :
    Sound w ∧ ∀ i ipaddr, (udpBind i ipaddr 0 w.st).1 = .use ↔
      ∀ p : UInt16, 4096 ≤ p.toNat → p.toNat < 0x7fff →
        ∃ j ∈ w.st.udpPcbs, (w.st.pcb j).localPort = p := by
  have htaken : ∀ p, ¬Free w.st p ↔ ∃ j ∈ w.st.udpPcbs, (w.st.pcb j).localPort = p := by
    intro p
    unfold Free
    push Not
    rfl
  refine ⟨hr.sound, fun i ipaddr => ?_⟩
  simp only [← htaken]
  rcases udpBind_cases i ipaddr 0 w.st with ⟨pcb, hrun, -, -, hall⟩ | ⟨pcb, hrun, -, -, hc⟩ <;>
    rw [hrun]
  · exact iff_of_true rfl hall
  · obtain ⟨h₁, h₂, hfree⟩ := hc rfl
    exact iff_of_false nofun fun hall => hall _ h₁ h₂ hfree

/-- The control blocks of the DHCP client and of TFTP, and one whose port is chosen. -/
theorem reach_pcbs_tftp : ∃ w, w.st.udpPcbs = [2, 1, 0] ∧ w.chosen 2 ∧ Sound w := by
  have hnew := (Reach.init fun _ => ⟨0, 0, 0, 0, false, false, false, 0, 0, 0, false⟩).step
    (.new (i := 0) (by simp))
  have hdhcp := hnew.step (.bind (i := 0) 0 68 (by simp))
  have htwo := hdhcp.step (.new (i := 1) (by simp [World.bound]))
  have htftp := htwo.step (.bind (i := 1) 0 0x1234 (by simp))
  have hthree := htftp.step (.new (i := 2) (by simp [World.bound]))
  have hchosen := hthree.step (.bind (i := 2) 0 0 (by simp))
  generalize hw : World.mk (udpNew 2 _) _ _ = w at hthree hchosen
  have hlist : w.st.udpPcbs = [1, 0] := by rw [← hw]; rfl
  have hports : ∀ j ∈ w.st.udpPcbs, (w.st.pcb j).localPort ≠ 4096 := by
    rw [hlist, ← hw]
    decide
  rcases udpBind_cases 2 0 0 w.st with ⟨pcb, hrun, -⟩ | ⟨pcb, hrun, -⟩
  · -- port 4096 is free
    have huse : (udpBind 2 0 0 w.st).1 = .use := by rw [hrun]
    obtain ⟨j, hj, hport⟩ := ((reach_pcbs hthree).2 2 0).mp huse 4096 (by decide) (by decide)
    exact absurd hport (hports j hj)
  · refine ⟨_, ?_, ?_, (reach_pcbs hchosen).1⟩
    · rw [hrun]
      show ((w.st.set 2 pcb).enlist 2).udpPcbs = [2, 1, 0]
      unfold Pcbs.enlist
      rw [show (w.st.set 2 pcb).udpPcbs = [1, 0] from hlist, if_neg (by decide)]
    · rw [hrun]
      show Function.update w.chosen 2 ((0 : UInt16) = 0) 2
      rw [Function.update_self]

/-! ### Which control block gets a datagram -/

/-- The first control block that fits at both ends, or else the first unconnected one whose local
end fits. -/
def wanted (st : Pcbs) (e : Ends) : Option Nat :=
  match st.udpPcbs.find? fun i => (st.pcb i).localFits e && (st.pcb i).remoteFits e with
  | some i => some i
  | none => st.udpPcbs.find? fun i => (st.pcb i).localFits e && !(st.pcb i).connected

/-- The same, over a part of the list and with the unconnected one that was found before it. -/
def wantedOf (pcb : Nat → UdpPcb) (e : Ends) (rest : List Nat) (uncon : Option Nat) : Option Nat :=
  match rest.find? fun i => (pcb i).localFits e && (pcb i).remoteFits e with
  | some i => some i
  | none => uncon.or (rest.find? fun i => (pcb i).localFits e && !(pcb i).connected)

/-- In `rest`, some control block gets in between: its remote end fits and its local end does not,
some control block before it has a local end that fits, and none before it in `rest` fits at both. -/
def IntrudesIn (pcb : Nat → UdpPcb) (e : Ends) (rest : List Nat) (localMatch : Bool) : Prop :=
  ∃ pre x post, rest = pre ++ x :: post ∧ (pcb x).remoteFits e = true ∧
    (pcb x).localFits e = false ∧ (localMatch = true ∨ ∃ y ∈ pre, (pcb y).localFits e = true) ∧
    ∀ y ∈ pre, ¬((pcb y).localFits e = true ∧ (pcb y).remoteFits e = true)

/-- Some control block of the list gets in between. -/
def Intrudes (st : Pcbs) (e : Ends) : Prop := IntrudesIn st.pcb e st.udpPcbs false

section Demux

variable {pcb : Nat → UdpPcb} {e : Ends} {rest : List Nat} {localMatch : Bool} {uncon : Option Nat}

theorem intrudesIn_cons : IntrudesIn pcb e (i :: rest) localMatch ↔
    (localMatch = true ∧ (pcb i).remoteFits e = true ∧ (pcb i).localFits e = false) ∨
    ¬((pcb i).localFits e = true ∧ (pcb i).remoteFits e = true) ∧
      IntrudesIn pcb e rest (localMatch || (pcb i).localFits e) := by
  constructor
  · rintro ⟨pre, x, post, heq, hremote, hlocal, hbefore, hpre⟩
    cases pre with
    | nil =>
        obtain ⟨rfl, rfl⟩ := List.cons.inj heq
        exact Or.inl ⟨hbefore.resolve_right (by simp), hremote, hlocal⟩
    | cons y pre =>
        obtain ⟨rfl, rfl⟩ := List.cons.inj heq
        refine Or.inr ⟨hpre i List.mem_cons_self, pre, x, post, rfl, hremote, hlocal, ?_,
          fun y hy => hpre y (List.mem_cons_of_mem i hy)⟩
        rcases hbefore with h | ⟨y, hy, hfits⟩
        · exact Or.inl (by rw [h, Bool.true_or])
        · rcases List.mem_cons.mp hy with rfl | hy
          · exact Or.inl (by rw [hfits, Bool.or_true])
          · exact Or.inr ⟨y, hy, hfits⟩
  · rintro (⟨hm, hremote, hlocal⟩ | ⟨hi, pre, x, post, rfl, hremote, hlocal, hbefore, hpre⟩)
    · exact ⟨[], i, rest, rfl, hremote, hlocal, Or.inl hm, by simp⟩
    · refine ⟨i :: pre, x, post, rfl, hremote, hlocal, ?_, ?_⟩
      · rcases hbefore with h | ⟨y, hy, hfits⟩
        · rcases Bool.or_eq_true_iff.mp h with h | h
          · exact Or.inl h
          · exact Or.inr ⟨i, List.mem_cons_self, h⟩
        · exact Or.inr ⟨y, List.mem_cons_of_mem i hy, hfits⟩
      · intro y hy
        rcases List.mem_cons.mp hy with rfl | hy
        · exact hi
        · exact hpre y hy

/-- What is wanted fits at its local end. -/
theorem localFits_of_wantedOf (huncon : ∀ i ∈ uncon, (pcb i).localFits e = true)
    (h : wantedOf pcb e rest uncon = some i) : (pcb i).localFits e = true := by
  unfold wantedOf at h
  split at h
  · next x hx =>
      obtain rfl := Option.some.inj h
      have hfind := List.find?_some hx
      simp only [Bool.and_eq_true] at hfind
      exact hfind.1
  · rcases Option.or_eq_some_iff.mp h with h | ⟨-, h⟩
    · exact huncon i h
    · have hfind := List.find?_some h
      simp only [Bool.and_eq_true] at hfind
      exact hfind.1

/-- One that gets in between is taken. -/
theorem demuxLoop_of_intrudes (uncon : Option Nat) (h : IntrudesIn pcb e rest localMatch) :
    ∃ i, demuxLoop pcb e rest localMatch uncon = some i ∧ (pcb i).localFits e = false := by
  induction rest generalizing localMatch uncon with
  | nil =>
      obtain ⟨pre, x, post, heq, -⟩ := h
      simp at heq
  | cons i rest ih =>
      rcases intrudesIn_cons.mp h with ⟨hm, hr, hl⟩ | ⟨hboth, hrest⟩
      · exact ⟨i, by simp [demuxLoop, hm, hr], hl⟩
      · by_cases htake : (localMatch || (pcb i).localFits e) = true ∧ (pcb i).remoteFits e = true
        · have hl : (pcb i).localFits e = false := by
            by_contra hl
            exact hboth ⟨Bool.not_eq_false _ ▸ hl, htake.2⟩
          exact ⟨i, by simp [demuxLoop, htake.1, htake.2], hl⟩
        · obtain ⟨j, hj, hl⟩ := ih (if (pcb i).localFits e && uncon = none
            && !(pcb i).connected then some i else uncon) hrest
          refine ⟨j, ?_, hl⟩
          rw [← hj, demuxLoop]
          simp only [Bool.and_eq_true, if_neg htake]

/-- Otherwise it is the one that is wanted. -/
theorem demuxLoop_of_not_intrudes (h : ¬IntrudesIn pcb e rest localMatch) :
    demuxLoop pcb e rest localMatch uncon = wantedOf pcb e rest uncon := by
  induction rest generalizing localMatch uncon with
  | nil => simp [demuxLoop, wantedOf]
  | cons i rest ih =>
      rw [intrudesIn_cons] at h
      push Not at h
      obtain ⟨hfirst, hrest⟩ := h
      -- the cases are those of the two ends of the first control block
      cases hl : (pcb i).localFits e with
      | true =>
          cases hr : (pcb i).remoteFits e with
          | true => simp [demuxLoop, wantedOf, hl, hr]
          | false =>
              have hrun : demuxLoop pcb e (i :: rest) localMatch uncon = demuxLoop pcb e rest true
                  (if uncon = none ∧ (pcb i).connected = false then some i else uncon) := by
                simp [demuxLoop, hl, hr]
              rw [hl, hr, Bool.or_true] at hrest
              rw [hrun, ih (hrest (by simp))]
              unfold wantedOf
              rw [List.find?_cons_of_neg (by simp [hr])]
              cases hc : (pcb i).connected <;> cases uncon <;> simp [hl, hc]
      | false =>
          have hnot : ¬(localMatch = true ∧ (pcb i).remoteFits e = true) := by
            rintro ⟨hm, hr⟩
            exact hfirst hm hr hl
          have hrun : demuxLoop pcb e (i :: rest) localMatch uncon
              = demuxLoop pcb e rest localMatch uncon := by
            simp [demuxLoop, hl, hnot]
          rw [hl, Bool.or_false] at hrest
          rw [hrun, ih (hrest (by simp))]
          unfold wantedOf
          rw [List.find?_cons_of_neg (by simp [hl]), List.find?_cons_of_neg (by simp [hl])]

end Demux

theorem wanted_eq (st : Pcbs) (e : Ends) : wanted st e = wantedOf st.pcb e st.udpPcbs none := by
  unfold wanted wantedOf
  rw [Option.none_or]

/-- **A datagram is handed to the control block it is meant for exactly if none gets in between**;
and then, and only then, the one it is handed to has its port and address. -/
theorem demux_eq_iff (st : Pcbs) (e : Ends) :
    (demux st e = wanted st e ↔ ¬Intrudes st e) ∧
      ∀ i, demux st e = some i → ((st.pcb i).localFits e = true ↔ ¬Intrudes st e) := by
  have hlocal : ∀ i, wanted st e = some i → (st.pcb i).localFits e = true := by
    intro i hi
    rw [wanted_eq] at hi
    exact localFits_of_wantedOf (by simp) hi
  by_cases hin : Intrudes st e
  · obtain ⟨j, hj, hfalse⟩ := demuxLoop_of_intrudes none hin
    have hdemux : demux st e = some j := hj
    refine ⟨iff_of_false (fun heq => ?_) (not_not_intro hin), fun i hi => ?_⟩
    · have hfits := hlocal j (heq ▸ hdemux)
      rw [hfalse] at hfits
      exact absurd hfits (by decide)
    · obtain rfl : j = i := Option.some.inj (hdemux.symm.trans hi)
      exact iff_of_false (by rw [hfalse]; decide) (not_not_intro hin)
  · have heq : demux st e = wanted st e := by
      rw [wanted_eq]
      exact demuxLoop_of_not_intrudes hin
    exact ⟨iff_of_true heq hin, fun i hi => iff_of_true (hlocal i (heq ▸ hi)) hin⟩

end Xell.Udp
