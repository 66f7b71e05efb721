/-
What a CD drive does with a command.

A drive is a machine that is polled, so what it does is a path through its states.  `Settles`,
`Sends` and `Aborts` are the paths of the three loops that poll it: any number of polls may find
it busy.  From them come the paths of a whole command, which `Delivers` an answer or `Fails`, and
for each of these what `atapi_packet` makes of it.
-/
import Xell.Atapi
import Xell.Lib.Signed

namespace Xell.Cdrom

variable {σ : Type} (d : Ide σ)

/-! ### Turns of the loops -/

section Turns

variable {d} {t : σ} {l : List (BitVec 32 × BitVec 32)} {mem : Mem UInt8} {data : BitVec 64}
  {len : BitVec 32}

theorem waitready_ready (h : (d.in8 atapiStatus t).1 &&& 0xC0 = 0x40) :
    ideWaitready d ⟨t, l⟩ = Part.some (0, ⟨(d.in8 atapiStatus t).2, l⟩) := by
  apply Run.loop_done
  rw [ideWaitreadyTurn, Run.bind_eq rfl, if_pos h]
  rfl

theorem waitready_absent (h : ¬(d.in8 atapiStatus t).1 &&& 0xC0 = 0x40)
    (hff : (d.in8 atapiStatus t).1 = 0xFF) :
    ideWaitready d ⟨t, l⟩ = Part.some (-1, ⟨(d.in8 atapiStatus t).2, l⟩) := by
  apply Run.loop_done
  rw [ideWaitreadyTurn, Run.bind_eq rfl, if_neg h, if_pos hff]
  rfl

theorem waitready_wait (h : ¬(d.in8 atapiStatus t).1 &&& 0xC0 = 0x40)
    (hff : (d.in8 atapiStatus t).1 ≠ 0xFF) :
    ideWaitready d ⟨t, l⟩ = ideWaitready d ⟨(d.in8 atapiStatus t).2, l⟩ := by
  apply Run.loop_next
  rw [ideWaitreadyTurn, Run.bind_eq rfl, if_neg h, if_neg hff]
  rfl

theorem pioLoop_zero (b : Bus σ) : pioLoop d mem data 0 b = Part.some (mem, b) := by
  apply Run.loop_done
  rw [pioTurn, if_pos rfl]
  rfl

theorem pioLoop_busy (hlen : len ≠ 0) (h : (d.in8 atapiStatus t).1 &&& 0x80 ≠ 0) :
    pioLoop d mem data len ⟨t, l⟩ = pioLoop d mem data len ⟨(d.in8 atapiStatus t).2, l⟩ := by
  apply Run.loop_next
  rw [pioTurn, if_neg hlen, Run.bind_eq rfl, if_pos h]
  rfl

theorem pioLoop_error (hlen : len ≠ 0) (h : (d.in8 atapiStatus t).1 &&& 0x80 = 0)
    (herr : (d.in8 atapiStatus t).1 &&& 1 ≠ 0) :
    pioLoop d mem data len ⟨t, l⟩
      = Part.some (mem, ⟨(d.in8 atapiError (d.in8 atapiStatus t).2).2, l⟩) := by
  apply Run.loop_done
  rw [pioTurn, if_neg hlen, Run.bind_eq rfl, if_neg (not_not.mpr h), if_pos herr, Run.bind_eq rfl]
  rfl

theorem pioLoop_word (hlen : len ≠ 0) (h : (d.in8 atapiStatus t).1 &&& 0x80 = 0)
    (herr : (d.in8 atapiStatus t).1 &&& 1 = 0) :
    pioLoop d mem data len ⟨t, l⟩
      = pioLoop d
          (mem.store data.toNat 4 (wordByte (d.in32 atapiData (d.in8 atapiStatus t).2).1))
          (data + 4) (len - 2) ⟨(d.in32 atapiData (d.in8 atapiStatus t).2).2, l⟩ := by
  apply Run.loop_next
  rw [pioTurn, if_neg hlen, Run.bind_eq rfl, if_neg (not_not.mpr h), if_neg (not_not.mpr herr),
    Run.bind_eq rfl]
  rfl

end Turns

/-! ### Paths of a drive -/

/-- The drive is polled until it is ready. -/
inductive Settles : σ → σ → Prop where
  | ready {t : σ} (h : (d.in8 atapiStatus t).1 &&& 0xC0 = 0x40) :
      Settles t (d.in8 atapiStatus t).2
  | wait {t t' : σ} (h : ¬(d.in8 atapiStatus t).1 &&& 0xC0 = 0x40)
      (hff : (d.in8 atapiStatus t).1 ≠ 0xFF) (hrest : Settles (d.in8 atapiStatus t).2 t') :
      Settles t t'

/-- The drive sends `n` words, whose bytes are `f 0`, `f 1` and so on. -/
inductive Sends : (Nat → UInt8) → Nat → σ → σ → Prop where
  | done {f : Nat → UInt8} {t : σ} : Sends f 0 t t
  | busy {f : Nat → UInt8} {n : Nat} {t t' : σ} (h : (d.in8 atapiStatus t).1 &&& 0x80 ≠ 0)
      (hrest : Sends f (n + 1) (d.in8 atapiStatus t).2 t') : Sends f (n + 1) t t'
  | word {f : Nat → UInt8} {n : Nat} {t t' : σ} (h : (d.in8 atapiStatus t).1 &&& 0x80 = 0)
      (herr : (d.in8 atapiStatus t).1 &&& 1 = 0)
      (hw : ∀ k < 4, wordByte (d.in32 atapiData (d.in8 atapiStatus t).2).1 k = f k)
      (hrest : Sends (fun i => f (4 + i)) n (d.in32 atapiData (d.in8 atapiStatus t).2).2 t') :
      Sends f (n + 1) t t'

/-- The drive reports an error before it has sent `n` words. -/
inductive Aborts : Nat → σ → σ → Prop where
  | error {n : Nat} {t : σ} (h : (d.in8 atapiStatus t).1 &&& 0x80 = 0)
      (herr : (d.in8 atapiStatus t).1 &&& 1 ≠ 0) :
      Aborts (n + 1) t (d.in8 atapiError (d.in8 atapiStatus t).2).2
  | busy {n : Nat} {t t' : σ} (h : (d.in8 atapiStatus t).1 &&& 0x80 ≠ 0)
      (hrest : Aborts (n + 1) (d.in8 atapiStatus t).2 t') : Aborts (n + 1) t t'
  | word {n : Nat} {t t' : σ} (h : (d.in8 atapiStatus t).1 &&& 0x80 = 0)
      (herr : (d.in8 atapiStatus t).1 &&& 1 = 0)
      (hrest : Aborts n (d.in32 atapiData (d.in8 atapiStatus t).2).2 t') : Aborts (n + 1) t t'

/-- The registers have been written for a command with an answer of `len` bytes. -/
def command (len : BitVec 32) (t : σ) : σ :=
  d.out8 atapiStatus 0xA0 (d.out8 atapiError 0
    (d.out8 atapiByteCntH (lowByte ((len.sdiv 2).sshiftRight 8))
      (d.out8 atapiByteCntL (lowByte (len.sdiv 2 &&& 0xFF)) (d.out8 atapiDriveSelect 0xA0 t))))

/-- The command itself has been written. -/
def sendPacket (packet : List UInt8) (t : σ) : σ :=
  d.out32 atapiData (packetWord packet 8) (d.out32 atapiData (packetWord packet 4)
    (d.out32 atapiData (packetWord packet 0) t))

theorem atapiCommand_eq (len : BitVec 32) (t : σ) (l : List (BitVec 32 × BitVec 32)) :
    atapiCommand d (len.sdiv 2) ⟨t, l⟩ = Part.some ((), ⟨command d len t, l⟩) := by
  unfold atapiCommand
  rw [Run.bind_eq rfl, Run.bind_eq rfl, Run.bind_eq rfl, Run.bind_eq rfl]
  rfl

theorem atapiSend_eq (packet : List UInt8) (t : σ) (l : List (BitVec 32 × BitVec 32)) :
    atapiSend d packet ⟨t, l⟩ = Part.some ((), ⟨sendPacket d packet t, l⟩) := by
  unfold atapiSend
  rw [Run.bind_eq rfl, Run.bind_eq rfl]
  rfl

/-- The drive asks for the command and takes it. -/
structure Takes (packet : List UInt8) (len : BitVec 32) (t t' : σ) : Prop where
  path : ∃ t₁, Settles d (command d len t) t₁ ∧ (d.in8 atapiStatus t₁).1 &&& atapiStatusDrq ≠ 0 ∧
    Settles d (sendPacket d packet (d.in8 atapiStatus t₁).2) t'

/-- The drive answers the command with `4 * n` bytes. -/
inductive Delivers (packet : List UInt8) (n : Nat) (f : Nat → UInt8) : σ → σ → Prop where
  | answer {t t₁ t₂ : σ} (htakes : Takes d packet (BitVec.ofNat 32 (4 * n)) t t₁)
      (hsends : Sends d f n t₁ t₂) (hok : (d.in8 atapiStatus t₂).1 &&& atapiStatusErr = 0) :
      Delivers packet n f t (d.in8 atapiStatus t₂).2

/-- The drive does not do the command: it has an error to report before it takes it, before it
has sent all of the answer, or behind it. -/
inductive Fails (packet : List UInt8) (n : Nat) : σ → σ → Prop where
  | refused {t t₁ : σ} (hsettles : Settles d (command d (BitVec.ofNat 32 (4 * n)) t) t₁)
      (hdrq : (d.in8 atapiStatus t₁).1 &&& atapiStatusDrq = 0)
      (herr : (d.in8 atapiStatus (d.in8 atapiStatus t₁).2).1 &&& atapiStatusErr ≠ 0) :
      Fails packet n t (d.in8 atapiStatus (d.in8 atapiStatus t₁).2).2
  | aborted {t t₁ t₂ : σ} (htakes : Takes d packet (BitVec.ofNat 32 (4 * n)) t t₁)
      (haborts : Aborts d n t₁ t₂) (herr : (d.in8 atapiStatus t₂).1 &&& atapiStatusErr ≠ 0) :
      Fails packet n t (d.in8 atapiStatus t₂).2
  | spoiled {t t₁ t₂ : σ} {f : Nat → UInt8} (htakes : Takes d packet (BitVec.ofNat 32 (4 * n)) t t₁)
      (hsends : Sends d f n t₁ t₂) (herr : (d.in8 atapiStatus t₂).1 &&& atapiStatusErr ≠ 0) :
      Fails packet n t (d.in8 atapiStatus t₂).2

/-! ### What `atapi_packet` makes of them -/

section Packet

variable {d} {t t' : σ} {l : List (BitVec 32 × BitVec 32)} {mem : Mem UInt8} {data : BitVec 64}
  {len : BitVec 32} {packet : List UInt8} {n : Nat} {f : Nat → UInt8}

theorem Settles.waitready (h : Settles d t t') : ideWaitready d ⟨t, l⟩ = Part.some (0, ⟨t', l⟩) := by
  induction h with
  | ready h => exact waitready_ready h
  | wait h hff _ ih => rw [waitready_wait h hff, ih]

/-- The count of half the bytes that are left, before and after a word. -/
theorem halves_ne_zero (hlen : len.toNat = 2 * (n + 1)) : len ≠ 0 := by
  rintro rfl
  simp at hlen

theorem halves_sub (hlen : len.toNat = 2 * (n + 1)) : (len - 2).toNat = 2 * n := by
  have := len.isLt
  rw [BitVec.toNat_sub]
  simp
  omega

theorem data_add (hroom : data.toNat + 4 < 2 ^ 64) : (data + 4).toNat = data.toNat + 4 := by
  rw [BitVec.toNat_add]
  simp
  omega

/-- What a drive sends goes to memory. -/
theorem Sends.pioLoop (h : Sends d f n t t') :
    ∀ {mem : Mem UInt8} {data : BitVec 64} {len : BitVec 32}, len.toNat = 2 * n →
      data.toNat + 4 * n ≤ 2 ^ 64 →
      pioLoop d mem data len ⟨t, l⟩ = Part.some (mem.store data.toNat (4 * n) f, ⟨t', l⟩) := by
  induction h with
  | done =>
      intro mem data len hlen _
      obtain rfl : len = 0 := BitVec.eq_of_toNat_eq hlen
      rw [pioLoop_zero, Mem.store_zero]
  | busy hbusy _ ih =>
      intro mem data len hlen hroom
      rw [pioLoop_busy (halves_ne_zero hlen) hbusy, ih hlen hroom]
  | @word f n t t' hbusy herr hw hrest ih =>
      intro mem data len hlen hroom
      rw [pioLoop_word (halves_ne_zero hlen) hbusy herr, Mem.store_congr mem _ hw]
      by_cases hn : n = 0
      · subst hn
        -- The last word: what is behind it need not have an address.
        cases hrest
        obtain hzero : len - 2 = 0 := BitVec.eq_of_toNat_eq (halves_sub hlen)
        rw [hzero, pioLoop_zero]
      · have hadd : (data + 4).toNat = data.toNat + 4 := data_add (by omega)
        have hroom' : (data + 4).toNat + 4 * n ≤ 2 ^ 64 := by omega
        rw [ih (halves_sub hlen) hroom', hadd, Mem.store_append]
        congr 3
        omega

/-- What a drive sends before an error goes to memory too. -/
theorem Aborts.pioLoop (h : Aborts d n t t') :
    ∀ {mem : Mem UInt8} {data : BitVec 64} {len : BitVec 32}, len.toNat = 2 * n →
      data.toNat + 4 * n ≤ 2 ^ 64 →
      ∃ mem', pioLoop d mem data len ⟨t, l⟩ = Part.some (mem', ⟨t', l⟩) ∧
        mem.SameOutside mem' data.toNat (4 * n) := by
  induction h with
  | error hbusy herr =>
      intro mem data len hlen _
      exact ⟨mem, pioLoop_error (halves_ne_zero hlen) hbusy herr, .refl _ _ _⟩
  | busy hbusy _ ih =>
      intro mem data len hlen hroom
      rw [pioLoop_busy (halves_ne_zero hlen) hbusy]
      exact ih hlen hroom
  | @word n t t' hbusy herr hrest ih =>
      intro mem data len hlen hroom
      have hn : n ≠ 0 := by
        rintro rfl
        cases hrest
      have hadd : (data + 4).toNat = data.toNat + 4 := data_add (by omega)
      rw [pioLoop_word (halves_ne_zero hlen) hbusy herr]
      have hroom' : (data + 4).toNat + 4 * n ≤ 2 ^ 64 := by omega
      obtain ⟨mem', hrun, hsame⟩ := ih (halves_sub hlen) hroom'
      refine ⟨mem', hrun, ?_⟩
      exact ((Mem.sameOutside_store mem _ 4 _).mono le_rfl (by omega)).trans
        (hsame.mono (by omega) (by omega))

/-- With the command taken, the answer remains. -/
theorem Takes.atapiPacket (h : Takes d packet len t t') :
    atapiPacket d packet mem data len ⟨t, l⟩
      = atapiAnswer d mem data (len.sdiv 2) ⟨t', l⟩ := by
  obtain ⟨t₁, hfirst, hdrq, hsecond⟩ := h.path
  unfold Cdrom.atapiPacket
  rw [Run.bind_eq (atapiCommand_eq d len t l), Run.bind_eq hfirst.waitready, if_neg (by simp),
    Run.bind_eq rfl, if_pos hdrq, Run.bind_eq (atapiSend_eq d packet _ l),
    Run.bind_eq hsecond.waitready, if_neg (by simp)]

/-- Half of the bytes of an answer, as the source counts them. -/
theorem sdiv_two (hn : 4 * n < 2 ^ 31) : ((BitVec.ofNat 32 (4 * n)).sdiv 2).toNat = 2 * n := by
  have hint : (BitVec.ofNat 32 (4 * n)).toInt = (4 * n : Nat) := Signed.toInt_ofNat (by omega)
  apply Signed.toNat_of_toInt
  rw [Signed.toInt_sdiv_of_nonneg (by decide) (by omega), hint,
    show (2 : BitVec 32).toInt = 2 from rfl]
  omega

theorem Delivers.atapiPacket (h : Delivers d packet n f t t')
    (hhalf : ((BitVec.ofNat 32 (4 * n)).sdiv 2).toNat = 2 * n)
    (hroom : data.toNat + 4 * n ≤ 2 ^ 64) :
    atapiPacket d packet mem data (BitVec.ofNat 32 (4 * n)) ⟨t, l⟩
      = Part.some ((0, mem.store data.toNat (4 * n) f), ⟨t', l⟩) := by
  obtain ⟨htakes, hsends, hok⟩ := h
  rw [htakes.atapiPacket, atapiAnswer, Run.bind_eq (hsends.pioLoop hhalf hroom),
    Run.bind_eq rfl, if_neg (not_not.mpr hok)]
  rfl

theorem Fails.atapiPacket (h : Fails d packet n t t') (hn : 4 * n < 2 ^ 31)
    (hroom : data.toNat + 4 * n ≤ 2 ^ 64) :
    ∃ r mem', atapiPacket d packet mem data (BitVec.ofNat 32 (4 * n)) ⟨t, l⟩
        = Part.some ((r, mem'), ⟨t', l⟩) ∧
      r ≠ 0 ∧ mem.SameOutside mem' data.toNat (4 * n) := by
  cases h with
  | refused hsettles hdrq herr =>
      refine ⟨-3, mem, ?_, by simp, .refl _ _ _⟩
      unfold Cdrom.atapiPacket
      rw [Run.bind_eq (atapiCommand_eq d _ t l), Run.bind_eq hsettles.waitready,
        if_neg (by simp), Run.bind_eq rfl, if_neg (not_not.mpr hdrq), Run.bind_eq rfl,
        if_pos herr]
      rfl
  | aborted htakes haborts herr =>
      obtain ⟨mem', hrun, hsame⟩ := haborts.pioLoop (sdiv_two hn) hroom
      refine ⟨-6, mem', ?_, by simp, hsame⟩
      rw [htakes.atapiPacket, atapiAnswer, Run.bind_eq hrun, Run.bind_eq rfl, if_pos herr]
      rfl
  | @spoiled t₁ t₂ g htakes hsends herr =>
      refine ⟨-6, mem.store data.toNat (4 * n) g, ?_, by simp, Mem.sameOutside_store mem _ _ _⟩
      rw [htakes.atapiPacket, atapiAnswer, Run.bind_eq (hsends.pioLoop (sdiv_two hn) hroom),
        Run.bind_eq rfl, if_pos herr]
      rfl

end Packet

end Xell.Cdrom
