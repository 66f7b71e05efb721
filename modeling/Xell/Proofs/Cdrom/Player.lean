/-
A drive that plays a disc.

A small drive that does what `Drive.lean` says drives do: it takes the three words of a command,
and sends the bytes of the disc from the sector on that the command names, or the sense data.  If
the disc has been changed it refuses to read until it was asked for the sense data.
-/
import Xell.Proofs.Cdrom.Drive

namespace Xell.Cdrom

/-! ### Bytes of words -/

theorem lowByte_toNat (x : BitVec 32) : (lowByte x).toNat = x.toNat % 256 := by
  show (x.setWidth 8).toNat = x.toNat % 256
  rw [BitVec.toNat_setWidth]

theorem lowByte_sshiftRight (x : BitVec 32) {n : Nat} (hn : n ≤ 24) :
    lowByte (x.sshiftRight n) = lowByte (x >>> n) := by
  unfold lowByte
  congr 1
  apply BitVec.eq_of_getLsbD_eq
  intro i hi
  have hin : n + i < 32 := by omega
  have hi' : i < 32 := by omega
  simp [BitVec.getElem_sshiftRight, hi, hi', hin]

theorem wordByte_packetWord (packet : List UInt8) (i : Nat) {k : Nat} (hk : k < 4) :
    wordByte (packetWord packet i) k = packet.getD (i + k) 0 := by
  have h₀ := (packet.getD i 0).toNat_lt
  have h₁ := (packet.getD (i + 1) 0).toNat_lt
  have h₂ := (packet.getD (i + 2) 0).toNat_lt
  have h₃ := (packet.getD (i + 3) 0).toNat_lt
  apply UInt8.toNat_inj.mp
  rw [wordByte, lowByte_toNat, BitVec.toNat_ushiftRight, Nat.shiftRight_eq_div_pow, packetWord,
    BitVec.toNat_ofNat]
  interval_cases k <;>
    simp only [Nat.reduceMul, Nat.reduceSub, Nat.reducePow, Nat.add_zero] <;> omega

/-- The four bytes of a word, put together again. -/
theorem lowByte_word (x : BitVec 32) :
    BitVec.ofNat 32 ((lowByte (x.sshiftRight 24)).toNat * 2 ^ 24
      + (lowByte (x.sshiftRight 16)).toNat * 2 ^ 16 + (lowByte (x.sshiftRight 8)).toNat * 2 ^ 8
      + (lowByte x).toNat) = x := by
  have := x.isLt
  rw [lowByte_sshiftRight x (by omega), lowByte_sshiftRight x (by omega),
    lowByte_sshiftRight x (by omega)]
  apply BitVec.eq_of_toNat_eq
  simp only [lowByte_toNat, BitVec.toNat_ushiftRight, Nat.shiftRight_eq_div_pow,
    BitVec.toNat_ofNat]
  omega

/-! ### The drive -/

/-- The bytes of a disc from a sector on. -/
def extent (disc : BitVec 32 → Mem UInt8) (lba : BitVec 32) : Mem UInt8 :=
  fun i => disc (lba + BitVec.ofNat 32 (i / 2048)) (i % 2048)

/-- The words of the command, how many words have been sent, and whether the disc was changed. -/
structure Player where
  cdb : List (BitVec 32)
  pos : Nat
  changed : Bool

namespace Player

def opcode (t : Player) : UInt8 := wordByte (t.cdb.getD 0 0) 0

def lba (t : Player) : BitVec 32 :=
  BitVec.ofNat 32 ((wordByte (t.cdb.getD 0 0) 2).toNat * 2 ^ 24
    + (wordByte (t.cdb.getD 0 0) 3).toNat * 2 ^ 16 + (wordByte (t.cdb.getD 1 0) 0).toNat * 2 ^ 8
    + (wordByte (t.cdb.getD 1 0) 1).toNat)

/-- The command is not done because the disc was changed. -/
def refuses (t : Player) : Bool := t.changed && t.cdb.length == 3 && t.opcode == 0x28

/-- Sense data for UNIT ATTENTION. -/
def senseData (i : Nat) : UInt8 := if i = 2 then 6 else 0

/-- The answer to the command. -/
def answer (disc : BitVec 32 → Mem UInt8) (t : Player) : Mem UInt8 :=
  if t.opcode = 0x03 then senseData else extent disc t.lba

/-- The state with a command written to it. -/
def withPacket (packet : List UInt8) (changed : Bool) : Player :=
  ⟨[packetWord packet 0, packetWord packet 4, packetWord packet 8], 0, changed⟩

end Player

/-- The registers of the drive with a disc. -/
def player (disc : BitVec 32 → Mem UInt8) : Ide Player where
  out8 reg _ t := if reg = atapiStatus then ⟨[], 0, t.changed && t.opcode != 0x03⟩ else t
  out32 _ w t := { t with cdb := t.cdb ++ [w] }
  in8 _ t := (if t.refuses then 0x41 else 0x48, t)
  in32 _ t :=
    (packetWord ((t.answer disc).slice (4 * t.pos) 4) 0, { t with pos := t.pos + 1 })
  uninit _ := fun _ => 0

/-! ### Its paths -/

section Paths

variable {disc : BitVec 32 → Mem UInt8} {t : Player}

open Player

theorem player_ready (h : t.refuses = false) : ((player disc).in8 atapiStatus t).1 = 0x48 := by
  show (if t.refuses then (0x41 : UInt8) else 0x48) = 0x48
  rw [h]
  rfl

theorem player_error (h : t.refuses = true) : ((player disc).in8 atapiStatus t).1 = 0x41 := by
  show (if t.refuses then (0x41 : UInt8) else 0x48) = 0x41
  rw [h]
  rfl

theorem player_settles (t : Player) : Settles (player disc) t t := by
  cases h : t.refuses with
  | false => exact @Settles.ready _ (player disc) t (by rw [player_ready h]; decide)
  | true => exact @Settles.ready _ (player disc) t (by rw [player_error h]; decide)

/-- It takes every command. -/
theorem player_takes (packet : List UInt8) (len : BitVec 32) (t : Player) :
    Takes (player disc) packet len t (withPacket packet (t.changed && t.opcode != 0x03)) := by
  have hready : (command (player disc) len t).refuses = false := by
    simp [player, command, refuses]
  exact ⟨command (player disc) len t, player_settles _, by rw [player_ready hready]; decide,
    player_settles _⟩

/-- It sends as much of the answer as it is asked for. -/
theorem player_sends (n : Nat) :
    ∀ {t : Player}, t.refuses = false →
      Sends (player disc) (fun i => t.answer disc (4 * t.pos + i)) n t
        { t with pos := t.pos + n } := by
  induction n with
  | zero => intro t _; exact .done
  | succ n ih =>
      intro t ht
      have hstatus : ((player disc).in8 atapiStatus t).1 = 0x48 := player_ready ht
      refine .word (by rw [hstatus]; decide) (by rw [hstatus]; decide) (fun k hk => ?_) ?_
      · show wordByte (packetWord ((t.answer disc).slice (4 * t.pos) 4) 0) k = _
        rw [wordByte_packetWord _ _ hk]
        interval_cases k <;> rfl
      · have hrest := @ih { t with pos := t.pos + 1 } ht
        have hpos : t.pos + 1 + n = t.pos + (n + 1) := by omega
        have hanswer : (fun i => t.answer disc (4 * t.pos + (4 + i)))
            = fun i => t.answer disc (4 * (t.pos + 1) + i) := by
          funext i
          congr 1
          omega
        show Sends (player disc) (fun i => t.answer disc (4 * t.pos + (4 + i))) n
          { t with pos := t.pos + 1 } { t with pos := t.pos + (n + 1) }
        rw [hanswer, ← hpos]
        exact hrest

variable {packet : List UInt8} {n : Nat} {u : Player}

/-- The answer to a whole command. -/
theorem player_delivers (htakes : Takes (player disc) packet (BitVec.ofNat 32 (4 * n)) t u)
    (hpos : u.pos = 0) (h : u.refuses = false) :
    Delivers (player disc) packet n (u.answer disc) t { u with pos := n } := by
  have hsends := @player_sends disc n u h
  simp only [hpos, Nat.mul_zero, Nat.zero_add] at hsends
  have hready : { u with pos := n }.refuses = false := h
  exact .answer htakes hsends (by rw [player_ready hready]; decide)

/-- A command that it refuses. -/
theorem player_fails (htakes : Takes (player disc) packet (BitVec.ofNat 32 (4 * n)) t u)
    (h : u.refuses = true) : Fails (player disc) packet n t u := by
  have hstatus := @player_error disc u h
  have herr : ((player disc).in8 atapiStatus u).1 &&& atapiStatusErr ≠ 0 := by
    rw [hstatus]
    decide
  cases n with
  | zero => exact @Fails.spoiled _ (player disc) _ _ _ _ _ (fun _ => 0) htakes .done herr
  | succ n =>
      have haborts : Aborts (player disc) (n + 1) u u :=
        @Aborts.error _ (player disc) n u (by rw [hstatus]; decide) (by rw [hstatus]; decide)
      exact .aborted htakes haborts herr

/-! ### REQUEST SENSE and READ(10) -/

theorem opcode_sensePacket (changed : Bool) :
    (withPacket sensePacket changed).opcode = 0x03 :=
  wordByte_packetWord sensePacket 0 (by omega)

theorem answer_sensePacket (changed : Bool) :
    (withPacket sensePacket changed).answer disc = senseData := by
  unfold answer
  rw [opcode_sensePacket, if_pos rfl]

theorem refuses_sensePacket (changed : Bool) :
    (withPacket sensePacket changed).refuses = false := by
  unfold refuses
  rw [opcode_sensePacket]
  simp

theorem opcode_readPacket (lba num : BitVec 32) (changed : Bool) :
    (withPacket (readPacket lba num) changed).opcode = 0x28 :=
  wordByte_packetWord (readPacket lba num) 0 (by omega)

theorem lba_readPacket (lba num : BitVec 32) (changed : Bool) :
    (withPacket (readPacket lba num) changed).lba = lba := by
  have hbyte : ∀ i, ∀ k < 4, wordByte (packetWord (readPacket lba num) i) k
      = (readPacket lba num).getD (i + k) 0 := fun i k hk => wordByte_packetWord _ i hk
  show BitVec.ofNat 32 ((wordByte (packetWord (readPacket lba num) 0) 2).toNat * 2 ^ 24
    + (wordByte (packetWord (readPacket lba num) 0) 3).toNat * 2 ^ 16
    + (wordByte (packetWord (readPacket lba num) 4) 0).toNat * 2 ^ 8
    + (wordByte (packetWord (readPacket lba num) 4) 1).toNat) = lba
  rw [hbyte 0 2 (by omega), hbyte 0 3 (by omega), hbyte 4 0 (by omega), hbyte 4 1 (by omega)]
  exact lowByte_word lba

theorem answer_readPacket (lba num : BitVec 32) (changed : Bool) :
    (withPacket (readPacket lba num) changed).answer disc = extent disc lba := by
  unfold answer
  rw [opcode_readPacket, if_neg (by decide), lba_readPacket]

theorem refuses_readPacket (lba num : BitVec 32) (changed : Bool) :
    (withPacket (readPacket lba num) changed).refuses = changed := by
  unfold refuses
  rw [opcode_readPacket]
  simp [withPacket]

/-- A READ(10) when the disc is not, or no longer, found to be changed. -/
theorem player_reads (lba num : BitVec 32) (n : Nat)
    (ht : (t.changed && t.opcode != 0x03) = false) :
    Delivers (player disc) (readPacket lba num) n (extent disc lba) t
      { withPacket (readPacket lba num) false with pos := n } := by
  have htakes := @player_takes disc (readPacket lba num) (BitVec.ofNat 32 (4 * n)) t
  rw [ht] at htakes
  have h := player_delivers htakes rfl (refuses_readPacket _ _ _)
  rw [answer_readPacket] at h
  exact h

end Paths

end Xell.Cdrom
