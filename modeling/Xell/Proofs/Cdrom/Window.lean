/-
Where `iso9660_load_file` stores.

The size of a file is 32 bits of its directory record, and the loop takes them as they are: it
has no limit of its own, and an `int`.  Up to `LOADER_MAXSIZE` the loop ends and stays in the
window, on every drive that keeps answering (`loadLoop_ends`).  Above it the file is loaded all
the same.  Where the rounding up to sectors overflows, or the `int` is negative, the number of
sectors is negative, and the loop of `atapi_packet` that counts it down to zero has to go around
(`nextNum_negative`).  Only the sizes that round to zero sectors are refused.
-/
import Xell.Proofs.Cdrom.Load

namespace Xell.Cdrom

variable {σ : Type} {d : Ide σ}

/-! ### Drives that answer -/

/-- The drive after a poll. -/
def polled (d : Ide σ) (t : σ) : σ := (d.in8 atapiStatus t).2

/-- Whatever happens, some later poll finds the drive ready. -/
def Responsive (d : Ide σ) : Prop :=
  ∀ t, ∃ n, (d.in8 atapiStatus ((polled d)^[n] t)).1 &&& 0xC0 = 0x40

theorem not_busy {x : UInt8} (h : x &&& 0xC0 = 0x40) : x &&& 0x80 = 0 := by
  have hmask : x &&& 0x80 = (x &&& 0xC0) &&& 0x80 := by
    rw [UInt8.and_assoc]
    rfl
  rw [hmask, h]
  rfl

theorem waitready_ends (h : Responsive d) (b : Bus σ) :
    Run.Ends (ideWaitready d) b fun _ _ => True := by
  obtain ⟨t, l⟩ := b
  obtain ⟨n, hn⟩ := h t
  refine Run.Ends.poll (fun t => Bus.mk t l) (polled d)
    (fun t => (d.in8 atapiStatus t).1 &&& 0xC0 = 0x40 ∨ (d.in8 atapiStatus t).1 = 0xFF)
    (fun u hu => ?_) (fun u hu => ?_) n (.inl hn)
  · by_cases hready : (d.in8 atapiStatus u).1 &&& 0xC0 = 0x40
    · exact ⟨_, _, waitready_ready hready, trivial⟩
    · exact ⟨_, _, waitready_absent hready (hu.resolve_left hready), trivial⟩
  · rw [not_or] at hu
    exact waitready_wait hu.1 hu.2

/-- The loop takes at most the words that were asked for. -/
theorem pioLoop_ends (h : Responsive d) (n : Nat) :
    ∀ (mem : Mem UInt8) (data : BitVec 64) (len : BitVec 32) (b : Bus σ), len.toNat = 2 * n →
      data.toNat + 4 * n < 2 ^ 64 →
      Run.Ends (pioLoop d mem data len) b
        fun mem' _ => mem.SameOutside mem' data.toNat (4 * n) := by
  induction n with
  | zero =>
      intro mem data len b hlen _
      obtain rfl : len = 0 := BitVec.eq_of_toNat_eq hlen
      exact ⟨mem, b, pioLoop_zero b, .refl _ _ _⟩
  | succ n ih =>
      intro mem data len b hlen hroom
      obtain ⟨t, l⟩ := b
      have hturn : ∀ t, (d.in8 atapiStatus t).1 &&& 0x80 = 0 →
          Run.Ends (pioLoop d mem data len) ⟨t, l⟩
            fun mem' _ => mem.SameOutside mem' data.toNat (4 * (n + 1)) := by
        intro t hbusy
        by_cases herr : (d.in8 atapiStatus t).1 &&& 1 = 0
        · have hadd : (data + 4).toNat = data.toNat + 4 := data_add (by omega)
          refine .of_eq (pioLoop_word (halves_ne_zero hlen) hbusy herr) ?_
          refine (ih _ _ _ _ (halves_sub hlen) (by omega)).mono fun mem' _ hsame => ?_
          exact ((Mem.sameOutside_store mem _ 4 _).mono le_rfl (by omega)).trans
            (hsame.mono (by omega) (by omega))
        · exact ⟨_, _, pioLoop_error (halves_ne_zero hlen) hbusy herr, .refl _ _ _⟩
      obtain ⟨k, hk⟩ := h t
      exact Run.Ends.poll (fun t => Bus.mk t l) (polled d)
        (fun t => (d.in8 atapiStatus t).1 &&& 0x80 = 0) hturn
        (fun u hbusy => pioLoop_busy (halves_ne_zero hlen) hbusy) k (not_busy hk)

theorem atapiPacket_ends (h : Responsive d) (packet : List UInt8) (mem : Mem UInt8)
    {data : BitVec 64} {len : BitVec 32} {n : Nat} (hhalf : (len.sdiv 2).toNat = 2 * n)
    (hroom : data.toNat + 4 * n < 2 ^ 64) (b : Bus σ) :
    Run.Ends (atapiPacket d packet mem data len) b
      fun q _ => mem.SameOutside q.2 data.toNat (4 * n) := by
  obtain ⟨t, l⟩ := b
  unfold atapiPacket
  refine .step (atapiCommand_eq d len t l) ?_
  refine (waitready_ends h _).bind fun r b _ => ?_
  split
  · exact .pure (.refl _ _ _)
  refine .step rfl ?_
  split
  · refine .step (atapiSend_eq d packet _ _) ?_
    refine (waitready_ends h _).bind fun r b _ => ?_
    split
    · exact .pure (.refl _ _ _)
    · refine (pioLoop_ends h n mem data _ b hhalf hroom).bind fun mem' b hsame => ?_
      refine .step rfl ?_
      split
      · exact .pure hsame
      · exact .pure hsame
  · refine .step rfl ?_
    split
    · exact .pure (.refl _ _ _)
    · exact .pure (.refl _ _ _)

theorem requestSense_ends (h : Responsive d) (b : Bus σ) :
    Run.Ends (requestSense d) b fun _ _ => True := by
  refine .step rfl ?_
  have hpacket := @atapiPacket_ends _ d h sensePacket (d.uninit b.drive) 0 24 6 (by decide)
    (by decide) b
  refine hpacket.bind fun q b _ => ?_
  split
  · exact .pure trivial
  · exact .pure trivial

theorem readSector_ends (h : Responsive d) {num : Nat} (hnum : num ≤ 64) {sector : BitVec 64}
    (hroom : sector.toNat + 2048 * num < 2 ^ 64) (lba : BitVec 32) (m : Nat) :
    ∀ (mem : Mem UInt8) (b : Bus σ),
      Run.Ends (readSector d sector lba (BitVec.ofNat 32 num) m mem) b
        fun q _ => mem.SameOutside q.2 sector.toNat (2048 * num) := by
  have hbytes : 2048 * num = 4 * (512 * num) := by omega
  have hhalf : ((0x800 * BitVec.ofNat 32 num).sdiv 2).toNat = 2 * (512 * num) := by
    rw [readLength]
    exact sdiv_two (by omega)
  rw [hbytes] at hroom ⊢
  induction m with
  | zero => intro mem b; exact .pure (.refl _ _ _)
  | succ m ih =>
      intro mem b
      refine .step rfl ?_
      refine (atapiPacket_ends h _ mem hhalf hroom _).bind fun q b hsame => ?_
      split
      · refine (requestSense_ends h b).bind fun sense b _ => ?_
        have hrest := (ih q.2 b).mono fun q' _ hsame' => hsame.trans hsame'
        split
        · exact hrest
        split
        · exact hrest
        · exact .pure hsame
      · exact .pure hsame

/-- The loop ends, and stores in the sectors of the file at most. -/
theorem loadLoop_ends (h : Responsive d) (fileSize : BitVec 32) (s : Nat) :
    ∀ (mem : Mem UInt8) (addr : BitVec 64) (lba : BitVec 32) (b : Bus σ), s + 0x7ff < 2 ^ 31 →
      addr.toNat + 2048 * sectors s < 2 ^ 64 →
      Run.Ends (loadLoop d fileSize mem addr lba (BitVec.ofNat 32 s)) b
        fun q _ => mem.SameOutside q.2 addr.toNat (2048 * sectors s) ∧
          (q.1 = -1 ∨ q.1 = fileSize) := by
  induction s using Nat.strongRecOn with
  | _ s ih =>
      intro mem addr lba b hs hroom
      have hnum := nextNum_ofNat hs
      by_cases hlast : sectors s ≤ 64
      · rw [Nat.min_eq_right hlast] at hnum
        obtain ⟨⟨r, mem'⟩, b', hrun, hsame⟩ := readSector_ends h hlast hroom lba 10 mem b
        rw [← hnum] at hrun
        by_cases hr : r = 0
        · subst hr
          have hleft := left_last hlast
          rw [← hnum] at hleft
          exact ⟨_, _, loadLoop_last hrun hleft, hsame, .inr rfl⟩
        · exact ⟨_, _, loadLoop_failed hrun hr, hsame, .inl rfl⟩
      · have hmore : 64 < sectors s := by omega
        obtain ⟨hleft, hpos⟩ := left_more hs hmore
        have hsectors := sectors_more hmore
        rw [Nat.min_eq_left hmore.le] at hnum
        have haddr : (addr + (nextNum (BitVec.ofNat 32 s) * 0x800).signExtend 64).toNat
            = addr.toNat + 2048 * 64 := by
          rw [hnum]
          exact addr_more (by omega)
        obtain ⟨⟨r, mem'⟩, b', hrun, hsame⟩ := @readSector_ends _ d h 64 le_rfl addr (by omega) lba
          10 mem b
        rw [← hnum] at hrun hleft
        have hsame' : mem.SameOutside mem' addr.toNat (2048 * sectors s) :=
          hsame.mono le_rfl (by omega)
        by_cases hr : r = 0
        · subst hr
          refine .of_eq (loadLoop_more hrun (by rw [hleft]; exact hpos)) ?_
          rw [hleft]
          refine (ih (s - 131072) (by unfold sectors at hmore; omega) mem'
            (addr + (nextNum (BitVec.ofNat 32 s) * 0x800).signExtend 64) _ b' (by omega)
            (by omega)).mono fun q _ hq => ?_
          exact ⟨hsame'.trans (hq.1.mono (by omega) (by omega)), hq.2⟩
        · exact ⟨_, _, loadLoop_failed hrun hr, hsame', .inl rfl⟩

/-! ### Sizes that are not sizes -/

/-- Where the number of sectors is negative: minus what it is. -/
def missing (size : BitVec 32) : Nat := (2 ^ 32 - 0x7ff - size.toNat) / 0x800

section Negative

variable {size : BitVec 32}

theorem missing_le (hlo : 2 ^ 31 ≤ size.toNat + 0x7ff) : missing size ≤ 2 ^ 20 := by
  unfold missing
  omega

theorem missing_pos (hhi : size.toNat + 0x7ff ≤ 2 ^ 32 - 0x800) : 1 ≤ missing size := by
  unfold missing
  omega

/-- The rounding overflows, or the `int` is below zero by more than two sectors. -/
theorem nextNum_negative (hlo : 2 ^ 31 ≤ size.toNat + 0x7ff)
    (hhi : size.toNat + 0x7ff ≤ 2 ^ 32 - 0x800) :
    (nextNum size).toNat = 2 ^ 32 - missing size := by
  have hadd : (size + 0x7ff).toNat = size.toNat + 0x7ff := by
    rw [BitVec.toNat_add, show (0x7ff : BitVec 32).toNat = 0x7ff from rfl]
    omega
  have hint : (size + 0x7ff).toInt = (size.toNat + 0x7ff : Nat) - 2 ^ 32 := by
    rw [BitVec.toInt_eq_toNat_cond, hadd, if_neg (by omega)]
    rfl
  have hdiv : ((size + 0x7ff).sdiv 0x800).toInt = -(missing size : Nat) := by
    rw [Signed.toInt_sdiv_of_nonpos (by decide) (by omega), hint,
      show (0x800 : BitVec 32).toInt = 0x800 from rfl]
    unfold missing
    omega
  have hslt : ¬(64 : BitVec 32).slt ((size + 0x7ff).sdiv 0x800) = true := by
    rw [BitVec.slt_iff_toInt_lt, hdiv, show (64 : BitVec 32).toInt = 64 from rfl]
    omega
  have hlt := ((size + 0x7ff).sdiv 0x800).isLt
  unfold nextNum
  dsimp only
  rw [if_neg hslt]
  rw [BitVec.toInt_eq_toNat_cond] at hdiv
  have hpos := missing_pos hhi
  split at hdiv
  · omega
  · omega

/-- So much is taken off a negative number that nothing is left after the first turn. -/
theorem left_negative (hlo : 2 ^ 31 ≤ size.toNat + 0x7ff)
    (hhi : size.toNat + 0x7ff ≤ 2 ^ 32 - 0x800) :
    (size - nextNum size * 0x800).sle 0 = true := by
  have hnum := nextNum_negative hlo hhi
  have hle := missing_le hlo
  have hleft : (size - nextNum size * 0x800).toNat = size.toNat + 2048 * missing size := by
    rw [BitVec.toNat_sub, BitVec.toNat_mul, hnum, show (0x800 : BitVec 32).toNat = 2048 from rfl]
    unfold missing at hle ⊢
    omega
  rw [BitVec.sle_iff_toInt_le, BitVec.toInt_eq_toNat_cond, hleft,
    show (0 : BitVec 32).toInt = 0 from rfl]
  unfold missing
  split <;> omega

/-- The words that the loop of `atapi_packet` takes then. -/
def overrun (size : BitVec 32) : Nat := 2 ^ 31 - 512 * missing size

theorem readLength_negative (hlo : 2 ^ 31 ≤ size.toNat + 0x7ff)
    (hhi : size.toNat + 0x7ff ≤ 2 ^ 32 - 0x800) :
    0x800 * nextNum size = BitVec.ofNat 32 (4 * overrun size) := by
  have hnum := nextNum_negative hlo hhi
  have hle := missing_le hlo
  apply BitVec.eq_of_toNat_eq
  rw [BitVec.toNat_mul, hnum, BitVec.toNat_ofNat, show (0x800 : BitVec 32).toNat = 2048 from rfl]
  unfold overrun
  omega

theorem half_negative (hlo : 2 ^ 31 ≤ size.toNat + 0x7ff)
    (hhi : size.toNat + 0x7ff ≤ 2 ^ 32 - 0x800) :
    ((BitVec.ofNat 32 (4 * overrun size)).sdiv 2).toNat = 2 * overrun size := by
  have hle := missing_le hlo
  have hpos := missing_pos hhi
  have hint : (BitVec.ofNat 32 (4 * overrun size)).toInt = -(2048 * missing size : Nat) := by
    rw [BitVec.toInt_eq_toNat_cond, BitVec.toNat_ofNat]
    unfold overrun
    split <;> omega
  have hdiv : ((BitVec.ofNat 32 (4 * overrun size)).sdiv 2).toInt
      = -(1024 * missing size : Nat) := by
    rw [Signed.toInt_sdiv_of_nonpos (by decide) (by omega), hint,
      show (2 : BitVec 32).toInt = 2 from rfl]
    omega
  have hlt := ((BitVec.ofNat 32 (4 * overrun size)).sdiv 2).isLt
  rw [BitVec.toInt_eq_toNat_cond] at hdiv
  unfold overrun at hdiv hlt ⊢
  split at hdiv <;> omega

/-- On a drive that plays a disc, more than six gigabytes are stored. -/
theorem load_negative (hlo : 2 ^ 31 ≤ size.toNat + 0x7ff)
    (hhi : size.toNat + 0x7ff ≤ 2 ^ 32 - 0x800) (disc : BitVec 32 → Mem UInt8) (mem : Mem UInt8)
    (lba : BitVec 32) :
    ∃ b, iso9660LoadFile (player disc) mem loaderRaw lba size ⟨⟨[], 0, false⟩, []⟩
      = Part.some ((size, mem.store loaderRaw.toNat (4 * overrun size) (extent disc lba)), b) := by
  have hroom : loaderRaw.toNat + 4 * overrun size ≤ 2 ^ 64 := by
    rw [show loaderRaw.toNat = 0x8000000004000000 from rfl]
    unfold overrun
    omega
  have hreads := @player_reads disc ⟨[], 0, false⟩ lba (nextNum size) (overrun size) rfl
  have hrun := @Delivers.readSector _ _ _ _ [] _ _ _ 9 _ _ mem (readLength_negative hlo hhi)
    (half_negative hlo hhi) hroom hreads
  exact ⟨_, loadLoop_last hrun (left_negative hlo hhi)⟩

end Negative

/-- A size that rounds to no sectors at all. -/
theorem nextNum_zero {size : BitVec 32} (h : 2 ^ 32 - 0xffe ≤ size.toNat) : nextNum size = 0 := by
  have hlt := size.isLt
  have hadd : (size + 0x7ff).toNat = (size.toNat + 0x7ff) % 2 ^ 32 := BitVec.toNat_add _ _
  have hdiv : ((size + 0x7ff).sdiv 0x800).toInt = 0 := by
    have hint := BitVec.toInt_eq_toNat_cond (size + 0x7ff)
    rw [hadd] at hint
    rcases le_total 0 (size + 0x7ff).toInt with hx | hx
    · rw [Signed.toInt_sdiv_of_nonneg (by decide) hx,
        show (0x800 : BitVec 32).toInt = 0x800 from rfl]
      split at hint <;> omega
    · rw [Signed.toInt_sdiv_of_nonpos (by decide) hx,
        show (0x800 : BitVec 32).toInt = 0x800 from rfl]
      split at hint <;> omega
  have hzero : (size + 0x7ff).sdiv 0x800 = 0 := BitVec.toInt_inj.mp hdiv
  unfold nextNum
  rw [hzero]
  rfl

/-! ### The window -/

/-- What is asked of a directory record with this size: on every drive that keeps answering, in
every state, for every first sector, the file is loaded to the window or not at all, and not at
all if it does not fit. -/
def KeepsWindow (size : BitVec 32) : Prop :=
  ∀ (σ : Type) (d : Ide σ), Responsive d → ∀ (b : Bus σ) (mem : Mem UInt8) (lba : BitVec 32),
    Run.Ends (iso9660LoadFile d mem loaderRaw lba size) b fun q _ =>
      mem.SameOutside q.2 loaderRaw.toNat loaderMaxsize ∧
        (loaderMaxsize < size.toNat → q.1.slt 0 = true)

theorem keepsWindow_small {size : BitVec 32} (h : size.toNat ≤ loaderMaxsize) :
    KeepsWindow size := by
  intro σ d hd b mem lba
  obtain ⟨s, hs, rfl⟩ : ∃ s ≤ loaderMaxsize, size = BitVec.ofNat 32 s :=
    ⟨size.toNat, h, by simp⟩
  unfold loaderMaxsize at hs
  have hraw : loaderRaw.toNat = 0x8000000004000000 := rfl
  have hsectors : 2048 * sectors s ≤ loaderMaxsize := by
    unfold sectors loaderMaxsize
    omega
  refine (loadLoop_ends hd _ s mem loaderRaw lba b (by omega) ?_).mono fun q _ hq => ?_
  · unfold loaderMaxsize at hsectors
    omega
  · exact ⟨hq.1.mono le_rfl (by omega), fun hlarge => absurd h (by omega)⟩

/-- The file is refused: it has no sectors, and its size is returned and is negative. -/
theorem keepsWindow_refused {size : BitVec 32} (h : 2 ^ 32 - 0xffe ≤ size.toNat) :
    KeepsWindow size := by
  intro σ d hd b mem lba
  have hnum := nextNum_zero h
  have hneg : size.toInt < 0 := by
    have hlt := size.isLt
    rw [BitVec.toInt_eq_toNat_cond, if_neg (by omega)]
    omega
  have hleft : (size - nextNum size * 0x800).sle 0 = true := by
    rw [hnum, show size - 0 * 0x800 = size by simp, BitVec.sle_iff_toInt_le]
    exact hneg.le
  obtain ⟨⟨r, mem'⟩, b', hrun, hsame⟩ := @readSector_ends _ d hd 0 (by omega) loaderRaw
    (by decide) lba 10 mem b
  rw [show BitVec.ofNat 32 0 = nextNum size from hnum.symm] at hrun
  have hsame' : mem.SameOutside mem' loaderRaw.toNat loaderMaxsize :=
    hsame.mono le_rfl (by omega)
  by_cases hr : r = 0
  · subst hr
    exact ⟨_, _, loadLoop_last hrun hleft, hsame', fun _ => BitVec.slt_iff_toInt_lt.mpr hneg⟩
  · exact ⟨_, _, loadLoop_failed hrun hr, hsame', fun _ => rfl⟩

theorem player_responsive (disc : BitVec 32 → Mem UInt8) : Responsive (player disc) := by
  intro t
  refine ⟨0, ?_⟩
  show ((player disc).in8 atapiStatus t).1 &&& 0xC0 = 0x40
  cases h : t.refuses with
  | false => rw [player_ready h]; rfl
  | true => rw [player_error h]; rfl

/-- A file that does not fit is loaded. -/
theorem not_keepsWindow_large {size : BitVec 32} (hlo : loaderMaxsize < size.toNat)
    (hhi : size.toNat + 0x7ff < 2 ^ 31) : ¬KeepsWindow size := by
  intro h
  obtain ⟨q, b, hrun, _, hrefused⟩ := h Player (player striped) (player_responsive striped)
    ⟨⟨[], 0, false⟩, []⟩ (fun _ => 0) 0
  have hroom : loaderRaw.toNat + 2048 * sectors size.toNat ≤ 2 ^ 64 := by
    rw [show loaderRaw.toNat = 0x8000000004000000 from rfl]
    unfold sectors
    omega
  obtain ⟨t', plan, reads, hload, _⟩ := @loadLoop_serves _ _ _ _ (player_serves striped) size
    size.toNat ⟨[], 0, false⟩ (fun _ => 0) loaderRaw 0 [] hhi trivial hroom
  rw [BitVec.ofNat_toNat, BitVec.setWidth_eq] at hload
  obtain rfl : q = (size, _) := congrArg Prod.fst (Part.some_inj.mp (hrun.symm.trans hload))
  have hneg : size.toInt < 0 := BitVec.slt_iff_toInt_lt.mp (hrefused hlo)
  rw [BitVec.toInt_eq_toNat_cond, if_pos (by omega)] at hneg
  omega

/-- What lies behind the window is overwritten. -/
theorem not_keepsWindow_negative {size : BitVec 32} (hlo : 2 ^ 31 ≤ size.toNat + 0x7ff)
    (hhi : size.toNat + 0x7ff ≤ 2 ^ 32 - 0x800) : ¬KeepsWindow size := by
  intro h
  obtain ⟨q, b, hrun, hsame, _⟩ := h Player (player fun _ _ => 1) (player_responsive _)
    ⟨⟨[], 0, false⟩, []⟩ (fun _ => 0) 0
  obtain ⟨b', hload⟩ := load_negative hlo hhi (fun _ _ => 1) (fun _ => 0) 0
  obtain rfl : q = (size, _) := congrArg Prod.fst (Part.some_inj.mp (hrun.symm.trans hload))
  have hle := missing_le hlo
  have hbehind := hsame (loaderRaw.toNat + loaderMaxsize) (.inr le_rfl)
  have hstored := Mem.store_at (fun _ => 0) loaderRaw.toNat
    (extent (fun _ _ => (1 : UInt8)) 0) (show loaderMaxsize < 4 * overrun size by
      unfold overrun loaderMaxsize
      omega)
  exact absurd (hstored.symm.trans hbehind) (by decide)

/--
**Which sizes keep to the window.**  A file is loaded inside the window, or refused if it is
larger, exactly if the size in its directory record is at most `LOADER_MAXSIZE`, or is so little
below `2 ^ 32` that it rounds to no sectors.
-/
theorem keepsWindow_iff (size : BitVec 32) :
    KeepsWindow size ↔ size.toNat ≤ loaderMaxsize ∨ 2 ^ 32 - 0xffe ≤ size.toNat := by
  constructor
  · intro h
    by_contra hcond
    by_cases hint : size.toNat + 0x7ff < 2 ^ 31
    · exact not_keepsWindow_large (by omega) hint h
    · exact not_keepsWindow_negative (by omega) (by omega) h
  · rintro (h | h)
    · exact keepsWindow_small h
    · exact keepsWindow_refused h

/-- A file of one byte more than fits is not refused, and a byte behind the window is stored. -/
theorem large_file_loaded :
    ¬KeepsWindow 0x1000001 ∧ ∃ b mem,
      iso9660LoadFile (player fun _ _ => 1) (fun _ => 0) loaderRaw 20 0x1000001
        ⟨⟨[], 0, false⟩, []⟩ = Part.some ((0x1000001, mem), b) ∧
      mem (loaderRaw.toNat + loaderMaxsize) = 1 := by
  refine ⟨not_keepsWindow_large (by decide) (by decide), ?_⟩
  obtain ⟨t', plan, reads, hload, _⟩ := @loadLoop_serves _ _ _ _ (player_serves fun _ _ => 1)
    0x1000001 0x1000001 ⟨[], 0, false⟩ (fun _ => 0) loaderRaw 20 [] (by decide) trivial (by decide)
  exact ⟨_, _, hload, Mem.store_at _ _ _ (by decide)⟩

end Xell.Cdrom
