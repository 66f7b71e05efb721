/-
What `read` reports when the device fails.

A device read either transfers everything or nothing usable, and then returns zero or
a negative value.  The two paths of `read` misjudge that in different ways.

  * The aligned path compares the returned `int` with an unsigned sector count, so a
    negative value passes as success; and it returns a zero as it stands, which its
    caller takes for success too.
  * The path through `raw_buf` takes only negative values for failures.

So the one failure that is reported is a negative answer to a request for `raw_buf`.
`requests` lists the device requests a read makes as long as it goes on, and
`read_true_iff` says exactly which answers to them keep a read from reporting success
without the data.
-/
import Xell.Proofs.Fat.Extent

namespace Xell.Fat

def Answer.Negative : Answer → Prop
  | .full => False
  | .failed ret _ => ret < 0

def Answer.Zero : Answer → Prop
  | .full => False
  | .failed ret _ => ret = 0

/-- Some request for `raw_buf` is answered by a negative value, and no earlier request
for the destination by a zero. -/
def Aborts (dev : Bdev) (k : Nat) (rs : List Target) : Prop :=
  ∃ j, rs[j]? = some .rawBuf ∧ (dev.answer (k + j) .rawBuf).Negative ∧
    ∀ i < j, rs[i]? = some .dest → ¬ (dev.answer (k + i) .dest).Zero

/-- The volume, with other leftovers of failed transfers. -/
def Volume.withJunk (v : Volume) (junk : Nat → Mem UInt8) : Volume :=
  { v with dev := { v.dev with junk := junk } }

/-! ### Requests, one at a time -/

theorem not_aborts_nil (dev : Bdev) (k : Nat) : ¬ Aborts dev k [] := by
  rintro ⟨j, hj, -⟩
  simp at hj

theorem aborts_dest {dev : Bdev} {k : Nat} {rs : List Target} :
    Aborts dev k (.dest :: rs) ↔ ¬ (dev.answer k .dest).Zero ∧ Aborts dev (k + 1) rs := by
  constructor
  · rintro ⟨j, hj, hneg, hz⟩
    cases j with
    | zero => simp at hj
    | succ j =>
        refine ⟨hz 0 (Nat.succ_pos j) rfl, j, hj, ?_, fun i hi hr => ?_⟩
        · rwa [Nat.add_right_comm, Nat.add_assoc]
        · rw [Nat.add_right_comm, Nat.add_assoc]
          exact hz (i + 1) (by omega) hr
  · rintro ⟨h0, j, hj, hneg, hz⟩
    refine ⟨j + 1, hj, ?_, fun i hi hr => ?_⟩
    · rwa [← Nat.add_assoc, Nat.add_right_comm]
    · cases i with
      | zero => exact h0
      | succ i =>
          rw [← Nat.add_assoc, Nat.add_right_comm]
          exact hz i (by omega) hr

theorem aborts_rawBuf {dev : Bdev} {k : Nat} {rs : List Target} :
    Aborts dev k (.rawBuf :: rs)
      ↔ (dev.answer k .rawBuf).Negative ∨ Aborts dev (k + 1) rs := by
  constructor
  · rintro ⟨j, hj, hneg, hz⟩
    cases j with
    | zero => exact Or.inl hneg
    | succ j =>
        refine Or.inr ⟨j, hj, ?_, fun i hi hr => ?_⟩
        · rwa [Nat.add_right_comm, Nat.add_assoc]
        · rw [Nat.add_right_comm, Nat.add_assoc]
          exact hz (i + 1) (by omega) hr
  · rintro (h0 | ⟨j, hj, hneg, hz⟩)
    · exact ⟨0, rfl, h0, fun i hi => absurd hi (Nat.not_lt_zero i)⟩
    · refine ⟨j + 1, hj, ?_, fun i hi hr => ?_⟩
      · rwa [← Nat.add_assoc, Nat.add_right_comm]
      · cases i with
        | zero => simp at hr
        | succ i =>
            rw [← Nat.add_assoc, Nat.add_right_comm]
            exact hz i (by omega) hr

/-! ### What one piece does with its answer -/

/-- The aligned path stops at a zero and at nothing else. -/
theorem direct_stops_iff {dev : Bdev} {k lba n : Nat} (hpos : 0 < n) (hn : n ≤ 8) :
    u32OfInt (dev.read k .dest lba n).1 < n ↔ (dev.answer k .dest).Zero := by
  unfold Bdev.read
  cases h : dev.answer k .dest with
  | full =>
      simp only [Answer.Zero, iff_false, Nat.not_lt]
      rw [u32OfInt_natCast (by omega)]
  | failed ret range =>
      simp only [Answer.Zero, u32OfInt]
      omega

theorem direct_ret_of_zero {dev : Bdev} {k lba n : Nat} (h : (dev.answer k .dest).Zero) :
    (dev.read k .dest lba n).1 = 0 := by
  unfold Bdev.read
  cases ha : dev.answer k .dest with
  | full => rw [ha] at h; exact h.elim
  | failed ret range => rw [ha] at h; exact h

/-- The path through `raw_buf` stops at a negative value and at nothing else. -/
theorem rawRead_stops_iff {v : Volume} {sector : Nat} {c : Cache} (hmiss : c.current ≠ sector) :
    (rawRead v sector c).1 ≠ 0 ↔ (v.dev.answer c.calls .rawBuf).Negative := by
  rw [rawRead_miss hmiss]
  unfold Bdev.read
  cases h : v.dev.answer c.calls .rawBuf with
  | full => simp [Answer.Negative]
  | failed ret range =>
      simp only [Answer.Negative]
      split <;> simp_all

/-! ### When a read stops -/

/-- A read returns something other than zero exactly when a request aborts it. -/
theorem readLoop_err_iff (v : Volume) :
    ∀ (fuel data offset len : Nat) (m : Mem UInt8) (c : Cache), len ≤ fuel →
      offset + len ≤ 0x200 * (2 ^ 32 - 1) →
      ((readLoop v fuel data offset len m c).err ≠ 0
        ↔ Aborts v.dev c.calls (requestsLoop v fuel data offset len c.current)) := by
  intro fuel
  induction fuel with
  | zero =>
      intro data offset len m c _ _
      exact ⟨fun h => absurd rfl h, fun h => absurd h (not_aborts_nil _ _)⟩
  | succ fuel ih =>
      intro data offset len m c hfuel hoff
      by_cases hlen : len = 0
      · subst hlen
        rw [readLoop_zero, requestsLoop, if_pos rfl]
        exact ⟨fun h => absurd rfl h, fun h => absurd h (not_aborts_nil _ _)⟩
      by_cases ha : aligned v data offset len
      · have hpos := directLen_pos ha.2.2
        have hle := directLen_le len
        have hcount : 0 < directLen len / 0x200 ∧ directLen len / 0x200 ≤ 8 := by
          have := ha.2.2
          rw [directLen_div]
          omega
        rw [readLoop_direct_inRange fuel m c ha hoff, requestsLoop, if_neg hlen, if_pos ha,
          aborts_dest]
        by_cases hz : (v.dev.answer c.calls .dest).Zero
        · rw [if_pos ((direct_stops_iff hcount.1 hcount.2).mpr hz)]
          exact ⟨fun h => absurd (direct_ret_of_zero hz) h, fun h => absurd hz h.1⟩
        · rw [if_neg (fun h => hz ((direct_stops_iff hcount.1 hcount.2).mp h))]
          rw [ih (data + directLen len) (offset + directLen len) (len - directLen len) _
            { c with calls := c.calls + 1 } (by omega) (by omega)]
          exact ⟨fun h => ⟨hz, h⟩, fun h => h.2⟩
      · have hpos := cachedLen_pos offset hlen
        have hle := cachedLen_le offset len
        rw [readLoop_cached_inRange fuel m c hlen ha hoff, requestsLoop, if_neg hlen, if_neg ha]
        by_cases hhit : c.current = offset / 0x200
        · rw [rawRead_hit hhit, if_neg (by simp), if_pos hhit]
          exact ih _ _ _ _ c (by omega) (by omega)
        · rw [if_neg hhit, aborts_rawBuf]
          by_cases hneg : (v.dev.answer c.calls .rawBuf).Negative
          · have hstop := (rawRead_stops_iff hhit).mpr hneg
            rw [if_pos hstop]
            exact ⟨fun _ => Or.inl hneg, fun _ => hstop⟩
          · rw [if_neg (fun h => hneg ((rawRead_stops_iff hhit).mp h))]
            rw [ih _ _ _ _ _ (by omega) (by omega), rawRead_miss hhit]
            exact ⟨Or.inr, fun h => h.resolve_left hneg⟩

/-! ### A failure that passes as success leaves its mark -/

theorem Bdev.read_junk {v : Volume} {b : UInt8} {k : Nat} {t : Target}
    (h : v.dev.answer k t ≠ .full) (lba num i : Nat) :
    ((v.withJunk fun _ _ => b).dev.read k t lba num).2 i = b := by
  unfold Bdev.read
  cases ha : v.dev.answer k t with
  | full => exact absurd ha h
  | failed ret range =>
      have ha' : (v.withJunk fun _ _ => b).dev.answer k t = .failed ret range := ha
      rw [ha']
      rfl

/-- Whatever the leftovers are, the loop puts them into some byte of the destination. -/
def Leftover (v : Volume) (fuel data offset len : Nat) (c : Cache) : Prop :=
  ∃ p < len, ∀ (b : UInt8) (m : Mem UInt8) (rawBuf : Mem UInt8),
    (readLoop (v.withJunk fun _ _ => b) fuel data offset len m
      { c with rawBuf := rawBuf }).mem (data + p) = b

section Leftover

variable {v : Volume} {fuel data offset len : Nat} {c : Cache}

/-- A direct piece that was not answered in full. -/
theorem leftover_direct (ha : aligned v data offset len)
    (hoff : offset + len ≤ 0x200 * (2 ^ 32 - 1)) (hans : v.dev.answer c.calls .dest ≠ .full) :
    Leftover v (fuel + 1) data offset len c := by
  have hle := directLen_le len
  have hpos := directLen_pos ha.2.2
  refine ⟨0, by omega, fun b m rawBuf => ?_⟩
  rw [readLoop_direct_inRange (v := v.withJunk fun _ _ => b) fuel m _ ha hoff]
  have hmark : m.store data (directLen len) ((v.withJunk fun _ _ => b).dev.read c.calls
      .dest (offset / 0x200) (directLen len / 0x200)).2 (data + 0) = b := by
    rw [Mem.store_at _ _ _ hpos, Bdev.read_junk hans]
  split
  · exact hmark
  · rw [readLoop_below _ _ _ _ _ _ _ _ (by omega)]
    exact hmark

/-- A direct piece that is right: the mark is in a later one. -/
theorem Leftover.after_direct (ha : aligned v data offset len)
    (hoff : offset + len ≤ 0x200 * (2 ^ 32 - 1)) (hans : v.dev.answer c.calls .dest = .full)
    (h : Leftover v fuel (data + directLen len) (offset + directLen len) (len - directLen len)
      { c with calls := c.calls + 1 }) : Leftover v (fuel + 1) data offset len c := by
  obtain ⟨p, hp, hmark⟩ := h
  refine ⟨directLen len + p, by omega, fun b m rawBuf => ?_⟩
  have hans' : (v.withJunk fun _ _ => b).dev.answer c.calls .dest = .full := hans
  rw [readLoop_direct_full (v := v.withJunk fun _ _ => b) fuel m { c with rawBuf := rawBuf } ha
    hoff hans', ← Nat.add_assoc]
  exact hmark b _ rawBuf

/-- A piece from the sector that is in the buffer. -/
theorem Leftover.after_hit (hlen : len ≠ 0) (ha : ¬aligned v data offset len)
    (hoff : offset + len ≤ 0x200 * (2 ^ 32 - 1)) (hhit : c.current = offset / 0x200)
    (h : Leftover v fuel (data + cachedLen offset len) (offset + cachedLen offset len)
      (len - cachedLen offset len) c) : Leftover v (fuel + 1) data offset len c := by
  obtain ⟨p, hp, hmark⟩ := h
  refine ⟨cachedLen offset len + p, by omega, fun b m rawBuf => ?_⟩
  rw [readLoop_cached_inRange (v := v.withJunk fun _ _ => b) fuel m _ hlen ha hoff,
    rawRead_hit (v := v.withJunk fun _ _ => b) (c := { c with rawBuf := rawBuf }) hhit,
    if_neg (by simp), ← Nat.add_assoc]
  exact hmark b _ rawBuf

/-- A request that fills the buffer and does not stop the loop, whatever the leftovers are. -/
theorem rawRead_goes_on (hmiss : ¬c.current = offset / 0x200)
    (hneg : ¬(v.dev.answer c.calls .rawBuf).Negative) (b : UInt8) (rawBuf : Mem UInt8) :
    ¬(rawRead (v.withJunk fun _ _ => b) (offset / 0x200) { c with rawBuf := rawBuf }).1 ≠ 0 :=
  fun h => hneg ((rawRead_stops_iff (v := v.withJunk fun _ _ => b)
    (c := { c with rawBuf := rawBuf }) hmiss).mp h)

theorem leftover_miss (hlen : len ≠ 0) (ha : ¬aligned v data offset len)
    (hoff : offset + len ≤ 0x200 * (2 ^ 32 - 1)) (hmiss : ¬c.current = offset / 0x200)
    (hneg : ¬(v.dev.answer c.calls .rawBuf).Negative)
    (hans : v.dev.answer c.calls .rawBuf ≠ .full) :
    Leftover v (fuel + 1) data offset len c := by
  have hle := cachedLen_le offset len
  have hpos := cachedLen_pos offset hlen
  refine ⟨0, by omega, fun b m rawBuf => ?_⟩
  rw [readLoop_cached_inRange (v := v.withJunk fun _ _ => b) fuel m _ hlen ha hoff,
    if_neg (rawRead_goes_on hmiss hneg b rawBuf), readLoop_below _ _ _ _ _ _ _ _ (by omega),
    Mem.store_at _ _ _ hpos, rawRead_miss (v := v.withJunk fun _ _ => b)
      (c := { c with rawBuf := rawBuf }) hmiss]
  exact Bdev.read_junk hans _ _ _

theorem Leftover.after_miss (hlen : len ≠ 0) (ha : ¬aligned v data offset len)
    (hoff : offset + len ≤ 0x200 * (2 ^ 32 - 1)) (hmiss : ¬c.current = offset / 0x200)
    (hneg : ¬(v.dev.answer c.calls .rawBuf).Negative)
    (h : Leftover v fuel (data + cachedLen offset len) (offset + cachedLen offset len)
      (len - cachedLen offset len) { c with current := offset / 0x200, calls := c.calls + 1 }) :
    Leftover v (fuel + 1) data offset len c := by
  obtain ⟨p, hp, hmark⟩ := h
  refine ⟨cachedLen offset len + p, by omega, fun b m rawBuf => ?_⟩
  rw [readLoop_cached_inRange (v := v.withJunk fun _ _ => b) fuel m _ hlen ha hoff,
    if_neg (rawRead_goes_on hmiss hneg b rawBuf), rawRead_miss (v := v.withJunk fun _ _ => b)
      (c := { c with rawBuf := rawBuf }) hmiss, ← Nat.add_assoc]
  exact hmark b _ _

end Leftover

/--
A read that nothing stops, though some request was not answered in full, has put the
leftovers of that request somewhere into the destination.
-/
theorem readLoop_leftover (v : Volume) :
    ∀ (fuel data offset len : Nat) (c : Cache), len ≤ fuel →
      offset + len ≤ 0x200 * (2 ^ 32 - 1) →
      ¬ AllFull v.dev c.calls (requestsLoop v fuel data offset len c.current) →
      ¬ Aborts v.dev c.calls (requestsLoop v fuel data offset len c.current) →
      Leftover v fuel data offset len c := by
  intro fuel
  induction fuel with
  | zero => intro data offset len c _ _ hfull _; exact absurd (allFull_nil _ _) hfull
  | succ fuel ih =>
      intro data offset len c hfuel hoff hfull habort
      rw [requestsLoop] at hfull habort
      by_cases hlen : len = 0
      · rw [if_pos hlen] at hfull
        exact absurd (allFull_nil _ _) hfull
      rw [if_neg hlen] at hfull habort
      by_cases ha : aligned v data offset len
      · have hle := directLen_le len
        have hpos := directLen_pos ha.2.2
        rw [if_pos ha, allFull_cons] at hfull
        rw [if_pos ha, aborts_dest] at habort
        by_cases hans : v.dev.answer c.calls .dest = .full
        · refine .after_direct ha hoff hans (ih _ _ _ _ (by omega) (by omega) ?_ ?_)
          · exact fun h => hfull ⟨hans, h⟩
          · exact fun h => habort ⟨by rw [hans]; exact fun hz => hz, h⟩
        · exact leftover_direct ha hoff hans
      · have hle := cachedLen_le offset len
        have hpos := cachedLen_pos offset hlen
        rw [if_neg ha] at hfull habort
        by_cases hhit : c.current = offset / 0x200
        · rw [if_pos hhit] at hfull habort
          exact .after_hit hlen ha hoff hhit (ih _ _ _ c (by omega) (by omega) hfull habort)
        · rw [if_neg hhit, allFull_cons] at hfull
          rw [if_neg hhit, aborts_rawBuf] at habort
          have hneg : ¬(v.dev.answer c.calls .rawBuf).Negative := fun h => habort (Or.inl h)
          by_cases hans : v.dev.answer c.calls .rawBuf = .full
          · refine .after_miss hlen ha hoff hhit hneg (ih _ _ _ _ (by omega) (by omega) ?_ ?_)
            · exact fun h => hfull ⟨hans, h⟩
            · exact fun h => habort (Or.inr h)
          · exact leftover_miss hlen ha hoff hhit hneg hans

/-! ### When success means the data -/

/-- Whatever a failed transfer leaves behind and whatever was in the destination: if `read`
returns zero, the destination holds the bytes of the partition. -/
def ReadTrue (v : Volume) (data offset len : Nat) (c : Cache) : Prop :=
  ∀ (junk : Nat → Mem UInt8) (m : Mem UInt8),
    (read (v.withJunk junk) data offset len m c).err = 0 →
      ∀ i < len, (read (v.withJunk junk) data offset len m c).mem (data + i)
        = v.byte (offset + i)

theorem requestsLoop_withJunk (v : Volume) (junk : Nat → Mem UInt8) :
    ∀ (fuel data offset len current : Nat), requestsLoop (v.withJunk junk) fuel data offset len
      current = requestsLoop v fuel data offset len current := by
  intro fuel
  induction fuel with
  | zero => intro data offset len current; rfl
  | succ fuel ih =>
      intro data offset len current
      rw [requestsLoop, requestsLoop]
      simp only [ih]
      rfl

/--
**When a read that reports success has the data**: exactly when all its requests are answered
in full, or it stops at a negative answer to a request for `raw_buf`.
-/
theorem read_true_iff {v : Volume} {data offset len : Nat} {c : Cache}
    (hr : v.InRange offset len) (hc : Coherent v.dev c) :
    ReadTrue v data offset len c
      ↔ AllFull v.dev c.calls (requests v data offset len c.current) ∨
        Aborts v.dev c.calls (requests v data offset len c.current) := by
  have hu64 : u64 (offset + v.partitionStartOffset) = offset + v.partitionStartOffset := by
    unfold Volume.InRange at hr
    unfold u64
    omega
  have hread : ∀ junk m, read (v.withJunk junk) data offset len m c
      = readLoop (v.withJunk junk) len data (offset + v.partitionStartOffset) len m c := by
    intro junk m
    unfold read
    rw [show (v.withJunk junk).partitionStartOffset = v.partitionStartOffset from rfl, hu64]
  unfold ReadTrue requests
  constructor
  · intro htrue
    by_contra hno
    push Not at hno
    obtain ⟨p, hp, hmark⟩ := readLoop_leftover v len data (offset + v.partitionStartOffset) len c
      (Nat.le_refl _) hr hno.1 hno.2
    -- leftovers that differ from the byte that belongs there
    have hzero : (read (v.withJunk fun _ _ => v.byte (offset + p) + 1) data offset len
        (fun _ => 0) c).err = 0 := by
      rw [hread]
      by_contra hne
      have := (readLoop_err_iff (v.withJunk fun _ _ => v.byte (offset + p) + 1) len data _ len
        (fun _ => 0) c (Nat.le_refl _) hr).mp hne
      rw [requestsLoop_withJunk] at this
      exact hno.2 this
    have hbyte := htrue _ _ hzero p hp
    rw [hread, hmark (v.byte (offset + p) + 1) (fun _ => 0) c.rawBuf] at hbyte
    have := congrArg UInt8.toNat hbyte
    rw [UInt8.toNat_add] at this
    have h1 : (1 : UInt8).toNat = 1 := rfl
    have hlt := (v.byte (offset + p)).toNat_lt
    omega
  · rintro (hfull | habort) junk m herr i hi
    · obtain ⟨-, hmem, -⟩ := readLoop_allFull (v.withJunk junk) len data
        (offset + v.partitionStartOffset) len m c (Nat.le_refl _) hr hc
        (by rw [requestsLoop_withJunk]; exact hfull)
      rw [hread, hmem, Mem.store_at _ _ _ hi]
      show v.dev.disk _ = v.byte _
      unfold Volume.byte
      congr 1
      omega
    · rw [hread] at herr
      exact absurd herr ((readLoop_err_iff (v.withJunk junk) len data _ len m c (Nat.le_refl _)
        hr).mpr (by rw [requestsLoop_withJunk]; exact habort))

end Xell.Fat
