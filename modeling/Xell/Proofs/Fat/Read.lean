/-
What `read` delivers when the device does.

`read` cuts a byte range into pieces, and each piece is served either by a device
request of up to eight sectors straight into the destination or by a copy out of
the cached sector.  The two facts proved here are the ones every layer above uses:
when all the requests made are answered in full, the destination receives exactly
the bytes of the disk, and the cache is left coherent.

Requests are numbered by the device's call counter, so "all requests made" is an
interval of call numbers, `Full`.  It splits wherever the computation does, because
the counter never goes back.  For a single read the requests can also be listed before
it is run, by `requests`, since which of them come next does not depend on the data.
-/
import Xell.Fat

namespace Xell.Fat

/-- Every request from call `lo` on and before call `hi` is answered in full. -/
def Full (dev : Bdev) (lo hi : Nat) : Prop :=
  ∀ k, lo ≤ k → k < hi → ∀ t, dev.answer k t = .full

theorem Full.mono {dev : Bdev} {lo hi lo' hi' : Nat} (h : Full dev lo hi) (hlo : lo ≤ lo')
    (hhi : hi' ≤ hi) : Full dev lo' hi' :=
  fun k hk hk' => h k (Nat.le_trans hlo hk) (Nat.lt_of_lt_of_le hk' hhi)

/--
The cached sector holds what the disk holds.  `current` is `-1` until the first
request, and that value stands for no sector.
-/
def Coherent (dev : Bdev) (c : Cache) : Prop :=
  c.current < 2 ^ 32 - 1 → ∀ i < 0x200, c.rawBuf i = dev.disk (0x200 * c.current + i)

theorem Bdev.read_full {dev : Bdev} {k : Nat} {t : Target} (h : dev.answer k t = .full)
    (lba num : Nat) : dev.read k t lba num = ((num : Int), fun i => dev.disk (0x200 * lba + i)) := by
  simp [Bdev.read, h]

theorem u32OfInt_natCast {n : Nat} (h : n < 2 ^ 32) : u32OfInt (n : Int) = n := by
  unfold u32OfInt
  omega

/-! ### One piece -/

theorem directLen_pos {len : Nat} (h : 0x200 ≤ len) : 0 < directLen len := by
  unfold directLen
  omega

theorem directLen_le (len : Nat) : directLen len ≤ len := by
  unfold directLen
  omega

theorem directLen_div (len : Nat) : directLen len / 0x200 = min (len / 0x200) 8 := by
  unfold directLen
  omega

theorem cachedLen_pos {len : Nat} (offset : Nat) (h : len ≠ 0) : 0 < cachedLen offset len := by
  unfold cachedLen
  omega

theorem cachedLen_le (offset len : Nat) : cachedLen offset len ≤ len := by
  unfold cachedLen
  omega

theorem cachedLen_sector (offset len : Nat) :
    offset % 0x200 + cachedLen offset len ≤ 0x200 := by
  unfold cachedLen
  omega

theorem rawRead_calls_le (v : Volume) (sector : Nat) (c : Cache) :
    c.calls ≤ (rawRead v sector c).2.calls := by
  unfold rawRead
  split
  · exact Nat.le_refl _
  · exact Nat.le_succ _

/-- A sector that is not cached is asked for in one request. -/
theorem rawRead_miss {v : Volume} {sector : Nat} {c : Cache} (h : c.current ≠ sector) :
    rawRead v sector c = (if (v.dev.read c.calls .rawBuf sector 1).1 < 0 then 1 else 0,
      { rawBuf := (v.dev.read c.calls .rawBuf sector 1).2
        current := sector
        calls := c.calls + 1 }) := by
  unfold rawRead
  rw [if_neg h]

theorem rawRead_hit {v : Volume} {sector : Nat} {c : Cache} (h : c.current = sector) :
    rawRead v sector c = (0, c) := by
  unfold rawRead
  rw [if_pos h]

/-- A request answered in full leaves the sector asked for in the cache. -/
theorem rawRead_full {v : Volume} {sector : Nat} {c : Cache} (hc : Coherent v.dev c)
    (hs : sector < 2 ^ 32 - 1)
    (hans : c.current ≠ sector → v.dev.answer c.calls .rawBuf = .full) :
    (rawRead v sector c).1 = 0 ∧ (rawRead v sector c).2.current = sector ∧
      ∀ i < 0x200, (rawRead v sector c).2.rawBuf i = v.dev.disk (0x200 * sector + i) := by
  by_cases hcur : c.current = sector
  · rw [rawRead_hit hcur]
    subst hcur
    exact ⟨rfl, rfl, hc hs⟩
  · rw [rawRead_miss hcur, Bdev.read_full (hans hcur)]
    exact ⟨by simp, rfl, fun i _ => rfl⟩

/-! ### The loop, one iteration at a time -/

theorem readLoop_zero (v : Volume) (fuel data offset : Nat) (m : Mem UInt8) (c : Cache) :
    readLoop v fuel data offset 0 m c = ⟨0, m, c⟩ := by
  cases fuel with
  | zero => rfl
  | succ fuel => rw [readLoop, if_pos rfl]

theorem readLoop_direct {v : Volume} {data offset len : Nat} (fuel : Nat) (m : Mem UInt8)
    (c : Cache) (ha : aligned v data offset len) :
    readLoop v (fuel + 1) data offset len m c =
      (let r := v.dev.read c.calls .dest (offset / 0x200) (directLen len / 0x200)
       let m' := m.store data (directLen len) r.2
       let c' := { c with calls := c.calls + 1 }
       if u32OfInt r.1 < directLen len / 0x200 then ⟨r.1, m', c'⟩
       else readLoop v fuel (data + directLen len) (u64 (offset + directLen len))
         (len - directLen len) m' c') := by
  have hlen : len ≠ 0 := by
    have := ha.2.2
    omega
  rw [readLoop, if_neg hlen, if_pos ha]

theorem readLoop_cached {v : Volume} {data offset len : Nat} (fuel : Nat) (m : Mem UInt8)
    (c : Cache) (hlen : len ≠ 0) (ha : ¬ aligned v data offset len) :
    readLoop v (fuel + 1) data offset len m c =
      (let n := cachedLen offset len
       let r := rawRead v (u32 (offset / 0x200)) c
       if r.1 ≠ 0 then ⟨r.1, m, r.2⟩
       else readLoop v fuel (data + n) (u64 (offset + n)) (len - n)
         (m.store data n fun i => r.2.rawBuf (offset % 0x200 + i)) r.2) := by
  rw [readLoop, if_neg hlen, if_neg ha]

/-- In range, nothing wraps. -/
theorem readLoop_direct_inRange {v : Volume} {data offset len : Nat} (fuel : Nat) (m : Mem UInt8)
    (c : Cache) (ha : aligned v data offset len) (hoff : offset + len ≤ 0x200 * (2 ^ 32 - 1)) :
    readLoop v (fuel + 1) data offset len m c =
      if u32OfInt (v.dev.read c.calls .dest (offset / 0x200) (directLen len / 0x200)).1
          < directLen len / 0x200 then
        ⟨(v.dev.read c.calls .dest (offset / 0x200) (directLen len / 0x200)).1,
          m.store data (directLen len)
            (v.dev.read c.calls .dest (offset / 0x200) (directLen len / 0x200)).2,
          { c with calls := c.calls + 1 }⟩
      else readLoop v fuel (data + directLen len) (offset + directLen len) (len - directLen len)
        (m.store data (directLen len)
          (v.dev.read c.calls .dest (offset / 0x200) (directLen len / 0x200)).2)
        { c with calls := c.calls + 1 } := by
  have hu64 : u64 (offset + directLen len) = offset + directLen len := by
    have := directLen_le len
    unfold u64
    omega
  rw [readLoop_direct fuel m c ha]
  dsimp only
  rw [hu64]

/-- A request for whole sectors that is answered in full puts the disk in place. -/
theorem readLoop_direct_full {v : Volume} {data offset len : Nat} (fuel : Nat) (m : Mem UInt8)
    (c : Cache) (ha : aligned v data offset len) (hoff : offset + len ≤ 0x200 * (2 ^ 32 - 1))
    (hans : v.dev.answer c.calls .dest = .full) :
    readLoop v (fuel + 1) data offset len m c =
      readLoop v fuel (data + directLen len) (offset + directLen len) (len - directLen len)
        (m.store data (directLen len) fun i => v.dev.disk (offset + i))
        { c with calls := c.calls + 1 } := by
  have hle := directLen_le len
  have hsect : 0x200 * (offset / 0x200) = offset := by
    have := ha.1
    omega
  rw [readLoop_direct_inRange fuel m c ha hoff, Bdev.read_full hans,
    u32OfInt_natCast (by rw [directLen_div]; omega), if_neg (Nat.lt_irrefl _), hsect]

theorem readLoop_cached_inRange {v : Volume} {data offset len : Nat} (fuel : Nat) (m : Mem UInt8)
    (c : Cache) (hlen : len ≠ 0) (ha : ¬ aligned v data offset len)
    (hoff : offset + len ≤ 0x200 * (2 ^ 32 - 1)) :
    readLoop v (fuel + 1) data offset len m c =
      if (rawRead v (offset / 0x200) c).1 ≠ 0 then
        ⟨(rawRead v (offset / 0x200) c).1, m, (rawRead v (offset / 0x200) c).2⟩
      else readLoop v fuel (data + cachedLen offset len) (offset + cachedLen offset len)
        (len - cachedLen offset len)
        (m.store data (cachedLen offset len) fun i =>
          (rawRead v (offset / 0x200) c).2.rawBuf (offset % 0x200 + i))
        (rawRead v (offset / 0x200) c).2 := by
  have hle := cachedLen_le offset len
  have hu64 : u64 (offset + cachedLen offset len) = offset + cachedLen offset len := by
    unfold u64
    omega
  have hu32 : u32 (offset / 0x200) = offset / 0x200 := by
    unfold u32
    omega
  rw [readLoop_cached fuel m c hlen ha]
  dsimp only
  rw [hu64, hu32]

/-- Copied out of a buffer that holds the sector of `offset`, a piece is the disk. -/
theorem store_sector (m : Mem UInt8) (data : Nat) {offset len : Nat} {rawBuf disk : Mem UInt8}
    (hbuf : ∀ i < 0x200, rawBuf i = disk (0x200 * (offset / 0x200) + i)) :
    (m.store data (cachedLen offset len) fun i => rawBuf (offset % 0x200 + i))
      = m.store data (cachedLen offset len) fun i => disk (offset + i) := by
  have hin := cachedLen_sector offset len
  refine Mem.store_congr m data fun i hi => ?_
  rw [hbuf _ (by omega), ← Nat.add_assoc, Nat.div_add_mod]

theorem readLoop_calls_le (v : Volume) :
    ∀ (fuel data offset len : Nat) (m : Mem UInt8) (c : Cache),
      c.calls ≤ (readLoop v fuel data offset len m c).cache.calls := by
  intro fuel
  induction fuel with
  | zero => intro data offset len m c; exact Nat.le_refl _
  | succ fuel ih =>
      intro data offset len m c
      by_cases hlen : len = 0
      · rw [hlen, readLoop_zero]
      by_cases ha : aligned v data offset len
      · rw [readLoop_direct fuel m c ha]
        dsimp only
        split
        · exact Nat.le_succ _
        · exact Nat.le_trans (Nat.le_succ _) (ih _ _ _ _ { c with calls := c.calls + 1 })
      · rw [readLoop_cached fuel m c hlen ha]
        dsimp only
        split
        · exact rawRead_calls_le _ _ _
        · exact Nat.le_trans (rawRead_calls_le _ _ _) (ih _ _ _ _ _)

/-- Nothing below the destination is written. -/
theorem readLoop_below (v : Volume) :
    ∀ (fuel data offset len : Nat) (m : Mem UInt8) (c : Cache) (x : Nat), x < data →
      (readLoop v fuel data offset len m c).mem x = m x := by
  intro fuel
  induction fuel with
  | zero => intro data offset len m c x _; rfl
  | succ fuel ih =>
      intro data offset len m c x hx
      by_cases hlen : len = 0
      · rw [hlen, readLoop_zero]
      by_cases ha : aligned v data offset len
      · rw [readLoop_direct fuel m c ha]
        dsimp only
        split
        · exact Mem.store_outside m _ (Or.inl hx)
        · rw [ih _ _ _ _ _ x (by omega)]
          exact Mem.store_outside m _ (Or.inl hx)
      · rw [readLoop_cached fuel m c hlen ha]
        dsimp only
        split
        · rfl
        · rw [ih _ _ _ _ _ x (by omega)]
          exact Mem.store_outside m _ (Or.inl hx)

/-! ### The requests of a read -/

/-- The requests a read makes as long as nothing stops it, by where their data go. -/
def requestsLoop (v : Volume) : Nat → Nat → Nat → Nat → Nat → List Target
  | 0, _, _, _, _ => []
  | fuel + 1, data, offset, len, current =>
      if len = 0 then []
      else if aligned v data offset len then
        .dest :: requestsLoop v fuel (data + directLen len) (offset + directLen len)
          (len - directLen len) current
      else if current = offset / 0x200 then
        requestsLoop v fuel (data + cachedLen offset len) (offset + cachedLen offset len)
          (len - cachedLen offset len) current
      else
        .rawBuf :: requestsLoop v fuel (data + cachedLen offset len)
          (offset + cachedLen offset len) (len - cachedLen offset len) (offset / 0x200)

def requests (v : Volume) (data offset len current : Nat) : List Target :=
  requestsLoop v len data (offset + v.partitionStartOffset) len current

/-- Every request is answered in full. -/
def AllFull (dev : Bdev) (k : Nat) (rs : List Target) : Prop :=
  ∀ j t, rs[j]? = some t → dev.answer (k + j) t = .full

theorem allFull_nil (dev : Bdev) (k : Nat) : AllFull dev k [] := by
  intro j t h
  simp at h

theorem allFull_cons {dev : Bdev} {k : Nat} {t : Target} {rs : List Target} :
    AllFull dev k (t :: rs) ↔ dev.answer k t = .full ∧ AllFull dev (k + 1) rs := by
  constructor
  · intro h
    refine ⟨h 0 t rfl, fun j t' hj => ?_⟩
    rw [Nat.add_right_comm, Nat.add_assoc]
    exact h (j + 1) t' hj
  · rintro ⟨h0, h⟩ j t' hj
    cases j with
    | zero =>
        obtain rfl : t = t' := by simpa using hj
        exact h0
    | succ j =>
        rw [← Nat.add_assoc, Nat.add_right_comm]
        exact h j t' hj

/-! ### All of it -/

/--
**The loop delivers the disk.**  The induction is on the fuel, of which every piece
takes one and at least one byte; the store grows at its end with each piece.
-/
theorem readLoop_allFull (v : Volume) :
    ∀ (fuel data offset len : Nat) (m : Mem UInt8) (c : Cache), len ≤ fuel →
      offset + len ≤ 0x200 * (2 ^ 32 - 1) → Coherent v.dev c →
      AllFull v.dev c.calls (requestsLoop v fuel data offset len c.current) →
      (readLoop v fuel data offset len m c).err = 0 ∧
        (readLoop v fuel data offset len m c).mem
          = m.store data len (fun i => v.dev.disk (offset + i)) ∧
        Coherent v.dev (readLoop v fuel data offset len m c).cache := by
  intro fuel
  induction fuel with
  | zero =>
      intro data offset len m c hlen _ hc _
      obtain rfl : len = 0 := by omega
      exact ⟨rfl, (Mem.store_zero m data _).symm, hc⟩
  | succ fuel ih =>
      intro data offset len m c hfuel hoff hc hfull
      by_cases hlen : len = 0
      · subst hlen
        rw [readLoop_zero, Mem.store_zero]
        exact ⟨rfl, rfl, hc⟩
      by_cases ha : aligned v data offset len
      · have hle := directLen_le len
        have hpos := directLen_pos ha.2.2
        rw [requestsLoop, if_neg hlen, if_pos ha, allFull_cons] at hfull
        rw [readLoop_direct_full fuel m c ha hoff hfull.1]
        obtain ⟨herr, hmem, hcoh⟩ := ih (data + directLen len) (offset + directLen len)
          (len - directLen len) (m.store data (directLen len) fun i => v.dev.disk (offset + i))
          { c with calls := c.calls + 1 } (by omega) (by omega) hc hfull.2
        refine ⟨herr, ?_, hcoh⟩
        rw [hmem, Mem.store_rest m data offset v.dev.disk hle]
      · have hle := cachedLen_le offset len
        have hpos := cachedLen_pos offset hlen
        rw [requestsLoop, if_neg hlen, if_neg ha] at hfull
        have hans : c.current ≠ offset / 0x200 → v.dev.answer c.calls .rawBuf = .full := by
          intro hmiss
          rw [if_neg hmiss, allFull_cons] at hfull
          exact hfull.1
        obtain ⟨hzero, hcur, hbuf⟩ := rawRead_full hc (by omega) hans
        have hrest : AllFull v.dev (rawRead v (offset / 0x200) c).2.calls
            (requestsLoop v fuel (data + cachedLen offset len) (offset + cachedLen offset len)
              (len - cachedLen offset len) (rawRead v (offset / 0x200) c).2.current) := by
          rw [hcur]
          by_cases hhit : c.current = offset / 0x200
          · rw [if_pos hhit, hhit] at hfull
            rw [rawRead_hit hhit]
            exact hfull
          · rw [if_neg hhit, allFull_cons] at hfull
            rw [rawRead_miss hhit]
            exact hfull.2
        rw [readLoop_cached_inRange fuel m c hlen ha hoff, if_neg (by simp [hzero]),
          store_sector m data hbuf]
        obtain ⟨herr, hmem, hcoh⟩ := ih (data + cachedLen offset len)
          (offset + cachedLen offset len) (len - cachedLen offset len)
          (m.store data (cachedLen offset len) fun i => v.dev.disk (offset + i))
          (rawRead v (offset / 0x200) c).2 (by omega) (by omega)
          (fun _ => by rw [hcur]; exact hbuf) hrest
        refine ⟨herr, ?_, hcoh⟩
        rw [hmem, Mem.store_rest m data offset v.dev.disk hle]

/-- If the requests made are answered in full, then no request listed is left out. -/
theorem Full.allFull (v : Volume) :
    ∀ (fuel data offset len : Nat) (m : Mem UInt8) (c : Cache), len ≤ fuel →
      offset + len ≤ 0x200 * (2 ^ 32 - 1) →
      Full v.dev c.calls (readLoop v fuel data offset len m c).cache.calls →
      AllFull v.dev c.calls (requestsLoop v fuel data offset len c.current) := by
  intro fuel
  induction fuel with
  | zero => intro data offset len m c _ _ _; exact allFull_nil _ _
  | succ fuel ih =>
      intro data offset len m c hfuel hoff hfull
      rw [requestsLoop]
      by_cases hlen : len = 0
      · rw [if_pos hlen]
        exact allFull_nil _ _
      rw [if_neg hlen]
      by_cases ha : aligned v data offset len
      · have hle := directLen_le len
        have hpos := directLen_pos ha.2.2
        rw [if_pos ha, allFull_cons]
        rw [readLoop_direct_inRange fuel m c ha hoff] at hfull
        have hans : v.dev.answer c.calls .dest = .full := by
          refine hfull c.calls (Nat.le_refl _) ?_ _
          split
          · exact Nat.lt_succ_self _
          · exact readLoop_calls_le v fuel _ _ _ _ { c with calls := c.calls + 1 }
        rw [← readLoop_direct_inRange fuel m c ha hoff,
          readLoop_direct_full fuel m c ha hoff hans] at hfull
        exact ⟨hans, ih _ _ _ _ { c with calls := c.calls + 1 } (by omega) (by omega)
          (hfull.mono (Nat.le_succ _) (Nat.le_refl _))⟩
      · have hle := cachedLen_le offset len
        have hpos := cachedLen_pos offset hlen
        rw [if_neg ha]
        rw [readLoop_cached_inRange fuel m c hlen ha hoff] at hfull
        by_cases hhit : c.current = offset / 0x200
        · rw [if_pos hhit]
          rw [rawRead_hit hhit, if_neg (by simp)] at hfull
          exact ih _ _ _ _ c (by omega) (by omega) hfull
        · rw [if_neg hhit, allFull_cons]
          rw [rawRead_miss hhit] at hfull
          have hans : v.dev.answer c.calls .rawBuf = .full := by
            refine hfull c.calls (Nat.le_refl _) ?_ _
            split
            · exact Nat.lt_succ_self _
            · exact readLoop_calls_le v fuel _ _ _ _
                { rawBuf := _, current := offset / 0x200, calls := c.calls + 1 }
          rw [Bdev.read_full hans, if_neg (by simp)] at hfull
          exact ⟨hans, ih _ _ _ _
            { rawBuf := _, current := offset / 0x200, calls := c.calls + 1 } (by omega) (by omega)
            (hfull.mono (Nat.le_succ _) (Nat.le_refl _))⟩

/-- Byte `i` of the partition, as the device holds it. -/
def Volume.byte (v : Volume) (i : Nat) : UInt8 :=
  v.dev.disk (i + v.partitionStartOffset)

/-- The `n` bytes from `offset` on lie in sectors that have a number. -/
def Volume.InRange (v : Volume) (offset n : Nat) : Prop :=
  offset + v.partitionStartOffset + n ≤ 0x200 * (2 ^ 32 - 1)

theorem read_calls_le (v : Volume) (data offset len : Nat) (m : Mem UInt8) (c : Cache) :
    c.calls ≤ (read v data offset len m c).cache.calls :=
  readLoop_calls_le v _ _ _ _ _ _

/-- **A read whose requests are all answered delivers the bytes of the partition.** -/
theorem read_full {v : Volume} {data offset len : Nat} {m : Mem UInt8} {c : Cache}
    (hr : v.InRange offset len) (hc : Coherent v.dev c)
    (hfull : Full v.dev c.calls (read v data offset len m c).cache.calls) :
    (read v data offset len m c).err = 0 ∧
      (read v data offset len m c).mem = m.store data len (fun i => v.byte (offset + i)) ∧
      Coherent v.dev (read v data offset len m c).cache := by
  unfold Volume.InRange at hr
  have hu64 : u64 (offset + v.partitionStartOffset) = offset + v.partitionStartOffset := by
    unfold u64
    omega
  unfold read at hfull ⊢
  rw [hu64] at hfull ⊢
  obtain ⟨herr, hmem, hcoh⟩ := readLoop_allFull v len data _ len m c (Nat.le_refl _) hr hc
    (Full.allFull v len data _ len m c (Nat.le_refl _) hr hfull)
  refine ⟨herr, ?_, hcoh⟩
  rw [hmem]
  refine Mem.store_congr m data fun i _ => ?_
  unfold Volume.byte
  congr 1
  omega

end Xell.Fat
