/-
The one-sector cache.

Two things are shown of it.  As long as it holds what the device holds, nobody can tell
whether `read` went through it: the aligned requests and the copies out of `raw_buf` deliver
the same bytes, for every alignment of the destination.  And it does hold what the device
holds in every run of `raw_read` and `fat_init` in which three things do not happen: an access
into `raw_buf` that does not transfer its sector, a device that replaces another while a
sector of that one is kept, and a first request for the sector that `current` starts at.
`current` is set before the access and never taken back, so each of the three leaves a sector
in the cache that the device does not have there.
-/
import Xell.Proofs.Fat.Read

namespace Xell.Fat

/-! ### The two paths of `read` -/

/-- The byte of the device that byte `i` of a range stands for. -/
def Volume.address (v : Volume) (offset i : Nat) : Nat := u64 (v.partitionStartOffset + offset + i)

/-- Sectors that have numbers cannot wrap in the middle of a range. -/
theorem Volume.address_le {v : Volume} {offset len : Nat} (hlen : len ≠ 0)
    (hs : ∀ i < len, v.address offset i / 0x200 < 2 ^ 32 - 1) :
    u64 (offset + v.partitionStartOffset) + len ≤ 0x200 * (2 ^ 32 - 1) := by
  unfold address u64 at *
  by_contra hlt
  have h0 := hs 0 (by omega)
  have hi := hs (0x200 * (2 ^ 32 - 1) - (offset + v.partitionStartOffset) % 2 ^ 64) (by omega)
  omega

theorem Volume.address_eq {v : Volume} {offset len i : Nat} (hi : i < len)
    (hs : u64 (offset + v.partitionStartOffset) + len ≤ 0x200 * (2 ^ 32 - 1)) :
    u64 (offset + v.partitionStartOffset) + i = v.address offset i := by
  unfold address u64 at *
  omega

theorem read_delivers {v : Volume} {data offset len : Nat} {m : Mem UInt8} {c : Cache}
    (hs : ∀ i < len, v.address offset i / 0x200 < 2 ^ 32 - 1) (hc : Coherent v.dev c)
    (hfull : Full v.dev c.calls (read v data offset len m c).cache.calls) :
    (read v data offset len m c).err = 0 ∧
      (∀ i < len, (read v data offset len m c).mem (data + i) = v.dev.disk (v.address offset i)) ∧
      Coherent v.dev (read v data offset len m c).cache := by
  unfold read at hfull ⊢
  by_cases hlen : len = 0
  · subst hlen
    rw [readLoop_zero]
    exact ⟨rfl, fun i hi => absurd hi (Nat.not_lt_zero i), hc⟩
  have hoff := Volume.address_le hlen hs
  obtain ⟨herr, hmem, hcoh⟩ := readLoop_allFull v len data _ len m c (Nat.le_refl _) hoff hc
    (Full.allFull v len data _ len m c (Nat.le_refl _) hoff hfull)
  refine ⟨herr, ?_, hcoh⟩
  intro i hi
  rw [hmem, Mem.store_at _ _ _ hi, Volume.address_eq hi hoff]

/--
**The fast path agrees with the cached one.**  A read whose requests are answered delivers the
bytes of the device and leaves the cache coherent, wherever its destination lies.  With
`raw_buf` and the destination anywhere else, and another sector in the cache, it delivers the
same bytes.
-/
theorem read_any_alignment (v : Volume) (data offset len : Nat) (m : Mem UInt8) (c : Cache)
    (hs : ∀ i < len, v.address offset i / 0x200 < 2 ^ 32 - 1) (hc : Coherent v.dev c)
    (hfull : Full v.dev c.calls (read v data offset len m c).cache.calls) :
    (read v data offset len m c).err = 0 ∧
      (∀ i < len, (read v data offset len m c).mem (data + i) = v.dev.disk (v.address offset i)) ∧
      Coherent v.dev (read v data offset len m c).cache ∧
      ∀ (rawBufAddr data' : Nat) (m' : Mem UInt8) (c' : Cache), Coherent v.dev c' →
        Full v.dev c'.calls
          (read { v with rawBufAddr := rawBufAddr } data' offset len m' c').cache.calls →
        ∀ i < len, (read { v with rawBufAddr := rawBufAddr } data' offset len m' c').mem (data' + i)
          = (read v data offset len m c).mem (data + i) := by
  obtain ⟨herr, hmem, hcoh⟩ := read_delivers hs hc hfull
  refine ⟨herr, hmem, hcoh, ?_⟩
  intro rawBufAddr data' m' c' hc' hfull' i hi
  obtain ⟨-, hmem', -⟩ := read_delivers (v := { v with rawBufAddr := rawBufAddr }) hs hc' hfull'
  rw [hmem i hi]
  exact hmem' i hi

/-- A device that answers every request. -/
def answering (disk : Mem UInt8) : Bdev where
  disk := disk
  answer := fun _ _ => .full
  junk := fun _ _ => 0

/-- Three sectors and a bit, from the middle of the second sector of a partition on. -/
theorem read_any_alignment_partition :
    let v := probe (answering fun a => UInt8.ofNat (a / 0x100)) 0 0x200
    (read v 0x20 0x300 0x700 (fun _ => 0) Mount.initial.cache).err = 0 ∧
      ∀ i < 0x700, (read v 0x20 0x300 0x700 (fun _ => 0) Mount.initial.cache).mem (0x20 + i)
        = UInt8.ofNat ((0x500 + i) / 0x100) := by
  intro v
  obtain ⟨herr, hmem, -⟩ := read_any_alignment v 0x20 0x300 0x700 (fun _ => 0)
    Mount.initial.cache (fun i hi => by simp only [v, Volume.address, probe, u64]; omega)
    (fun h => absurd h (by decide)) (fun _ _ _ _ => rfl)
  refine ⟨herr, ?_⟩
  intro i hi
  rw [hmem i hi]
  show UInt8.ofNat (v.address 0x300 i / 0x100) = _
  congr 2
  simp only [v, Volume.address, probe, u64]
  omega

/-! ### Coherence between calls -/

/-- The cached sector is the one the device has, whatever its number. -/
def Holds (dev : Bdev) (c : Cache) : Prop :=
  ∀ i < 0x200, c.rawBuf i = dev.disk (0x200 * c.current + i)

/-- What `raw_read` would answer from the cache is what the device has. -/
def Mount.Coherent (s : Mount) : Prop := ∀ dev, s.dev = some dev → Holds dev s.cache

theorem rawRead_holds (v : Volume) (sector : Nat) {c : Cache}
    (hc : c.current = sector → Holds v.dev c)
    (hans : c.current ≠ sector → v.dev.answer c.calls .rawBuf = .full) :
    (rawRead v sector c).1 = 0 ∧ (rawRead v sector c).2.current = sector ∧
      Holds v.dev (rawRead v sector c).2 := by
  by_cases hcur : c.current = sector
  · rw [rawRead_hit hcur]
    exact ⟨rfl, hcur, hc hcur⟩
  · rw [rawRead_miss hcur, Bdev.read_full (hans hcur)]
    exact ⟨by simp, rfl, fun i _ => rfl⟩

/-- The local array of `fat_init` is so placed that it is read into directly. -/
def Direct (rawBufAddr buf : Nat) : Prop := ((buf : Int) - rawBufAddr) % 32 = 0

instance (rawBufAddr buf : Nat) : Decidable (Direct rawBufAddr buf) :=
  inferInstanceAs (Decidable (_ = _))

section Sector

variable (dev : Bdev) (rawBufAddr buf : Nat) (m : Mem UInt8) (c : Cache) {p : Nat}

/-- A sector read into an aligned array leaves the cache alone. -/
theorem read_sector_direct (hp : p < 2 ^ 32) (h : Direct rawBufAddr buf) :
    (read (probe dev rawBufAddr (0x200 * p)) buf 0 0x200 m c).cache
      = { c with calls := c.calls + 1 } := by
  have hoff : u64 (0 + 0x200 * p) = 0x200 * p := by
    unfold u64
    omega
  have ha : aligned (probe dev rawBufAddr (0x200 * p)) buf (0x200 * p) 0x200 :=
    ⟨by omega, h, Nat.le_refl _⟩
  show (readLoop _ 0x200 buf (u64 (0 + 0x200 * p)) 0x200 m c).cache = _
  rw [hoff, readLoop_direct 0x1ff m c ha]
  dsimp only
  split
  · rfl
  · rw [show 0x200 - directLen 0x200 = 0 from rfl, readLoop_zero]

/-- Into any other array it is copied from the cache. -/
theorem read_sector_cached (hp : p < 2 ^ 32) (h : ¬Direct rawBufAddr buf) :
    read (probe dev rawBufAddr (0x200 * p)) buf 0 0x200 m c =
      (let r := rawRead (probe dev rawBufAddr (0x200 * p)) p c
       if r.1 ≠ 0 then ⟨r.1, m, r.2⟩ else ⟨0, m.store buf 0x200 r.2.rawBuf, r.2⟩) := by
  have hoff : u64 (0 + 0x200 * p) = 0x200 * p := by
    unfold u64
    omega
  have hsect : u32 (0x200 * p / 0x200) = p := by
    unfold u32
    omega
  have hlen : cachedLen (0x200 * p) 0x200 = 0x200 := by
    unfold cachedLen
    omega
  have ha : ¬aligned (probe dev rawBufAddr (0x200 * p)) buf (0x200 * p) 0x200 := fun ha => h ha.2.1
  show readLoop _ 0x200 buf (u64 (0 + 0x200 * p)) 0x200 m c = _
  rw [hoff, readLoop_cached 0x1ff m c (by decide) ha, hlen, hsect]
  dsimp only
  split
  · rfl
  · rw [Nat.sub_self, readLoop_zero]
    congr 2
    funext i
    rw [show 0x200 * p % 0x200 = 0 by omega, Nat.zero_add]

end Sector

/-- Where the first partition starts, if the sector at the start of the disk has a table. -/
def partition (disk : Mem UInt8) : Option Nat :=
  if le16 disk 0x01fe = 0xaa55 ∧ isFatFs disk 0 = false ∧ disk 0x01c2 ≠ 0
    then some (le32 disk 0x01c6) else none

/-- When `fat_init` may be called: the sector that is kept is also one of the new device, or is
replaced, and the sectors `fat_init` asks for are transferred. -/
structure InitSafe (rawBufAddr : Nat) (dev : Bdev) (buf : Nat) (c : Cache) : Prop where
  kept : Holds dev c ∨ ¬Direct rawBufAddr buf ∧ c.current ≠ 0
  first : ¬Direct rawBufAddr buf → c.current ≠ 0 → dev.answer c.calls .rawBuf = .full
  second : ¬Direct rawBufAddr buf → ∀ p, partition dev.disk = some p → p ≠ 0 →
    dev.answer (if c.current = 0 then c.calls else c.calls + 1) .rawBuf = .full

/-- The condition on a call, in the state before it. -/
def Mount.Safe (rawBufAddr : Nat) (s : Mount) : Call → Prop
  | .rawRead sector => ∀ dev, s.dev = some dev → s.cache.current ≠ u32 sector →
      dev.answer s.cache.calls .rawBuf = .full
  | .fatInit dev buf _ => InitSafe rawBufAddr dev buf s.cache

theorem le32_lt (p : Mem UInt8) (a : Nat) : le32 p a < 2 ^ 32 := by
  have h0 := (p a).toNat_lt
  have h1 := (p (a + 1)).toNat_lt
  have h2 := (p (a + 2)).toNat_lt
  have h3 := (p (a + 3)).toNat_lt
  unfold le32
  refine Nat.or_lt_two_pow (Nat.or_lt_two_pow (Nat.or_lt_two_pow ?_ ?_) ?_) ?_
  all_goals
    try rw [Nat.shiftLeft_eq]
    omega

/-- What `fat_init` leaves in the cache is left there by its first read or by its second one,
which is made only if the first sector has a partition table. -/
theorem fatInit_cache (rawBufAddr : Nat) (dev : Bdev) (buf : Nat) (m : Mem UInt8) (c : Cache) :
    let r := read (probe dev rawBufAddr 0) buf 0 0x200 m c
    (fatInit rawBufAddr dev buf m c).cache = r.cache ∨
      ∃ p, r.err = 0 ∧ partition (fun i => r.mem (buf + i)) = some p ∧
        (fatInit rawBufAddr dev buf m c).cache
          = (read (probe dev rawBufAddr (0x200 * p)) buf 0 0x200 r.mem r.cache).cache := by
  intro r
  unfold fatInit
  dsimp only
  split
  · exact Or.inl rfl
  rename_i herr
  split
  · exact Or.inl rfl
  rename_i hmagic
  split
  · exact Or.inl rfl
  rename_i hfat
  split
  · exact Or.inl rfl
  rename_i htable
  refine Or.inr ⟨le32 r.mem (buf + 0x01c6), not_not.mp herr, ?_, ?_⟩
  · exact if_pos ⟨not_not.mp hmagic, Bool.eq_false_of_not_eq_true hfat, htable⟩
  · split
    · rfl
    split <;> rfl

theorem partition_congr {p q : Mem UInt8} (h : ∀ i < 0x200, p i = q i) :
    partition p = partition q := by
  unfold partition isFatFs le16 le32
  simp only [h _ (show 0x01fe < 0x200 by decide), h _ (show 0x01fe + 1 < 0x200 by decide),
    h _ (show 0 + 0x0b < 0x200 by decide), h _ (show 0 + 0x0b + 1 < 0x200 by decide),
    h _ (show 0 + 0x15 < 0x200 by decide), h _ (show 0x01c2 < 0x200 by decide),
    h _ (show 0x01c6 < 0x200 by decide), h _ (show 0x01c6 + 1 < 0x200 by decide),
    h _ (show 0x01c6 + 2 < 0x200 by decide), h _ (show 0x01c6 + 3 < 0x200 by decide)]

theorem partition_lt {disk : Mem UInt8} {p : Nat} (h : partition disk = some p) : p < 2 ^ 32 := by
  unfold partition at h
  split at h
  · cases h
    exact le32_lt _ _
  · simp at h

/-- Reading into an aligned array, `fat_init` leaves the kept sector where it is. -/
theorem fatInit_direct (dev : Bdev) {rawBufAddr buf : Nat} (m : Mem UInt8) (c : Cache)
    (h : Direct rawBufAddr buf) :
    (fatInit rawBufAddr dev buf m c).cache.rawBuf = c.rawBuf ∧
      (fatInit rawBufAddr dev buf m c).cache.current = c.current := by
  have hfirst : (read (probe dev rawBufAddr 0) buf 0 0x200 m c).cache
      = { c with calls := c.calls + 1 } :=
    read_sector_direct dev rawBufAddr buf m c (p := 0) (by decide) h
  rcases fatInit_cache rawBufAddr dev buf m c with heq | ⟨p, -, hp, heq⟩
  · rw [heq, hfirst]
    exact ⟨rfl, rfl⟩
  · rw [heq, read_sector_direct dev rawBufAddr buf _ _ (partition_lt hp) h, hfirst]
    exact ⟨rfl, rfl⟩

theorem fatInit_holds {rawBufAddr buf : Nat} {dev : Bdev} {c : Cache} (m : Mem UInt8)
    (h : InitSafe rawBufAddr dev buf c) : Holds dev (fatInit rawBufAddr dev buf m c).cache := by
  by_cases hd : Direct rawBufAddr buf
  · obtain ⟨hbuf, hcur⟩ := fatInit_direct dev m c hd
    have hkept : Holds dev c := h.kept.resolve_right fun hr => hr.1 hd
    intro i hi
    rw [hbuf, hcur]
    exact hkept i hi
  · -- the first sector of the new device is in the cache now
    have hcached := read_sector_cached dev rawBufAddr buf m c (p := 0) (by decide) hd
    obtain ⟨hzero, hcur, hhold⟩ := rawRead_holds (probe dev rawBufAddr (0x200 * 0)) 0
      (c := c) (fun h0 => h.kept.resolve_right fun hr => hr.2 h0) (h.first hd)
    simp only [hzero, ne_eq, not_true_eq_false, if_false, Nat.mul_zero] at hcached
    rcases fatInit_cache rawBufAddr dev buf m c with heq | ⟨p, -, hp, heq⟩
    · rw [heq, hcached]
      exact hhold
    · have hdisk : partition dev.disk = some p := by
        rw [← hp]
        refine partition_congr fun i hi => ?_
        rw [hcached]
        show _ = Mem.store _ _ _ _ _
        rw [Mem.store_at _ _ _ hi, hhold i hi, hcur, Nat.mul_zero, Nat.zero_add]
        rfl
      rw [heq, hcached, read_sector_cached dev rawBufAddr buf _ _ (partition_lt hp) hd]
      dsimp only
      have hsecond := rawRead_holds (probe dev rawBufAddr (0x200 * p)) p
        (c := (rawRead (probe dev rawBufAddr 0) 0 c).2) (fun _ => hhold) ?_
      · split
        · exact hsecond.2.2
        · exact hsecond.2.2
      · intro hne
        rw [hcur] at hne
        have hans := h.second hd p hdisk (Ne.symm hne)
        by_cases h0 : c.current = 0
        · rw [if_pos h0] at hans
          rw [rawRead_hit h0]
          exact hans
        · rw [if_neg h0] at hans
          rw [rawRead_miss h0]
          exact hans

/-! ### Runs -/

theorem call_coherent {rawBufAddr : Nat} {s s' : Mount} {c : Call} (hs : s.Coherent)
    (hsafe : s.Safe rawBufAddr c) (h : s.call rawBufAddr c = some s') : s'.Coherent := by
  cases c with
  | rawRead sector =>
      unfold Mount.call at h
      cases hdev : s.dev with
      | none =>
          rw [hdev] at h
          dsimp only at h
          split at h
          · cases h
            exact hs
          · simp at h
      | some dev =>
          rw [hdev] at h
          cases h
          intro dev' hdev'
          cases hdev'
          exact (rawRead_holds (probe dev rawBufAddr 0) _ (fun _ => hs dev hdev)
            (hsafe dev hdev)).2.2
  | fatInit dev buf m =>
      cases h
      intro dev' hdev'
      cases hdev'
      exact fatInit_holds m hsafe

/-- Every call of the run is made in a state in which it may be made. -/
def SafeRun (rawBufAddr : Nat) : List Call → Mount → Prop
  | [], _ => True
  | c :: cs, s => s.Safe rawBufAddr c ∧
      ∀ s', s.call rawBufAddr c = some s' → SafeRun rawBufAddr cs s'

theorem run_coherent (rawBufAddr : Nat) :
    ∀ (cs : List Call) (s s' : Mount), s.Coherent → SafeRun rawBufAddr cs s →
      Mount.run rawBufAddr cs s = some s' → s'.Coherent := by
  intro cs
  induction cs with
  | nil =>
      intro s s' hs _ h
      cases h
      exact hs
  | cons c cs ih =>
      intro s s' hs hsafe h
      obtain ⟨t, hcall, hrun⟩ := Option.bind_eq_some_iff.mp h
      exact ih t s' (call_coherent hs hsafe.1 hcall) (hsafe.2 t hcall) hrun

/--
**The cache holds what the device holds**, in every state of a run from the start of the
program whose calls are all safe.
-/
theorem cache_coherent (rawBufAddr : Nat) (cs : List Call) (s : Mount)
    (hsafe : SafeRun rawBufAddr cs Mount.initial)
    (hrun : Mount.run rawBufAddr cs Mount.initial = some s) :
    s.Coherent := by
  refine run_coherent rawBufAddr cs Mount.initial s ?_ hsafe hrun
  intro dev hdev
  simp [Mount.initial] at hdev

/-- Mounting a disk, and a look at another sector. -/
theorem cache_coherent_mounted :
    ∃ s, Mount.run 0 [.fatInit (answering fun _ => 0x55) 1 (fun _ => 0), .rawRead 7] Mount.initial
      = some s ∧ s.Coherent := by
  refine ⟨_, rfl, cache_coherent 0
    [.fatInit (answering fun _ => 0x55) 1 (fun _ => 0), .rawRead 7] _ ⟨⟨?_, ?_, ?_⟩, ?_⟩ rfl⟩
  · exact Or.inr ⟨by decide, by decide⟩
  · exact fun _ _ => rfl
  · exact fun _ _ _ _ => rfl
  · intro s hs
    cases hs
    refine ⟨fun dev hdev _ => ?_, fun _ _ => trivial⟩
    cases hdev
    rfl

/-- A device whose first access fails and transfers nothing. -/
def faulty : Bdev :=
  { answering fun _ => 0x55 with
    answer := fun k _ => if k = 0 then .failed (-1) (by decide) else .full }

/-- A run that leaves a sector in the cache which the device does not have there. -/
def Stale (rawBufAddr : Nat) (cs : List Call) : Prop :=
  ∃ s, Mount.run rawBufAddr cs Mount.initial = some s ∧ ¬s.Coherent

theorem stale_of {rawBufAddr : Nat} {cs : List Call} {s : Mount} {dev : Bdev}
    (hrun : Mount.run rawBufAddr cs Mount.initial = some s) (hdev : s.dev = some dev)
    (h : s.cache.rawBuf 0 ≠ dev.disk (0x200 * s.cache.current)) : Stale rawBufAddr cs :=
  ⟨s, hrun, fun hs => h (hs dev hdev 0 (by decide))⟩

/--
The three ways to it: a failed access is answered from the cache when it is repeated, a new
device with the first sector of the old one, and the sector number that `current` starts at
with a buffer nothing was ever read into.
-/
theorem cache_stale :
    (Stale 0 [.fatInit faulty 1 fun _ => 0] ∧
      ∃ s, Mount.run 0 [.fatInit faulty 1 fun _ => 0] Mount.initial = some s ∧
        (rawRead (probe faulty 0 0) 0 s.cache).1 = 0) ∧
    Stale 0 [.fatInit (answering fun _ => 0x55) 1 fun _ => 0,
      .fatInit (answering fun _ => 0x66) 1 fun _ => 0] ∧
    Stale 0 [.fatInit (answering fun _ => 0x55) 0 fun _ => 0] := by
  refine ⟨⟨stale_of rfl rfl ?_, _, rfl, ?_⟩, stale_of rfl rfl ?_, stale_of rfl rfl ?_⟩
  · decide +kernel
  · decide +kernel
  · decide +kernel
  · decide +kernel

end Xell.Fat
