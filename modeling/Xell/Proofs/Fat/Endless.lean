/-
When `fat_open` returns.

Nothing is assumed of the image here.  All that `fat_open` reads comes through the cache, four
or thirty-two bytes at a time, so that what it sees is a fixed function of the disk, `seen`,
with sector numbers cut to 32 bits.  A directory is then a sequence of extents, each found by
`get_extent` from the cluster that the one before it names as the next: `links`.

`get_extent` always ends, since it only follows entries that go up by one.  The scan of a
directory need not.  It goes through the extents one after the other and stops at an entry
that matches, at one that starts with a zero, and where an extent is empty or names no next
one.  There are fewer than 2^28 clusters to name, so a scan that never stops has come back to
an extent it has been through.  That is `Endless`, a property of the image that a finite piece
of the chain shows, and `fat_open` returns exactly if no directory that the path leads through
is `Endless`.
-/
import Xell.Proofs.Fat.Cache
import Xell.Proofs.Fat.Path

namespace Xell.Fat

open Boot (xenonPath)

/-! ### What is seen of the disk -/

/-- The byte at an offset from the start of the device, as `raw_read` finds it. -/
def Bdev.seen (dev : Bdev) (o : Nat) : UInt8 :=
  dev.disk (0x200 * u32 (u64 o / 0x200) + u64 o % 0x200)

/-- The byte at an offset from the start of the partition. -/
def Volume.seen (v : Volume) (a : Nat) : UInt8 := v.dev.seen (a + v.partitionStartOffset)

/-- A piece of a sector is a piece of what is seen. -/
theorem seen_sector (dev : Bdev) {o i : Nat} (ho : o < 2 ^ 64) (hi : o % 0x200 + i < 0x200) :
    dev.disk (0x200 * u32 (o / 0x200) + (o % 0x200 + i)) = dev.seen (o + i) := by
  have h64 : u64 (o + i) = o + i := by
    unfold u64
    omega
  unfold Bdev.seen
  rw [h64, show (o + i) / 0x200 = o / 0x200 by omega, show (o + i) % 0x200 = o % 0x200 + i by omega]

theorem Bdev.seen_u64 (dev : Bdev) (o i : Nat) : dev.seen (u64 o + i) = dev.seen (o + i) := by
  have h : u64 (u64 o + i) = u64 (o + i) := by
    unfold u64
    omega
  unfold Bdev.seen
  rw [h]

variable {v : Volume}

/-- Reads of less than a sector all go through the cache. -/
theorem readLoop_seen (hfull : ∀ k t, v.dev.answer k t = .full) :
    ∀ (fuel data offset len : Nat) (m : Mem UInt8) (c : Cache), len ≤ fuel → len < 0x200 →
      offset < 2 ^ 64 → Holds v.dev c →
      (readLoop v fuel data offset len m c).err = 0 ∧
        (readLoop v fuel data offset len m c).mem
          = m.store data len (fun i => v.dev.seen (offset + i)) ∧
        Holds v.dev (readLoop v fuel data offset len m c).cache := by
  intro fuel
  induction fuel with
  | zero =>
      intro data offset len m c hlen _ _ hc
      obtain rfl : len = 0 := by omega
      exact ⟨rfl, (Mem.store_zero m data _).symm, hc⟩
  | succ fuel ih =>
      intro data offset len m c hfuel hshort hoff hc
      by_cases hlen : len = 0
      · subst hlen
        rw [readLoop_zero, Mem.store_zero]
        exact ⟨rfl, rfl, hc⟩
      have ha : ¬aligned v data offset len := fun ha => by
        have := ha.2.2
        omega
      have hle := cachedLen_le offset len
      have hpos := cachedLen_pos offset hlen
      have hin := cachedLen_sector offset len
      obtain ⟨hzero, hcur, hhold⟩ := rawRead_holds v (u32 (offset / 0x200))
        (c := c) (fun _ => hc) (fun _ => hfull _ _)
      have hcopy : (m.store data (cachedLen offset len) fun i =>
          (rawRead v (u32 (offset / 0x200)) c).2.rawBuf (offset % 0x200 + i))
          = m.store data (cachedLen offset len) fun i => v.dev.seen (offset + i) := by
        refine Mem.store_congr m data fun i hi => ?_
        rw [hhold _ (by omega), hcur]
        exact seen_sector v.dev hoff (by omega)
      rw [readLoop_cached fuel m c hlen ha]
      dsimp only
      rw [if_neg (by simp [hzero]), hcopy]
      obtain ⟨herr, hmem, hcoh⟩ := ih (data + cachedLen offset len)
        (u64 (offset + cachedLen offset len)) (len - cachedLen offset len)
        (m.store data (cachedLen offset len) fun i => v.dev.seen (offset + i))
        (rawRead v (u32 (offset / 0x200)) c).2 (by omega) (by omega) (Nat.mod_lt _ (by decide))
        hhold
      refine ⟨herr, ?_, hcoh⟩
      simp only [Bdev.seen_u64] at hmem
      rw [hmem, Mem.store_rest m data offset v.dev.seen hle]

theorem read_seen (hfull : ∀ k t, v.dev.answer k t = .full) (data offset : Nat) {len : Nat}
    (m : Mem UInt8) {c : Cache} (hlen : len < 0x200) (hc : Holds v.dev c) :
    (read v data offset len m c).err = 0 ∧
      (read v data offset len m c).mem = m.store data len (fun i => v.seen (offset + i)) ∧
      Holds v.dev (read v data offset len m c).cache := by
  obtain ⟨herr, hmem, hcoh⟩ := readLoop_seen hfull len data
    (u64 (offset + v.partitionStartOffset)) len m c (Nat.le_refl _) hlen
    (Nat.mod_lt _ (by decide)) hc
  refine ⟨herr, ?_, hcoh⟩
  unfold read
  rw [hmem]
  refine Mem.store_congr m data fun i _ => ?_
  rw [Bdev.seen_u64, Nat.add_right_comm]
  rfl

/-! ### Extents -/

/-- The entry of a cluster in the allocation table, as it is seen. -/
def Volume.entrySeen (v : Volume) (cluster : Nat) : Nat :=
  (le32 (fun i => v.seen (v.fatOffset + v.entryBits cluster / 8 + i)) 0
    >>> (v.entryBits cluster % 8)) &&& fatMask v.fatType &&& 0x0fffffff

theorem Volume.entrySeen_lt (v : Volume) (cluster : Nat) : v.entrySeen cluster < 2 ^ 28 := by
  have h : v.entrySeen cluster ≤ 0x0fffffff := Nat.and_le_right
  omega

theorem Volume.seen_u64 (v : Volume) (a i : Nat) : v.seen (u64 a + i) = v.seen (a + i) := by
  unfold Volume.seen
  rw [Nat.add_assoc, Bdev.seen_u64, Nat.add_assoc]

theorem getFat_seen (hfull : ∀ k t, v.dev.answer k t = .full) (cluster : Nat) {c : Cache}
    (hc : Holds v.dev c) :
    (getFat v cluster c).1 = v.entrySeen cluster ∧ Holds v.dev (getFat v cluster c).2 := by
  obtain ⟨herr, hmem, hcoh⟩ := read_seen hfull 0 (u64 (v.fatOffset + v.entryBits cluster / 8))
    (fun _ => 0) (show 4 < 0x200 by decide) hc
  refine ⟨?_, by rw [getFat_cache]; exact hcoh⟩
  rw [getFat_eq]
  dsimp only
  rw [if_neg (by simp [herr]), hmem]
  show (_ >>> _) &&& _ &&& _ = (_ >>> _) &&& _ &&& _
  congr 3
  refine le32_congr fun i hi => ?_
  rw [Mem.store_at _ _ _ hi, Volume.seen_u64, Nat.zero_add]

/-- What `get_extent` leaves in the three globals. -/
structure Extent where
  offset : Nat
  len : Nat
  next : Nat

/-- The loop of `get_extent` on what is seen: the length and the next cluster. -/
def extentLoop (v : Volume) : Nat → Nat → Nat → Nat × Nat
  | 0, _, len => (len, 0)
  | fuel + 1, cluster, len =>
      let len := u32 (len + v.bytesPerCluster)
      let g := v.entrySeen cluster
      if v.clusters ≤ sub32 g 2 then (len, 0)
      else if g ≠ u32 (cluster + 1) then (len, g)
      else extentLoop v fuel g len

/-- The extent that starts at a cluster; where it has no clusters, its place does not matter. -/
def extent (v : Volume) (cluster : Nat) : Extent :=
  if isRootArea v cluster then ⟨v.rootOffset, u32 (0x20 * v.rootEntries), 0⟩
  else
    let d := startCluster v cluster
    if v.clusters ≤ sub32 d 2 then ⟨0, 0, 0⟩
    else
      let r := extentLoop v v.clusters d 0
      ⟨u64 (v.dataOffset + v.bytesPerCluster * sub32 d 2), r.1, r.2⟩

/-- The state stands at the start of an extent. -/
structure Starts (v : Volume) (e : Extent) (s : State) : Prop where
  holds : Holds v.dev s.cache
  len : s.extentLen = e.len
  next : s.extentNextCluster = e.next
  offset : e.len ≠ 0 → s.extentOffset = e.offset

theorem getExtentLoop_seen (hfull : ∀ k t, v.dev.answer k t = .full) :
    ∀ (fuel cluster : Nat) (s : State), Holds v.dev s.cache → s.extentNextCluster = 0 →
      let r := extentLoop v fuel cluster s.extentLen
      Holds v.dev (getExtentLoop v fuel cluster s).cache ∧
        (getExtentLoop v fuel cluster s).extentLen = r.1 ∧
        (getExtentLoop v fuel cluster s).extentNextCluster = r.2 ∧
        (getExtentLoop v fuel cluster s).extentOffset = s.extentOffset := by
  intro fuel
  induction fuel with
  | zero => intro cluster s hc hnext; exact ⟨hc, rfl, hnext, rfl⟩
  | succ fuel ih =>
      intro cluster s hc hnext
      obtain ⟨hg, hc'⟩ := getFat_seen hfull cluster hc
      rw [getExtentLoop, extentLoop]
      dsimp only
      rw [hg]
      split
      · exact ⟨hc', rfl, hnext, rfl⟩
      split
      · exact ⟨hc', rfl, rfl, rfl⟩
      · exact ih _ { s with
          extentLen := u32 (s.extentLen + v.bytesPerCluster)
          cache := (getFat v cluster s.cache).2 } hc' hnext

theorem getExtent_starts (hfull : ∀ k t, v.dev.answer k t = .full) (cluster : Nat) {s : State}
    (hc : Holds v.dev s.cache) : Starts v (extent v cluster) (getExtent v cluster s) := by
  unfold getExtent extent
  dsimp only
  by_cases hroot : isRootArea v cluster
  · rw [if_pos (show cluster = 0 ∧ v.fatType ≠ .fat32 from hroot), if_pos hroot]
    exact ⟨hc, rfl, rfl, fun _ => rfl⟩
  · rw [if_neg (show ¬(cluster = 0 ∧ v.fatType ≠ .fat32) from hroot), if_neg hroot]
    have hstart : (if cluster = 0 then u32 v.rootOffset else cluster) = startCluster v cluster := rfl
    rw [hstart]
    by_cases hout : v.clusters ≤ sub32 (startCluster v cluster) 2
    · rw [if_pos hout, if_pos hout]
      exact ⟨hc, rfl, rfl, fun h => absurd rfl h⟩
    · rw [if_neg hout, if_neg hout]
      obtain ⟨hhold, hlen, hnext, hoff⟩ := getExtentLoop_seen hfull v.clusters
        (startCluster v cluster)
        { s with
          extentLen := 0
          extentNextCluster := 0
          extentOffset :=
            u64 (v.dataOffset + v.bytesPerCluster * sub32 (startCluster v cluster) 2) } hc rfl
      exact ⟨hhold, hlen, hnext, fun _ => hoff⟩

/-- The next cluster is one of the volume, or zero. -/
theorem extentLoop_next_lt (v : Volume) :
    ∀ (fuel cluster len : Nat), (extentLoop v fuel cluster len).2 < 2 ^ 28 := by
  intro fuel
  induction fuel with
  | zero => intro cluster len; exact Nat.two_pow_pos 28
  | succ fuel ih =>
      intro cluster len
      rw [extentLoop]
      split
      · exact Nat.two_pow_pos 28
      split
      · exact v.entrySeen_lt cluster
      · exact ih _ _

theorem extent_next_lt (v : Volume) (cluster : Nat) : (extent v cluster).next < 2 ^ 28 := by
  unfold extent
  split
  · exact Nat.two_pow_pos 28
  dsimp only
  split
  · exact Nat.two_pow_pos 28
  · exact extentLoop_next_lt v _ _ _

/--
**`get_extent` ends by itself**: its loop never makes more turns than there are clusters, so
that the bound the model puts on them is never met.  The clusters go up by one from turn to
turn and are all below `clusters + 2`.
-/
theorem getExtentLoop_ends (v : Volume) :
    ∀ (fuel more cluster : Nat) (s : State), v.valid cluster → cluster < 2 ^ 32 →
      v.clusters ≤ sub32 cluster 2 + fuel →
      getExtentLoop v (fuel + more) cluster s = getExtentLoop v fuel cluster s := by
  intro fuel
  induction fuel with
  | zero =>
      intro more cluster s hval _ hle
      unfold Volume.valid at hval
      omega
  | succ fuel ih =>
      intro more cluster s hval hlt hle
      rw [Nat.succ_add, getExtentLoop, getExtentLoop]
      dsimp only
      split
      · rfl
      rename_i hin
      split
      · rfl
      rename_i hstep
      have hstep := not_not.mp hstep
      refine ih more _ _ (Nat.lt_of_not_le hin) ?_ ?_
      · rw [hstep]
        exact Nat.mod_lt _ (by decide)
      · have hclusters := v.clusters_lt
        unfold Volume.valid at hval
        rw [hstep] at hin ⊢
        unfold sub32 u32 at *
        omega

/-! ### Entries -/

/-- Entry `j` of the extent that starts at cluster `d`. -/
def entryIn (v : Volume) (d j : Nat) : Mem UInt8 :=
  Mem.store (fun _ => 0) 0 0x20 fun i => v.seen ((extent v d).offset + 0x20 * j + i)

/-- The state stands before entry `j` of the extent at `d`. -/
structure Before (v : Volume) (d j : Nat) (s : State) : Prop where
  inside : 0x20 * j < (extent v d).len
  holds : Holds v.dev s.cache
  len : s.extentLen = (extent v d).len - 0x20 * j
  next : s.extentNextCluster = (extent v d).next
  place : ∀ i, v.seen (s.extentOffset + i) = v.seen ((extent v d).offset + 0x20 * j + i)

theorem Starts.before {d : Nat} {s : State} (h : Starts v (extent v d) s)
    (hlen : (extent v d).len ≠ 0) : Before v d 0 s where
  inside := by omega
  holds := h.holds
  len := h.len
  next := h.next
  place i := by rw [h.offset hlen, Nat.mul_zero, Nat.add_zero]

/-- What boot sectors give: entries do not straddle clusters. -/
def Volume.Even (v : Volume) : Prop := v.bytesPerCluster % 0x20 = 0

theorem extentLoop_even (hv : v.Even) :
    ∀ (fuel cluster len : Nat), len % 0x20 = 0 → (extentLoop v fuel cluster len).1 % 0x20 = 0 := by
  intro fuel
  induction fuel with
  | zero => intro cluster len hlen; exact hlen
  | succ fuel ih =>
      intro cluster len hlen
      have heven : u32 (len + v.bytesPerCluster) % 0x20 = 0 := by
        unfold Volume.Even at hv
        unfold u32
        omega
      rw [extentLoop]
      split
      · exact heven
      split
      · exact heven
      · exact ih _ _ heven

theorem extent_even (hv : v.Even) (d : Nat) : (extent v d).len % 0x20 = 0 := by
  unfold extent
  split
  · show u32 (0x20 * v.rootEntries) % 0x20 = 0
    unfold u32
    omega
  dsimp only
  split
  · rfl
  · exact extentLoop_even hv _ _ _ rfl

/-- The number of entries of an extent. -/
def entries (v : Volume) (d : Nat) : Nat := (extent v d).len / 0x20

/-- Where the scan stands after it has read entry `j` of the extent at `d`. -/
def After (v : Volume) (d j : Nat) (s : State) : Prop :=
  if j + 1 < entries v d then Before v d (j + 1) s
  else if (extent v d).next = 0 then s.extentLen = 0 ∧ Holds v.dev s.cache
  else Starts v (extent v (extent v d).next) s

theorem before_read (hv : v.Even) (hfull : ∀ k t, v.dev.answer k t = .full) {d j : Nat} {s : State}
    (h : Before v d j s) :
    (readExtent v 0 0x20 (fun _ => 0) s).err = 0 ∧
      (readExtent v 0 0x20 (fun _ => 0) s).mem = entryIn v d j ∧
      After v d j (readExtent v 0 0x20 (fun _ => 0) s).st := by
  have heven := extent_even hv d
  have hin := h.inside
  have hlen := h.len
  obtain ⟨herr, hmem, hhold⟩ := read_seen hfull 0 s.extentOffset (fun _ => 0)
    (show 0x20 < 0x200 by decide) h.holds
  have heq : readExtent v 0 0x20 (fun _ => 0) s =
      ⟨0, (read v 0 s.extentOffset 0x20 (fun _ => 0) s.cache).mem,
        refill v (s.advance 0x20 (read v 0 s.extentOffset 0x20 (fun _ => 0) s.cache).cache)⟩ := by
    unfold readExtent
    rw [readExtentLoop, if_neg (by decide), if_neg (by omega), Nat.min_eq_left (by omega)]
    dsimp only
    rw [if_neg (by simp [herr])]
    rfl
  rw [heq]
  refine ⟨rfl, ?_, ?_⟩
  · show (read v 0 s.extentOffset 0x20 (fun _ => 0) s.cache).mem = _
    rw [hmem]
    exact Mem.store_congr _ _ fun i _ => h.place i
  · show After v d j (refill v (s.advance 0x20 _))
    have hleft : (s.advance 0x20 (read v 0 s.extentOffset 0x20 (fun _ => 0) s.cache).cache).extentLen
        = (extent v d).len - 0x20 * (j + 1) := by
      show s.extentLen - 0x20 = _
      omega
    unfold After refill entries
    rw [hleft]
    by_cases hmore : j + 1 < (extent v d).len / 0x20
    · rw [if_pos hmore, if_neg (by omega)]
      refine ⟨by omega, hhold, hleft, h.next, fun i => ?_⟩
      show v.seen (u64 (s.extentOffset + 0x20) + i) = _
      rw [Volume.seen_u64, Nat.add_assoc, h.place]
      congr 1
      omega
    · rw [if_neg hmore]
      by_cases hnext : (extent v d).next = 0
      · rw [if_pos hnext, if_neg (fun hc => hc.2 (h.next.trans hnext))]
        refine ⟨?_, hhold⟩
        rw [hleft]
        omega
      · have hgo : (extent v d).len - 0x20 * (j + 1) = 0 ∧
            (s.advance 0x20 (read v 0 s.extentOffset 0x20 (fun _ => 0) s.cache).cache).extentNextCluster
              ≠ 0 := by
          refine ⟨by omega, ?_⟩
          show s.extentNextCluster ≠ 0
          rw [h.next]
          exact hnext
        rw [if_neg hnext, if_pos hgo]
        have hcl : (s.advance 0x20
            (read v 0 s.extentOffset 0x20 (fun _ => 0) s.cache).cache).extentNextCluster
              = (extent v d).next := h.next
        rw [hcl]
        exact getExtent_starts hfull _ hhold

theorem before_read_holds (hv : v.Even) (hfull : ∀ k t, v.dev.answer k t = .full) {d j : Nat}
    {s : State} (h : Before v d j s) :
    Holds v.dev (readExtent v 0 0x20 (fun _ => 0) s).st.cache := by
  obtain ⟨-, -, hafter⟩ := before_read hv hfull h
  unfold After at hafter
  split at hafter
  · exact hafter.holds
  split at hafter
  · exact hafter.2
  · exact hafter.holds

/-! ### Extents that are passed -/

section Scan

variable {name : List UInt8} {m : Bool}

/-- The scan goes on after entry `j` of the extent at `d`. -/
def Passed (v : Volume) (name : List UInt8) (m : Bool) (d j : Nat) : Prop :=
  entryIn v d j 0 ≠ 0 ∧ entryMatches name m (entryIn v d j) = false

/-- The extent at `d` has entries, and the scan goes on after each of them. -/
def Quiet (v : Volume) (name : List UInt8) (m : Bool) (d : Nat) : Prop :=
  0 < entries v d ∧ ∀ j < entries v d, Passed v name m d j

theorem scan_before (hv : v.Even) (hfull : ∀ k t, v.dev.answer k t = .full) {d j : Nat} {s : State}
    (h : Before v d j s) (fuel : Nat) :
    scan v name m (fuel + 1) s =
      (let s' := (readExtent v 0 0x20 (fun _ => 0) s).st
       if entryIn v d j 0 = 0 then some (.returned (-1), s')
       else if entryMatches name m (entryIn v d j) then some (.found (entryIn v d j), s')
       else scan v name m fuel s') := by
  obtain ⟨herr, hmem, -⟩ := before_read hv hfull h
  have hlen : s.extentLen ≠ 0 := by
    have h₁ := h.len
    have h₂ := h.inside
    omega
  rw [scan, if_neg hlen]
  dsimp only
  rw [if_neg (by simp [herr]), hmem]

theorem scan_passed (hv : v.Even) (hfull : ∀ k t, v.dev.answer k t = .full) {d j : Nat} {s : State}
    (h : Before v d j s) (hp : Passed v name m d j) (fuel : Nat) :
    scan v name m (fuel + 1) s = scan v name m fuel (readExtent v 0 0x20 (fun _ => 0) s).st := by
  rw [scan_before hv hfull h]
  dsimp only
  rw [if_neg hp.1, if_neg (by simp [hp.2])]

/-- Passing the first entries of an extent takes one unit of fuel for each. -/
theorem scan_to (hv : v.Even) (hfull : ∀ k t, v.dev.answer k t = .full) {d : Nat} {s : State}
    (h : Before v d 0 s) :
    ∀ j, j < entries v d → (∀ i < j, Passed v name m d i) →
      ∃ s', Before v d j s' ∧ ∀ fuel, scan v name m (fuel + j) s = scan v name m fuel s' := by
  intro j
  induction j with
  | zero => intro _ _; exact ⟨s, h, fun _ => rfl⟩
  | succ j ih =>
      intro hj hpass
      obtain ⟨s', hbefore, hscan⟩ := ih (by omega) fun i hi => hpass i (by omega)
      obtain ⟨-, -, hafter⟩ := before_read hv hfull hbefore
      unfold After at hafter
      rw [if_pos hj] at hafter
      refine ⟨_, hafter, fun fuel => ?_⟩
      rw [← scan_passed hv hfull hbefore (hpass j (Nat.lt_succ_self j)), ← hscan,
        Nat.add_right_comm, Nat.add_assoc]

/-- Where the scan stands once it has passed the extent at `d`. -/
def Leaves (v : Volume) (d : Nat) (s : State) : Prop :=
  if (extent v d).next = 0 then s.extentLen = 0 ∧ Holds v.dev s.cache
  else Starts v (extent v (extent v d).next) s

theorem Quiet.len_ne {d : Nat} (h : Quiet v name m d) : (extent v d).len ≠ 0 := by
  have hpos := h.1
  unfold entries at hpos
  omega

/-- A quiet extent is passed, and no scan ends inside it. -/
theorem scan_quiet (hv : v.Even) (hfull : ∀ k t, v.dev.answer k t = .full) {d : Nat} {s : State}
    (h : Starts v (extent v d) s) (hq : Quiet v name m d) :
    ∃ s', Leaves v d s' ∧
      (∀ fuel, scan v name m (fuel + entries v d) s = scan v name m fuel s') ∧
      ∀ fuel ≤ entries v d, scan v name m fuel s = none := by
  have hbefore := h.before hq.len_ne
  obtain ⟨j, hj⟩ : ∃ j, entries v d = j + 1 := ⟨entries v d - 1, by have := hq.1; omega⟩
  obtain ⟨s', hlast, hscan⟩ := scan_to hv hfull hbefore j (by omega) fun i hi => hq.2 i (by omega)
  obtain ⟨-, -, hafter⟩ := before_read hv hfull hlast
  unfold After at hafter
  rw [if_neg (by omega)] at hafter
  have hpass := scan_passed hv hfull hlast (hq.2 j (by omega))
  have hend : ∀ fuel, scan v name m (fuel + entries v d) s
      = scan v name m fuel (readExtent v 0 0x20 (fun _ => 0) s').st := by
    intro fuel
    rw [hj, ← hpass, ← hscan, Nat.add_right_comm, Nat.add_assoc]
  refine ⟨_, hafter, hend, ?_⟩
  intro fuel hfuel
  rcases Nat.lt_or_eq_of_le hfuel with hlt | heq
  · obtain ⟨t, -, ht⟩ := scan_to hv hfull hbefore fuel hlt fun i hi => hq.2 i (by omega)
    rw [← Nat.zero_add fuel, ht]
    rfl
  · rw [heq, ← Nat.zero_add (entries v d), hend]
    rfl

/-! ### How a scan ends -/

/-- The scan of the directory at `c` ends in the way `r`. -/
inductive Ends (v : Volume) (name : List UInt8) (m : Bool) : Nat → ScanEnd → Prop
  | zero {c j : Nat} (hj : j < entries v c) (hpass : ∀ i < j, Passed v name m c i)
      (hz : entryIn v c j 0 = 0) : Ends v name m c (.returned (-1))
  | found {c j : Nat} (hj : j < entries v c) (hpass : ∀ i < j, Passed v name m c i)
      (hz : entryIn v c j 0 ≠ 0) (hm : entryMatches name m (entryIn v c j) = true) :
      Ends v name m c (.found (entryIn v c j))
  | empty {c : Nat} (hlen : (extent v c).len = 0) : Ends v name m c .exhausted
  | last {c : Nat} (hq : Quiet v name m c) (hnext : (extent v c).next = 0) :
      Ends v name m c .exhausted
  | next {c : Nat} {r : ScanEnd} (hq : Quiet v name m c) (hnext : (extent v c).next ≠ 0)
      (h : Ends v name m (extent v c).next r) : Ends v name m c r

/-- The scan comes from the extent at `c` to the one at `d`, through quiet ones. -/
inductive Walk (v : Volume) (name : List UInt8) (m : Bool) : Nat → Nat → Prop
  | here (c : Nat) : Walk v name m c c
  | next {c d : Nat} (hq : Quiet v name m c) (hnext : (extent v c).next ≠ 0)
      (h : Walk v name m (extent v c).next d) : Walk v name m c d

/-- The chain comes back to an extent, and no entry on the way would stop the scan. -/
def Endless (v : Volume) (name : List UInt8) (m : Bool) (c : Nat) : Prop :=
  ∃ d, Walk v name m c d ∧ Quiet v name m d ∧ (extent v d).next ≠ 0 ∧
    Walk v name m (extent v d).next d

theorem scan_empty {s : State} (h : s.extentLen = 0) (fuel : Nat) :
    scan v name m (fuel + 1) s = some (.exhausted, s) := by
  rw [scan, if_pos h]

/-- Fuel is only a bound. -/
theorem scan_unique {fuel fuel' : Nat} {s : State} {r r' : ScanEnd × State}
    (h : scan v name m fuel s = some r) (h' : scan v name m fuel' s = some r') : r = r' := by
  have hle := scan_mono h (Nat.le_max_left fuel fuel')
  have hle' := scan_mono h' (Nat.le_max_right fuel fuel')
  exact Option.some.inj (hle.symm.trans hle')

theorem scan_ends (hv : v.Even) (hfull : ∀ k t, v.dev.answer k t = .full) {c : Nat} {r : ScanEnd}
    (h : Ends v name m c r) :
    ∀ s, Starts v (extent v c) s →
      ∃ fuel s', scan v name m fuel s = some (r, s') ∧ Holds v.dev s'.cache := by
  induction h with
  | @zero c j hj hpass hz =>
      intro s hs
      obtain ⟨s', hat, hscan⟩ := scan_to hv hfull (hs.before (by unfold entries at hj; omega)) j hj
        hpass
      refine ⟨1 + j, _, ?_, (before_read_holds hv hfull hat)⟩
      rw [hscan, scan_before hv hfull hat]
      exact if_pos hz
  | @found c j hj hpass hz hm =>
      intro s hs
      obtain ⟨s', hat, hscan⟩ := scan_to hv hfull (hs.before (by unfold entries at hj; omega)) j hj
        hpass
      refine ⟨1 + j, _, ?_, (before_read_holds hv hfull hat)⟩
      rw [hscan, scan_before hv hfull hat]
      dsimp only
      rw [if_neg hz, if_pos hm]
  | empty hlen =>
      intro s hs
      exact ⟨1, s, scan_empty (hs.len.trans hlen) 0, hs.holds⟩
  | @last c hq hnext =>
      intro s hs
      obtain ⟨s', hleave, hscan, -⟩ := scan_quiet hv hfull hs hq
      unfold Leaves at hleave
      rw [if_pos hnext] at hleave
      refine ⟨1 + entries v c, s', ?_, hleave.2⟩
      rw [hscan]
      exact scan_empty hleave.1 0
  | @next c r hq hnext _ ih =>
      intro s hs
      obtain ⟨s', hleave, hscan, -⟩ := scan_quiet hv hfull hs hq
      unfold Leaves at hleave
      rw [if_neg hnext] at hleave
      obtain ⟨fuel, t, hend, hhold⟩ := ih s' hleave
      refine ⟨fuel + entries v c, t, ?_, hhold⟩
      rw [hscan, hend]

/-- Walking takes fuel, and gives no result. -/
theorem scan_walk (hv : v.Even) (hfull : ∀ k t, v.dev.answer k t = .full) {c d : Nat}
    (h : Walk v name m c d) :
    ∀ s, Starts v (extent v c) s →
      ∃ n s', Starts v (extent v d) s' ∧
        (∀ fuel, scan v name m (fuel + n) s = scan v name m fuel s') ∧
        ∀ fuel ≤ n, scan v name m fuel s = none := by
  induction h with
  | here c =>
      intro s hs
      refine ⟨0, s, hs, fun _ => rfl, fun fuel hfuel => ?_⟩
      rw [Nat.le_zero.mp hfuel]
      rfl
  | @next c d hq hnext _ ih =>
      intro s hs
      obtain ⟨s', hleave, hscan, hnone⟩ := scan_quiet hv hfull hs hq
      unfold Leaves at hleave
      rw [if_neg hnext] at hleave
      obtain ⟨n, t, ht, hgo, hstop⟩ := ih s' hleave
      refine ⟨n + entries v c, t, ht, fun fuel => ?_, fun fuel hfuel => ?_⟩
      · rw [← Nat.add_assoc, hscan, hgo]
      · rcases Nat.le_total fuel (entries v c) with hle | hge
        · exact hnone fuel hle
        · obtain ⟨k, rfl⟩ := Nat.exists_eq_add_of_le' hge
          rw [hscan]
          exact hstop k (by omega)

/-- A scan on a chain that comes back goes round it until the fuel runs out. -/
theorem scan_round (hv : v.Even) (hfull : ∀ k t, v.dev.answer k t = .full) {d : Nat}
    (hq : Quiet v name m d) (hnext : (extent v d).next ≠ 0)
    (hwalk : Walk v name m (extent v d).next d) :
    ∀ fuel s, Starts v (extent v d) s → scan v name m fuel s = none := by
  intro fuel
  induction fuel using Nat.strong_induction_on with
  | _ fuel ih =>
      intro s hs
      obtain ⟨s', hleave, hscan, hnone⟩ := scan_quiet hv hfull hs hq
      unfold Leaves at hleave
      rw [if_neg hnext] at hleave
      obtain ⟨n, t, ht, hgo, hstop⟩ := scan_walk hv hfull hwalk s' hleave
      rcases Nat.le_total fuel (entries v d) with hle | hge
      · exact hnone fuel hle
      obtain ⟨k, rfl⟩ := Nat.exists_eq_add_of_le' hge
      rw [hscan]
      rcases Nat.le_total k n with hle | hge
      · exact hstop k hle
      obtain ⟨l, rfl⟩ := Nat.exists_eq_add_of_le' hge
      rw [hgo]
      have hpos := hq.1
      exact ih l (by omega) t ht

theorem scan_endless (hv : v.Even) (hfull : ∀ k t, v.dev.answer k t = .full) {c : Nat}
    (h : Endless v name m c) (fuel : Nat) {s : State} (hs : Starts v (extent v c) s) :
    scan v name m fuel s = none := by
  obtain ⟨d, hwalk, hq, hnext, hback⟩ := h
  obtain ⟨n, t, ht, hgo, hstop⟩ := scan_walk hv hfull hwalk s hs
  rcases Nat.le_total fuel n with hle | hge
  · exact hstop fuel hle
  obtain ⟨k, rfl⟩ := Nat.exists_eq_add_of_le' hge
  rw [hgo]
  exact scan_round hv hfull hq hnext hback k t ht

/-! ### Every chain ends or comes back -/

/-- A scan that does not end in an extent passes it. -/
theorem quiet_of_not_ends (hv : v.Even) {c : Nat} (h : ∀ r, ¬Ends v name m c r) :
    Quiet v name m c ∧ (extent v c).next ≠ 0 := by
  have hlen : (extent v c).len ≠ 0 := fun hlen => h _ (.empty hlen)
  have hpass : ∀ j < entries v c, Passed v name m c j := by
    intro j
    induction j using Nat.strong_induction_on with
    | _ j ih =>
        intro hj
        have hbefore : ∀ i < j, Passed v name m c i := fun i hi => ih i hi (by omega)
        refine ⟨fun hz => h _ (.zero hj hbefore hz), ?_⟩
        by_contra hm
        exact h _ (.found hj hbefore (fun hz => h _ (.zero hj hbefore hz))
          (Bool.eq_true_of_not_eq_false hm))
  have hq : Quiet v name m c := by
    refine ⟨?_, hpass⟩
    have heven := extent_even hv c
    unfold entries
    omega
  exact ⟨hq, fun hnext => h _ (.last hq hnext)⟩

/-- The extent `k` links behind the one at `c`. -/
def follow (v : Volume) (c : Nat) : Nat → Nat
  | 0 => c
  | k + 1 => (extent v (follow v c k)).next

theorem not_ends_follow (hv : v.Even) {c : Nat} (h : ∀ r, ¬Ends v name m c r) :
    ∀ k r, ¬Ends v name m (follow v c k) r := by
  intro k
  induction k with
  | zero => exact h
  | succ k ih =>
      intro r hr
      obtain ⟨hq, hnext⟩ := quiet_of_not_ends hv ih
      exact ih r (.next hq hnext hr)

theorem walk_follow (hv : v.Even) {c : Nat} (h : ∀ r, ¬Ends v name m c r) (i : Nat) :
    ∀ k, Walk v name m (follow v c i) (follow v c (i + k)) := by
  intro k
  induction k generalizing i with
  | zero => exact .here _
  | succ k ih =>
      obtain ⟨hq, hnext⟩ := quiet_of_not_ends hv (not_ends_follow hv h i)
      refine .next hq hnext ?_
      rw [← Nat.add_assoc, Nat.add_right_comm]
      exact ih (i + 1)

/-- **A scan ends, or its chain comes back**: there are no more than 2^28 clusters to link to. -/
theorem ends_or_endless (hv : v.Even) (c : Nat) :
    (∃ r, Ends v name m c r) ∨ Endless v name m c := by
  by_contra hcon
  have h : ∀ r, ¬Ends v name m c r := fun r hr => hcon (Or.inl ⟨r, hr⟩)
  obtain ⟨i, j, hne, heq⟩ := Finite.exists_ne_map_eq_of_infinite
    fun k => (⟨follow v c (k + 1), extent_next_lt v _⟩ : Fin (2 ^ 28))
  have heq : follow v c (i + 1) = follow v c (j + 1) := congrArg Fin.val heq
  -- the two places in the order of the chain
  obtain ⟨a, k, hk⟩ : ∃ a k, follow v c a = follow v c (a + k + 1) := by
    rcases Nat.lt_or_gt_of_ne hne with hlt | hgt
    · exact ⟨i + 1, j - i - 1, by rw [heq]; congr 1; omega⟩
    · exact ⟨j + 1, i - j - 1, by rw [← heq]; congr 1; omega⟩
  obtain ⟨hq, hnext⟩ := quiet_of_not_ends hv (not_ends_follow hv h a)
  refine hcon (Or.inr ⟨follow v c a, ?_, hq, hnext, ?_⟩)
  · have := walk_follow hv h 0 a
    rwa [Nat.zero_add] at this
  · have := walk_follow hv h (a + 1) k
    rw [Nat.add_right_comm, ← hk] at this
    exact this

end Scan

/-! ### Paths -/

/-- The directories `fat_open` comes to: looking up `p` in the directory at `c`, it goes on to
look up `p'` in the one at `c'`.  A component that is not there is skipped. -/
inductive Visits (v : Volume) : List UInt8 → Nat → List UInt8 → Nat → Prop
  | here (p : List UInt8) (c : Nat) : Visits v p c p c
  | found {p p' : List UInt8} {c c' : Nat} {e : Mem UInt8} (hne : peek p ≠ 0)
      (hmore : more p = true) (h : Ends v (parseComponent p).1 (more p) c (.found e))
      (hrest : Visits v (parseComponent p).2 (dirCluster v e) p' c') : Visits v p c p' c'
  | skipped {p p' : List UInt8} {c c' : Nat} (hne : peek p ≠ 0)
      (h : Ends v (parseComponent p).1 (more p) c .exhausted)
      (hrest : Visits v (parseComponent p).2 c p' c') : Visits v p c p' c'

/-- The image leads a path into a directory whose scan does not end. -/
def Traps (v : Volume) (p : List UInt8) (c : Nat) : Prop :=
  ∃ p' c', Visits v p c p' c' ∧ peek p' ≠ 0 ∧ Endless v (parseComponent p').1 (more p') c'

theorem fatOpenLoop_trapped (hv : v.Even) (hfull : ∀ k t, v.dev.answer k t = .full)
    {p p' : List UInt8} {c c' : Nat} (hvis : Visits v p c p' c') (hne' : peek p' ≠ 0)
    (hend : Endless v (parseComponent p').1 (more p') c') :
    ∀ (n fuel : Nat) (s : State), Holds v.dev s.cache → fatOpenLoop v fuel n p c s = none := by
  induction hvis with
  | here p c =>
      intro n fuel s hs
      cases n with
      | zero => rfl
      | succ n =>
          rw [fatOpenLoop_succ v fuel n c s hne',
            scan_endless hv hfull hend fuel (getExtent_starts hfull c hs)]
  | @found p p' c c' e hne hmore h _ ih =>
      intro n fuel s hs
      cases n with
      | zero => rfl
      | succ n =>
          obtain ⟨N, s', hscan, hs'⟩ := scan_ends hv hfull h _ (getExtent_starts hfull c hs)
          rw [fatOpenLoop_succ v fuel n c s hne]
          cases hfuel : scan v (parseComponent p).1 (more p) fuel (getExtent v c s) with
          | none => rfl
          | some r =>
              obtain rfl := scan_unique hfuel hscan
              dsimp only
              rw [if_neg (more_eq_true.mp hmore)]
              exact ih hne' hend n fuel s' hs'
  | @skipped p p' c c' hne h _ ih =>
      intro n fuel s hs
      cases n with
      | zero => rfl
      | succ n =>
          obtain ⟨N, s', hscan, hs'⟩ := scan_ends hv hfull h _ (getExtent_starts hfull c hs)
          rw [fatOpenLoop_succ v fuel n c s hne]
          cases hfuel : scan v (parseComponent p).1 (more p) fuel (getExtent v c s) with
          | none => rfl
          | some r =>
              obtain rfl := scan_unique hfuel hscan
              exact ih hne' hend n fuel s' hs'

theorem fatOpenLoop_returns_of_not_traps (hv : v.Even) (hfull : ∀ k t, v.dev.answer k t = .full) :
    ∀ (n : Nat) (p : List UInt8) (c : Nat) (s : State), p.length < n → Holds v.dev s.cache →
      ¬Traps v p c → ∃ N r, ∀ fuel ≥ N, fatOpenLoop v fuel n p c s = some r := by
  intro n
  induction n with
  | zero => intro p c s hn; omega
  | succ n ih =>
      intro p c s hn hs hnot
      by_cases hne : peek p = 0
      · refine ⟨0, (-1, s), fun fuel _ => ?_⟩
        rw [fatOpenLoop, if_pos hne]
      have hshort := parseComponent_length hne
      have hends : ∃ r, Ends v (parseComponent p).1 (more p) c r :=
        (ends_or_endless hv c).resolve_right fun h => hnot ⟨p, c, .here p c, hne, h⟩
      obtain ⟨r, hr⟩ := hends
      obtain ⟨N, s', hscan, hs'⟩ := scan_ends hv hfull hr _ (getExtent_starts hfull c hs)
      have hgo : ∀ fuel ≥ N, scan v (parseComponent p).1 (more p) fuel (getExtent v c s)
          = some (r, s') := fun fuel hfuel => scan_mono hscan hfuel
      cases r with
      | returned err =>
          exact ⟨N, (err, s'), fun fuel hfuel => fatOpenLoop_returned hne (hgo fuel hfuel)⟩
      | exhausted =>
          obtain ⟨N', r', hloop⟩ := ih (parseComponent p).2 c s' (by omega) hs' (by
            rintro ⟨p', c', hvis, htrap⟩
            exact hnot ⟨p', c', .skipped hne hr hvis, htrap⟩)
          refine ⟨max N N', r', fun fuel hfuel => ?_⟩
          rw [fatOpenLoop_exhausted hne (hgo fuel (by omega))]
          exact hloop fuel (by omega)
      | found e =>
          by_cases hmore : peek (parseComponent p).2 = 0
          · refine ⟨N, (0, opened v e s'), fun fuel hfuel => ?_⟩
            exact fatOpenLoop_last hne (more_eq_false.mpr hmore) (hgo fuel hfuel)
          · obtain ⟨N', r', hloop⟩ := ih (parseComponent p).2 (dirCluster v e) s' (by omega) hs' (by
              rintro ⟨p', c', hvis, htrap⟩
              exact hnot ⟨p', c', .found hne (more_eq_true.mpr hmore) hr hvis, htrap⟩)
            refine ⟨max N N', r', fun fuel hfuel => ?_⟩
            rw [fatOpenLoop_sub hne (more_eq_true.mpr hmore) (hgo fuel (by omega))]
            exact hloop fuel (by omega)

/-! ### The volumes there are -/

/-- A power of two that is large enough: a low bit below the highest one would survive. -/
theorem mod_eq_zero_of_and {n : Nat} (hn : 0x20 ≤ n) (h : n &&& (n - 1) = 0) : n % 0x20 = 0 := by
  by_contra hne
  have hdiv : (n &&& (n - 1)) / 2 ^ 5 = n / 2 ^ 5 &&& (n - 1) / 2 ^ 5 := Nat.and_div_two_pow
  rw [h, show (n - 1) / 2 ^ 5 = n / 2 ^ 5 by omega, Nat.and_self] at hdiv
  omega

theorem isFatFs_sector {p : Mem UInt8} {sb : Nat} (h : isFatFs p sb = true) :
    le16 p (sb + 0x0b) % 0x20 = 0 := by
  unfold isFatFs at h
  dsimp only at h
  split at h
  · simp at h
  · rename_i hbps
    simp only [not_or, not_lt, not_not] at hbps
    exact mod_eq_zero_of_and (by omega) hbps.2.2

theorem fatInitFs_even {v₀ : Volume} {p : Mem UInt8} {sb : Nat} (hfat : isFatFs p sb = true)
    (h : fatInitFs v₀ p sb = some v) : v.Even := by
  have hsector := isFatFs_sector hfat
  unfold fatInitFs at h
  dsimp only at h
  split at h
  · simp at h
  · cases h
    show u32 (le16 p (sb + 0x0b) * (p (sb + 0x0d)).toNat) % 0x20 = 0
    have hprod : le16 p (sb + 0x0b) * (p (sb + 0x0d)).toNat % 0x20 = 0 := by
      rw [Nat.mul_mod, hsector, Nat.zero_mul]
    unfold u32
    omega

/-- What `fat_init` mounts has clusters that entries do not straddle. -/
theorem fatInit_even {rawBufAddr buf : Nat} {dev : Bdev} {p : Mem UInt8} {c : Cache}
    (h : (fatInit rawBufAddr dev buf p c).vol = some v) : v.Even := by
  unfold fatInit at h
  dsimp only at h
  split at h
  · simp at h
  split at h
  · simp at h
  split at h
  · rename_i hfat
    exact fatInitFs_even hfat h
  split at h
  · simp at h
  split at h
  · simp at h
  split at h
  · rename_i hfat
    exact fatInitFs_even hfat h
  · simp at h

/--
**`fat_open` returns exactly if the path is not led into a trap.**  On a volume as boot sectors
describe it, with a device that answers every request, some number of directory entries is
enough for every scan it makes, unless one of the directories it comes to has a chain of
extents that goes round and no entry on it that matches or starts with a zero.
-/
theorem fatOpen_returns_iff (v : Volume) (hv : v.Even) (hfull : ∀ k t, v.dev.answer k t = .full)
    (path : List UInt8) (s : State) (hs : Holds v.dev s.cache) :
    (∃ N r, ∀ fuel ≥ N, fatOpen v fuel path s = some r) ↔ ¬Traps v path 0 := by
  constructor
  · rintro ⟨N, r, hopen⟩ ⟨p', c', hvis, hne, hend⟩
    have hnone := fatOpenLoop_trapped hv hfull hvis hne hend (path.length + 1) N s hs
    have hsome := hopen N (Nat.le_refl N)
    unfold fatOpen at hsome
    rw [hnone] at hsome
    simp at hsome
  · exact fatOpenLoop_returns_of_not_traps hv hfull (path.length + 1) path 0 s
      (Nat.lt_succ_self _) hs

/-- A sector that holds nothing but zeros is the one `current` starts at. -/
theorem fresh_holds {dev : Bdev} (h : ∀ i < 0x200, dev.disk (0x200 * (2 ^ 32 - 1) + i) = 0) :
    Holds dev State.fresh.cache := by
  intro i hi
  exact (h i hi).symm

/-- The stick, with nothing behind its two clusters. -/
def shortStick : Volume :=
  { stick with dev := answering fun a => if a < 0xa00 then stickDisk a else 0 }

/-- The root directory of the stick is an area, and areas have no next cluster. -/
theorem shortStick_not_traps : ¬Traps shortStick xenonPath 0 := by
  rintro ⟨p', c', hvis, hne, d, hwalk, -, hnext, -⟩
  cases hvis with
  | here =>
      cases hwalk with
      | here => exact hnext (by decide)
      | next _ h _ => exact h (by decide)
  | found _ hmore _ _ => exact absurd hmore (by decide)
  | skipped _ _ hrest =>
      -- nothing of the path is left
      cases hrest with
      | here => exact hne (by decide)
      | found h _ _ _ => exact h (by decide)
      | skipped h _ _ => exact h (by decide)

theorem shortStick_fatOpen_returns :
    ∃ N r, ∀ fuel ≥ N, fatOpen shortStick fuel xenonPath State.fresh = some r := by
  refine (fatOpen_returns_iff shortStick rfl (fun _ _ => rfl) xenonPath State.fresh
    (fresh_holds fun i _ => ?_)).mpr shortStick_not_traps
  exact if_neg (by omega)

/-- A stick whose root directory names a directory `A` at cluster 2, a cluster that follows
itself and holds nothing but deleted entries. -/
def ringStick : Volume :=
  { stick with
    dev := answering fun a =>
      if a < 0x400 then ([0xf0, 0xff, 0xff, 0x02, 0xf0, 0xff] : List UInt8).getD (a - 0x200) 0
      else if a < 0x600 then
        (dirEntry (0x41 :: List.replicate 10 0x20) 0x10 2 0).getD (a - 0x400) 0
      else if a < 0x800 then 0xe5
      else 0 }

/-- The path `a/b`. -/
def ringPath : List UInt8 := [0x61, 0x2f, 0x62]

theorem ringStick_visits : Visits ringStick ringPath 0 [0x2f, 0x62] 2 := by
  have hends : Ends ringStick (parseComponent ringPath).1 (more ringPath) 0
      (.found (entryIn ringStick 0 0)) :=
    .found (by decide +kernel) (by omega) (by decide +kernel) (by decide +kernel)
  exact .found (by decide) (by decide) hends (.here _ _)

theorem ringStick_endless :
    Endless ringStick (parseComponent [0x2f, 0x62]).1 (more [0x2f, 0x62]) 2 := by
  refine ⟨2, .here 2, ⟨by decide +kernel, ?_⟩, by decide +kernel, .here 2⟩
  unfold Passed
  decide +kernel

/-- The path is followed round that cluster for as long as there is fuel. -/
theorem ringStick_never_opens :
    ¬ ∃ fuel r, fatOpen ringStick fuel ringPath State.fresh = some r := by
  rintro ⟨fuel, r, hr⟩
  have hnone : fatOpen ringStick fuel ringPath State.fresh = none := by
    refine fatOpenLoop_trapped (v := ringStick) rfl (fun _ _ => rfl) ringStick_visits (by decide)
      ringStick_endless _ fuel State.fresh (fresh_holds fun i _ => ?_)
    show (if _ then _ else _) = _
    rw [if_neg (by omega), if_neg (by omega), if_neg (by omega)]
  rw [hnone] at hr
  cases hr

end Xell.Fat
