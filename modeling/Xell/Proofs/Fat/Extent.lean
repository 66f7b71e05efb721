/-
`read_extent` delivers a stream.

The three globals `extent_offset`, `extent_len` and `extent_next_cluster` stand for
everything that is still to be read: first the rest of the current extent, then the
whole chain from the next cluster on.  `remaining` is that reading of a state, a
partial function from places to positions in the partition.

Two theorems carry the layer.  `getExtent_full`: after `get_extent(c)` what remains
is the chain of `c` (or the root area).  `readExtent_full`: reading `len` bytes stores
the first `len` bytes of what remains, drops them from it, and reports an error
exactly when there are not that many.  Neither mentions how the chain was cut into
extents or the total into calls, which is why the bytes delivered do not depend on it.
-/
import Xell.Proofs.Fat.Chain

namespace Xell.Fat

/-! ### Streams of positions -/

/-- Byte `j` of the chain from `c`: its position in the partition. -/
def chainLoc (v : Volume) (c j : Nat) : Option Nat :=
  (chainAt v (j / v.bytesPerCluster) c).map fun d =>
    v.clusterOffset d + j % v.bytesPerCluster

/-- The cluster a chain starts at: for `fat_type` 32, zero stands for the root directory. -/
def startCluster (v : Volume) (c : Nat) : Nat := if c = 0 then u32 v.rootOffset else c

/-- The root directory of a FAT12 or FAT16 volume is an area of its own. -/
def isRootArea (v : Volume) (c : Nat) : Prop := c = 0 ∧ v.fatType ≠ .fat32

instance (v : Volume) (c : Nat) : Decidable (isRootArea v c) :=
  inferInstanceAs (Decidable (_ ∧ _))

/-- Byte `j` of the file or directory whose start cluster field is `c`. -/
def startLoc (v : Volume) (c j : Nat) : Option Nat :=
  if isRootArea v c then
    if j < 0x20 * v.rootEntries then some (v.rootOffset + j) else none
  else chainLoc v (startCluster v c) j

/-- What is assumed of the sectors behind a start cluster field. -/
def StartOK (v : Volume) (c : Nat) : Prop :=
  if isRootArea v c then v.InRange v.rootOffset (0x20 * v.rootEntries)
  else ChainOK v (startCluster v c)

/-- Everything that is still to be read. -/
def remaining (v : Volume) (s : State) (j : Nat) : Option Nat :=
  if j < s.extentLen then some (s.extentOffset + j)
  else if s.extentNextCluster = 0 then none
  else chainLoc v s.extentNextCluster (j - s.extentLen)

/-- What holds of the state between calls. -/
structure Ready (v : Volume) (s : State) : Prop where
  coherent : Coherent v.dev s.cache
  extent : s.extentLen ≠ 0 → v.InRange s.extentOffset s.extentLen
  /-- A next cluster is only ever kept while the current extent is not used up. -/
  next : s.extentNextCluster ≠ 0 →
    s.extentLen ≠ 0 ∧ s.extentNextCluster < 2 ^ 32 ∧ ChainOK v s.extentNextCluster

/-- A volume of less than 4 GB whose sectors all have numbers meets every assumption. -/
theorem ChainOK.of_volume {v : Volume} (hv : v.OK) {c : Nat} (hc : c < 2 ^ 32)
    (hfat : v.InRange v.fatOffset (2 ^ 29 + 4))
    (hdata : v.InRange v.dataOffset (v.bytesPerCluster * v.clusters))
    (hsize : v.clusters * v.bytesPerCluster < 2 ^ 32) : ChainOK v c := by
  have hlt : ∀ i d, chainAt v i c = some d → d < 2 ^ 32 := by
    intro i d h
    cases i with
    | zero =>
        rw [chainAt_zero (valid_of_chainAt h), Option.some.injEq] at h
        omega
    | succ i =>
        have := chainAt_succ_lt h
        omega
  refine ⟨fun i d _ => ?_, fun i d h => ?_, fun i n d h => ?_⟩
  · have hbits : v.entryBits d < 2 ^ 32 := Nat.mod_lt _ (by decide)
    unfold Volume.InRange at hfat ⊢
    omega
  · have hd : sub32 d 2 < v.clusters := chainAt_valid h
    have hmul : v.bytesPerCluster * (sub32 d 2 + 1) ≤ v.bytesPerCluster * v.clusters :=
      Nat.mul_le_mul_left _ hd
    rw [Nat.mul_add, Nat.mul_one] at hmul
    unfold Volume.InRange at hdata ⊢
    unfold Volume.clusterOffset
    omega
  · refine Nat.lt_of_le_of_lt (Nat.mul_le_mul_right _ ?_) hsize
    cases n with
    | zero => exact Nat.zero_le _
    | succ n =>
        have hfirst := (hv.valid_iff (hlt _ _ (h 0 (Nat.succ_pos n)))).mp
          (chainAt_valid (h 0 (Nat.succ_pos n)))
        have hlast := (hv.valid_iff (hlt _ _ (h n (Nat.lt_succ_self n)))).mp
          (chainAt_valid (h n (Nat.lt_succ_self n)))
        omega

/-! ### A run is one extent -/

section Run

variable {v : Volume} {d n : Nat}

theorem clusterOffset_run (hn : v.clusters + 2 < 2 ^ 32) (hd : d < 2 ^ 32)
    (h : ∀ k < n, chainAt v k d = some (d + k)) {k : Nat} (hk : k < n) :
    v.clusterOffset (d + k) = v.clusterOffset d + v.bytesPerCluster * k := by
  have hlast : d + k < v.clusters + 2 ∧ 2 ≤ d := by
    have h0 := (Volume.valid_iff hn hd).mp (chainAt_valid (h 0 (by omega)))
    cases k with
    | zero => omega
    | succ k =>
        have hlt := chainAt_succ_lt (h (k + 1) hk)
        have := (Volume.valid_iff hn (by omega)).mp (chainAt_valid (h (k + 1) hk))
        omega
  have hsub : sub32 (d + k) 2 = sub32 d 2 + k := by
    unfold sub32
    omega
  unfold Volume.clusterOffset
  rw [hsub, Nat.mul_add, Nat.add_assoc]

/-- Within a run of consecutive clusters the chain is a stretch of the partition. -/
theorem chainLoc_run (hn : v.clusters + 2 < 2 ^ 32) (hd : d < 2 ^ 32)
    (h : ∀ k < n, chainAt v k d = some (d + k)) {j : Nat} (hj : j < n * v.bytesPerCluster) :
    chainLoc v d j = some (v.clusterOffset d + j) := by
  have hk : j / v.bytesPerCluster < n := Nat.div_lt_of_lt_mul (by rwa [Nat.mul_comm])
  unfold chainLoc
  rw [h _ hk, Option.map_some, clusterOffset_run hn hd h hk, Nat.add_assoc, Nat.div_add_mod]

/-- The stretch lies in the partition if its clusters do. -/
theorem inRange_run (hn : v.clusters + 2 < 2 ^ 32) (hd : d < 2 ^ 32)
    (hdata : ∀ i e, chainAt v i d = some e → v.InRange (v.clusterOffset e) v.bytesPerCluster)
    (hpos : 0 < n) (h : ∀ k < n, chainAt v k d = some (d + k)) :
    v.InRange (v.clusterOffset d) (n * v.bytesPerCluster) := by
  -- the last cluster of the run ends where the extent does
  obtain ⟨k, rfl⟩ := Nat.exists_eq_succ_of_ne_zero hpos.ne'
  have hlast := hdata k _ (h k (Nat.lt_succ_self k))
  rw [clusterOffset_run hn hd h (Nat.lt_succ_self k)] at hlast
  unfold Volume.InRange at hlast ⊢
  rw [Nat.succ_mul, Nat.mul_comm k]
  omega

/-- Behind `n` clusters the chain goes on as the chain of the next cluster. -/
theorem chainLoc_add (hv : v.OK) {next : Nat} (h : chainAt v n d = some next) {j : Nat}
    (hj : n * v.bytesPerCluster ≤ j) :
    chainLoc v d j = chainLoc v next (j - n * v.bytesPerCluster) := by
  have hdiv : j / v.bytesPerCluster = n + (j - n * v.bytesPerCluster) / v.bytesPerCluster := by
    have hle : n ≤ j / v.bytesPerCluster := (Nat.le_div_iff_mul_le hv.cluster_pos).mpr hj
    rw [Nat.mul_comm, Nat.sub_mul_div]
    omega
  have hmod : j % v.bytesPerCluster = (j - n * v.bytesPerCluster) % v.bytesPerCluster := by
    conv_lhs => rw [← Nat.sub_add_cancel hj]
    rw [Nat.add_mul_mod_self_right]
  unfold chainLoc
  rw [hdiv, chainAt_add _ h, hmod]

theorem Run.chainLoc_ge (hv : v.OK) {next : Nat} (h : Run v d n next) {j : Nat}
    (hj : n * v.bytesPerCluster ≤ j) :
    chainLoc v d j
      = if next = 0 then none else chainLoc v next (j - n * v.bytesPerCluster) := by
  have hafter := h.after
  by_cases hnext : next = 0
  · rw [if_pos hnext] at hafter ⊢
    have hle : n ≤ j / v.bytesPerCluster := (Nat.le_div_iff_mul_le hv.cluster_pos).mpr hj
    unfold chainLoc
    by_contra hsome
    obtain ⟨a, ha⟩ := Option.ne_none_iff_exists'.mp hsome
    obtain ⟨e, he, -⟩ := Option.map_eq_some_iff.mp ha
    have := chainAt_prefix hle he
    rw [hafter] at this
    simp at this
  · rw [if_neg hnext] at hafter ⊢
    exact chainLoc_add hv hafter hj

end Run

/-! ### After `get_extent` -/

theorem getExtent_root {v : Volume} {c : Nat} (s : State) (h : isRootArea v c) :
    getExtent v c s = { s with
      extentOffset := v.rootOffset
      extentLen := 0x20 * v.rootEntries
      extentNextCluster := 0 } := by
  have hu : u32 (0x20 * v.rootEntries) = 0x20 * v.rootEntries := by
    have := v.rootEntries_lt
    unfold u32
    omega
  have hc : c = 0 ∧ v.fatType ≠ .fat32 := h
  unfold getExtent
  dsimp only
  rw [if_pos hc, hu]

theorem getExtent_invalid {v : Volume} {c : Nat} (s : State) (h : ¬ isRootArea v c)
    (hval : ¬ v.valid (startCluster v c)) :
    getExtent v c s = { s with extentLen := 0, extentNextCluster := 0 } := by
  have hc : ¬ (c = 0 ∧ v.fatType ≠ .fat32) := h
  have hle : v.clusters ≤ sub32 (if c = 0 then u32 v.rootOffset else c) 2 := Nat.not_lt.mp hval
  unfold getExtent
  dsimp only
  rw [if_neg hc, if_pos hle]

theorem getExtent_chain {v : Volume} {c : Nat} (s : State) (h : ¬ isRootArea v c)
    (hval : v.valid (startCluster v c)) :
    getExtent v c s = getExtentLoop v v.clusters (startCluster v c) { s with
      extentOffset := u64 (v.clusterOffset (startCluster v c))
      extentLen := 0
      extentNextCluster := 0 } := by
  have hc : ¬ (c = 0 ∧ v.fatType ≠ .fat32) := h
  have hle : ¬ v.clusters ≤ sub32 (if c = 0 then u32 v.rootOffset else c) 2 :=
    Nat.not_le.mpr hval
  unfold getExtent
  dsimp only
  rw [if_neg hc, if_neg hle]
  rfl

theorem getExtent_calls_le (v : Volume) (c : Nat) (s : State) :
    s.cache.calls ≤ (getExtent v c s).cache.calls := by
  by_cases hroot : isRootArea v c
  · rw [getExtent_root s hroot]
  by_cases hval : v.valid (startCluster v c)
  · rw [getExtent_chain s hroot hval]
    exact getExtentLoop_calls_le v v.clusters (startCluster v c) { s with
      extentOffset := u64 (v.clusterOffset (startCluster v c))
      extentLen := 0
      extentNextCluster := 0 }
  · rw [getExtent_invalid s hroot hval]

theorem startCluster_lt {v : Volume} {c : Nat} (hc : c < 2 ^ 32) :
    startCluster v c < 2 ^ 32 := by
  unfold startCluster u32
  split
  · exact Nat.mod_lt _ (by decide)
  · exact hc

/-- **After `get_extent(c)` what remains is the file or directory that starts at `c`.** -/
theorem getExtent_full {v : Volume} (hv : v.OK) {c : Nat} (hc : c < 2 ^ 32)
    (hok : StartOK v c) {s : State} (hcoh : Coherent v.dev s.cache)
    (hfull : Full v.dev s.cache.calls (getExtent v c s).cache.calls) :
    Ready v (getExtent v c s) ∧ remaining v (getExtent v c s) = startLoc v c ∧
      (getExtent v c s).fatFileSize = s.fatFileSize := by
  unfold StartOK at hok
  by_cases hroot : isRootArea v c
  · rw [if_pos hroot] at hok
    rw [getExtent_root s hroot]
    refine ⟨⟨hcoh, fun _ => hok, fun h => absurd rfl h⟩, ?_, rfl⟩
    funext j
    simp [remaining, startLoc, hroot]
  rw [if_neg hroot] at hok
  by_cases hval : v.valid (startCluster v c)
  · rw [getExtent_chain s hroot hval] at hfull ⊢
    have hlt := startCluster_lt (v := v) hc
    have hrange := (hv.valid_iff hlt).mp hval
    obtain ⟨n, hrun, -, hlen, hoff, hsize, hcoh'⟩ := getExtentLoop_run hv.clusters_lt v.clusters
      (startCluster v c) { s with
        extentOffset := u64 (v.clusterOffset (startCluster v c))
        extentLen := 0
        extentNextCluster := 0 } hval hlt (by omega) hok.fat hcoh rfl hfull
    generalize getExtentLoop v v.clusters _ _ = s' at hrun hlen hoff hsize hcoh' ⊢
    have hbytes := hok.run 0 n (startCluster v c) fun k hk => by
      rw [Nat.zero_add]
      exact hrun.consecutive k hk
    have hlen' : s'.extentLen = n * v.bytesPerCluster := by
      rw [hlen, Nat.zero_add, u32, Nat.mod_eq_of_lt hbytes]
    have hin := inRange_run hv.clusters_lt hlt hok.data hrun.pos hrun.consecutive
    have hoff' : s'.extentOffset = v.clusterOffset (startCluster v c) := by
      rw [hoff]
      unfold Volume.InRange at hin
      exact Nat.mod_eq_of_lt (by omega)
    have hpos : 0 < n * v.bytesPerCluster := Nat.mul_pos hrun.pos hv.cluster_pos
    refine ⟨⟨hcoh', fun _ => ?_, fun hnext => ?_⟩, ?_, hsize⟩
    · rw [hoff', hlen']
      exact hin
    · have hafter := hrun.after
      rw [if_neg hnext] at hafter
      obtain ⟨k, rfl⟩ := Nat.exists_eq_succ_of_ne_zero hrun.pos.ne'
      have := chainAt_succ_lt hafter
      exact ⟨by omega, by omega, hok.suffix hafter⟩
    · funext j
      unfold remaining startLoc
      rw [if_neg hroot, hlen', hoff']
      by_cases hj : j < n * v.bytesPerCluster
      · rw [if_pos hj, chainLoc_run hv.clusters_lt hlt hrun.consecutive hj]
      · rw [if_neg hj, hrun.chainLoc_ge hv (Nat.not_lt.mp hj)]
  · rw [getExtent_invalid s hroot hval]
    refine ⟨⟨hcoh, fun h => absurd rfl h, fun h => absurd rfl h⟩, ?_, rfl⟩
    funext j
    simp [remaining, startLoc, hroot, chainLoc, chainAt_of_not_valid hval]

/-! ### Reading on -/

theorem refill_calls_le (v : Volume) (s : State) :
    s.cache.calls ≤ (refill v s).cache.calls := by
  unfold refill
  split
  · exact getExtent_calls_le _ _ _
  · exact Nat.le_refl _

/-- Nothing is left of a used up extent that has no successor. -/
theorem Ready.remaining_none {v : Volume} {s : State} (h : Ready v s) (hlen : s.extentLen = 0)
    (j : Nat) : remaining v s j = none := by
  have hnext : s.extentNextCluster = 0 := by
    by_contra hne
    exact (h.next hne).1 hlen
  unfold remaining
  rw [if_neg (by omega), if_pos hnext]

/-- Taking `n` bytes off the extent, and fetching the next one if that was all of it. -/
theorem Ready.refill {v : Volume} (hv : v.OK) {s : State} (h : Ready v s) {n : Nat}
    (hpos : 0 < n) (hn : n ≤ s.extentLen) {c : Cache} (hc : Coherent v.dev c)
    (hfull : Full v.dev c.calls (refill v (s.advance n c)).cache.calls) :
    Ready v (refill v (s.advance n c)) ∧
      (∀ j, remaining v (refill v (s.advance n c)) j = remaining v s (n + j)) ∧
      (refill v (s.advance n c)).fatFileSize = s.fatFileSize := by
  have hin := h.extent (by omega)
  have hoff : (s.advance n c).extentOffset = s.extentOffset + n := by
    unfold Volume.InRange at hin
    exact Nat.mod_eq_of_lt (by omega)
  by_cases hcond : (s.advance n c).extentLen = 0 ∧ (s.advance n c).extentNextCluster ≠ 0
  · have hrefill : Fat.refill v (s.advance n c)
        = getExtent v s.extentNextCluster (s.advance n c) := by
      unfold Fat.refill
      rw [if_pos hcond]
      rfl
    obtain ⟨hlen, hnext⟩ := hcond
    have hnext' : s.extentNextCluster ≠ 0 := hnext
    have hlen' : s.extentLen - n = 0 := hlen
    obtain ⟨-, hlt, hok⟩ := h.next hnext'
    have hroot : ¬ isRootArea v s.extentNextCluster := fun hr => hnext' hr.1
    have hstart : startCluster v s.extentNextCluster = s.extentNextCluster := if_neg hnext'
    have hstartOK : StartOK v s.extentNextCluster := by
      unfold StartOK
      rw [if_neg hroot, hstart]
      exact hok
    rw [hrefill] at hfull ⊢
    obtain ⟨hready, hrem, hsize⟩ := getExtent_full hv hlt hstartOK (s := s.advance n c) hc hfull
    refine ⟨hready, fun j => ?_, hsize⟩
    rw [hrem]
    unfold startLoc remaining
    rw [if_neg hroot, hstart, if_neg (by omega), if_neg hnext']
    congr 1
    omega
  · have hrefill : Fat.refill v (s.advance n c) = s.advance n c := by
      unfold Fat.refill
      rw [if_neg hcond]
    rw [hrefill]
    refine ⟨⟨hc, fun hne => ?_, fun hnext => ?_⟩, fun j => ?_, rfl⟩
    · have hne' : s.extentLen - n ≠ 0 := hne
      unfold Volume.InRange at hin ⊢
      rw [hoff]
      show s.extentOffset + n + v.partitionStartOffset + (s.extentLen - n) ≤ _
      omega
    · obtain ⟨-, hlt, hok⟩ := h.next hnext
      exact ⟨fun hz => hcond ⟨hz, hnext⟩, hlt, hok⟩
    · unfold remaining
      rw [hoff]
      show (if j < s.extentLen - n then some (s.extentOffset + n + j)
        else if s.extentNextCluster = 0 then none
        else chainLoc v s.extentNextCluster (j - (s.extentLen - n))) = _
      by_cases hj : j < s.extentLen - n
      · rw [if_pos hj, if_pos (by omega), Nat.add_assoc]
      · rw [if_neg hj, if_neg (show ¬ n + j < s.extentLen by omega)]
        congr 2
        omega

theorem readExtentLoop_calls_le (v : Volume) :
    ∀ (fuel data len : Nat) (m : Mem UInt8) (s : State),
      s.cache.calls ≤ (readExtentLoop v fuel data len m s).st.cache.calls := by
  intro fuel
  induction fuel with
  | zero => intro data len m s; exact Nat.le_refl _
  | succ fuel ih =>
      intro data len m s
      rw [readExtentLoop]
      split
      · exact Nat.le_refl _
      split
      · exact Nat.le_refl _
      dsimp only
      have hread := read_calls_le v data s.extentOffset (min len s.extentLen) m s.cache
      split
      · exact hread
      · exact Nat.le_trans hread (Nat.le_trans (refill_calls_le v (s.advance _ _)) (ih _ _ _ _))

/-- The bytes of the partition a stream of positions stands for; `old` where it is over. -/
def streamByte (v : Volume) (loc : Nat → Option Nat) (old : Nat → UInt8) (j : Nat) : UInt8 :=
  ((loc j).map v.byte).getD (old j)

/-- A stream that has at least `n` bytes. -/
def Has (loc : Nat → Option Nat) (n : Nat) : Prop := ∀ j < n, (loc j).isSome = true

theorem Volume.InRange.shorten {v : Volume} {offset n k : Nat} (h : v.InRange offset k)
    (hn : n ≤ k) : v.InRange offset n := by
  unfold Volume.InRange at h ⊢
  omega

/-- What remains starts with the current extent. -/
theorem remaining_extent {v : Volume} {s : State} {j : Nat} (hj : j < s.extentLen) :
    remaining v s j = some (s.extentOffset + j) := by
  unfold remaining
  rw [if_pos hj]

/-- One piece of `n` bytes, then the rest of the loop from the refilled state. -/
theorem readExtentLoop_piece {v : Volume} {len n : Nat} {s : State} (fuel data : Nat)
    (m : Mem UInt8) (hlen : len ≠ 0) (hext : s.extentLen ≠ 0) (hn : n = min len s.extentLen) :
    readExtentLoop v (fuel + 1) data len m s
      = (let r := read v data s.extentOffset n m s.cache
         if r.err ≠ 0 then ⟨r.err, r.mem, { s with cache := r.cache }⟩
         else readExtentLoop v fuel (data + n) (len - n) r.mem
           (Fat.refill v (s.advance n r.cache))) := by
  rw [readExtentLoop, if_neg hlen, if_neg hext, ← hn]

/-- The loop makes the calls of its first piece, and then its own. -/
theorem read_calls_le_loop {v : Volume} {len n : Nat} {s : State} (fuel data : Nat)
    (m : Mem UInt8) (hlen : len ≠ 0) (hext : s.extentLen ≠ 0) (hn : n = min len s.extentLen) :
    (read v data s.extentOffset n m s.cache).cache.calls
      ≤ (readExtentLoop v (fuel + 1) data len m s).st.cache.calls := by
  rw [readExtentLoop_piece fuel data m hlen hext hn]
  dsimp only
  split
  · exact Nat.le_refl _
  · exact Nat.le_trans (refill_calls_le v (s.advance n _)) (readExtentLoop_calls_le _ _ _ _ _ _)

/-! A stream that starts with `n` bytes from `offset` on and goes on as `loc'`. -/

section Piece

variable {v : Volume} {loc loc' : Nat → Option Nat} {n offset : Nat}

theorem Has.piece (hfirst : ∀ j < n, loc j = some (offset + j)) (hrest : ∀ j, loc' j = loc (n + j))
    {len : Nat} (hn : n ≤ len) : Has loc' (len - n) ↔ Has loc len := by
  constructor
  · intro h j hj
    by_cases hjn : j < n
    · rw [hfirst j hjn]
      rfl
    · have := h (j - n) (by omega)
      rwa [hrest, Nat.add_sub_cancel' (Nat.not_lt.mp hjn)] at this
  · intro h j hj
    rw [hrest]
    exact h (n + j) (by omega)

theorem store_piece (m : Mem UInt8) (data : Nat) (hfirst : ∀ j < n, loc j = some (offset + j))
    (hrest : ∀ j, loc' j = loc (n + j)) {len : Nat} (hn : n ≤ len) :
    (m.store data n fun i => v.byte (offset + i)).store (data + n) (len - n)
        (streamByte v loc' fun j => m.store data n (fun i => v.byte (offset + i)) (data + n + j))
      = m.store data len (streamByte v loc fun j => m (data + j)) := by
  have hleft : (m.store data n fun i => v.byte (offset + i))
      = m.store data n (streamByte v loc fun j => m (data + j)) := by
    refine Mem.store_congr m data fun j hj => ?_
    unfold streamByte
    rw [hfirst j hj]
    rfl
  have hright : ∀ j, streamByte v loc'
        (fun j => m.store data n (fun i => v.byte (offset + i)) (data + n + j)) j
      = streamByte v loc (fun j => m (data + j)) (n + j) := by
    intro j
    simp only [streamByte, hrest]
    rw [Mem.store_outside m _ (Or.inr (by omega)), Nat.add_assoc]
  rw [Mem.store_congr _ _ fun j _ => hright j, hleft, Mem.store_append, Nat.add_sub_cancel' hn]

end Piece

/-- A stream that is over stores nothing. -/
theorem store_over {v : Volume} {loc : Nat → Option Nat} (m : Mem UInt8) (data len : Nat)
    (hnone : ∀ j, loc j = none) : m.store data len (streamByte v loc fun j => m (data + j)) = m := by
  funext x
  unfold Mem.store
  split
  · rename_i hx
    unfold streamByte
    rw [hnone, Option.map_none, Option.getD_none]
    show m (data + (x - data)) = m x
    rw [Nat.add_sub_cancel' hx.1]
  · rfl

/-- What `read_extent` leaves of a request for `len` bytes to `data`: what remained is stored, as
far as it goes, and dropped from what remains. -/
structure Takes (v : Volume) (s : State) (data len : Nat) (m : Mem UInt8) (r : ExtentRes) :
    Prop where
  err : r.err = 0 ↔ Has (remaining v s) len
  mem : r.mem = m.store data len (streamByte v (remaining v s) fun j => m (data + j))
  ready : Ready v r.st
  rest : ∀ j, remaining v r.st j = remaining v s (len + j)
  size : r.st.fatFileSize = s.fatFileSize

section Takes

variable {v : Volume} {s : State} {data len n : Nat} {m : Mem UInt8}

/-- Nothing is asked for. -/
theorem Takes.nothing (h : Ready v s) : Takes v s data 0 m ⟨0, m, s⟩ where
  err := ⟨fun _ j hj => absurd hj (Nat.not_lt_zero j), fun _ => rfl⟩
  mem := (Mem.store_zero m data _).symm
  ready := h
  rest j := by rw [Nat.zero_add]
  size := rfl

/-- Nothing remains. -/
theorem Takes.over (h : Ready v s) (hlen : len ≠ 0) (hext : s.extentLen = 0) :
    Takes v s data len m ⟨-1, m, s⟩ where
  err := by
    refine ⟨fun h => by simp at h, fun hhas => ?_⟩
    have := hhas 0 (by omega)
    rw [h.remaining_none hext 0] at this
    simp at this
  mem := (store_over m data len (h.remaining_none hext)).symm
  ready := h
  rest j := by rw [h.remaining_none hext, h.remaining_none hext]
  size := rfl

/-- A piece of the extent, and then what the rest of the request leaves. -/
theorem Takes.piece {s' : State} {r : ExtentRes} (hn : n ≤ len) (hext : n ≤ s.extentLen)
    (hrem : ∀ j, remaining v s' j = remaining v s (n + j))
    (hsize : s'.fatFileSize = s.fatFileSize)
    (h : Takes v s' (data + n) (len - n)
      (m.store data n fun i => v.byte (s.extentOffset + i)) r) :
    Takes v s data len m r := by
  have hfirst : ∀ j < n, remaining v s j = some (s.extentOffset + j) :=
    fun j hj => remaining_extent (Nat.lt_of_lt_of_le hj hext)
  refine ⟨h.err.trans (Has.piece hfirst hrem hn), ?_, h.ready, fun j => ?_, h.size.trans hsize⟩
  · rw [h.mem, store_piece m data hfirst hrem hn]
  · rw [h.rest, hrem, ← Nat.add_assoc, Nat.add_sub_cancel' hn]

end Takes

/--
**Reading stores what remains.**  One iteration takes the rest of the extent, or as
much of it as is asked for; the induction is on the fuel, of which every iteration
takes one and at least one byte.
-/
theorem readExtentLoop_full {v : Volume} (hv : v.OK) :
    ∀ (fuel data len : Nat) (m : Mem UInt8) (s : State), len ≤ fuel → Ready v s →
      Full v.dev s.cache.calls (readExtentLoop v fuel data len m s).st.cache.calls →
      Takes v s data len m (readExtentLoop v fuel data len m s) := by
  intro fuel
  induction fuel with
  | zero =>
      intro data len m s hfuel hready _
      obtain rfl : len = 0 := by omega
      exact .nothing hready
  | succ fuel ih =>
      intro data len m s hfuel hready hfull
      by_cases hlen : len = 0
      · subst hlen
        rw [readExtentLoop, if_pos rfl]
        exact .nothing hready
      by_cases hext : s.extentLen = 0
      · rw [readExtentLoop, if_neg hlen, if_pos hext]
        exact .over hready hlen hext
      obtain ⟨n, hn⟩ : ∃ n, n = min len s.extentLen := ⟨_, rfl⟩
      have hnle : n ≤ s.extentLen := by omega
      have hin : v.InRange s.extentOffset n := (hready.extent hext).shorten hnle
      have hreadle := read_calls_le_loop (v := v) fuel data m hlen hext hn
      obtain ⟨herr, hmem, hcoh⟩ := read_full hin hready.coherent
        (hfull.mono (Nat.le_refl _) hreadle)
      have hstep : readExtentLoop v (fuel + 1) data len m s
          = readExtentLoop v fuel (data + n) (len - n)
              (m.store data n fun i => v.byte (s.extentOffset + i))
              (Fat.refill v (s.advance n (read v data s.extentOffset n m s.cache).cache)) := by
        rw [readExtentLoop_piece fuel data m hlen hext hn]
        dsimp only
        rw [if_neg (by simp [herr]), hmem]
      rw [hstep] at hfull ⊢
      have hcalls := read_calls_le v data s.extentOffset n m s.cache
      generalize (read v data s.extentOffset n m s.cache).cache = c at hfull hcoh hcalls ⊢
      obtain ⟨hready', hrem, hsize⟩ := hready.refill hv (by omega) hnle hcoh
        (hfull.mono hcalls (readExtentLoop_calls_le _ _ _ _ _ _))
      have hcalls' : s.cache.calls ≤ (Fat.refill v (s.advance n c)).cache.calls :=
        Nat.le_trans hcalls (refill_calls_le v (s.advance n c))
      exact .piece (by omega) hnle hrem hsize
        (ih _ _ _ _ (by omega) hready' (hfull.mono hcalls' (Nat.le_refl _)))

/-- **Reading stores what remains and drops it from what remains.** -/
theorem readExtent_full {v : Volume} (hv : v.OK) (data len : Nat) (m : Mem UInt8) {s : State}
    (hready : Ready v s)
    (hfull : Full v.dev s.cache.calls (readExtent v data len m s).st.cache.calls) :
    Takes v s data len m (readExtent v data len m s) :=
  readExtentLoop_full hv len data len m s (Nat.le_refl _) hready hfull

/-! ### One round of the scan of a directory -/

/-- How the scan ends at the entry `read_extent` gave it, if it does. -/
def endsAt (name : List UInt8) (more : Bool) (r : ExtentRes) : Option ScanEnd :=
  if r.err ≠ 0 then some (.returned r.err)
  else if r.mem 0 = 0 then some (.returned (-1))
  else if entryMatches name more r.mem then some (.found r.mem)
  else none

/-- The entry `read_extent` puts into `dir`. -/
def nextEntry (v : Volume) (s : State) : ExtentRes := readExtent v 0 0x20 (fun _ => 0) s

theorem scan_succ {v : Volume} {name : List UInt8} {more : Bool} (fuel : Nat) {s : State}
    (hext : s.extentLen ≠ 0) :
    scan v name more (fuel + 1) s
      = (endsAt name more (nextEntry v s)).elim (scan v name more fuel (nextEntry v s).st)
          fun e => some (e, (nextEntry v s).st) := by
  rw [scan, if_neg hext]
  unfold endsAt nextEntry
  dsimp only
  split
  · rfl
  split
  · rfl
  split
  · rfl
  · rfl

theorem nextEntry_calls_le (v : Volume) (s : State) :
    s.cache.calls ≤ (nextEntry v s).st.cache.calls :=
  readExtentLoop_calls_le v 0x20 0 0x20 (fun _ => 0) s

/-! ### A whole file, in any number of calls -/

/-- Calls of `read_extent` one after another, each with its own destination and length:
what each returns and the bytes then found at its destination. -/
def readExtents (v : Volume) : List (Nat × Nat) → Mem UInt8 → State → List (Int × List UInt8)
  | [], _, _ => []
  | (data, len) :: calls, m, s =>
      let r := readExtent v data len m s
      (r.err, r.mem.slice data len) :: readExtents v calls r.mem r.st

/-- How many bytes a list of calls asks for. -/
def totalLen (calls : List (Nat × Nat)) : Nat := (calls.map Prod.snd).sum

/-- The first `n` bytes of the clusters' data along the chain from `c`. -/
def chainBytes (v : Volume) (c n : Nat) : List UInt8 :=
  (List.range n).map (streamByte v (chainLoc v c) fun _ => 0)

theorem Has.mono {loc : Nat → Option Nat} {m n : Nat} (h : Has loc n) (hle : m ≤ n) :
    Has loc m := fun j hj => h j (Nat.lt_of_lt_of_le hj hle)

theorem streamByte_congr {v : Volume} {loc loc' : Nat → Option Nat} {old old' : Nat → UInt8}
    {i j : Nat} (h : loc i = loc' j) (hs : (loc i).isSome = true) :
    streamByte v loc old i = streamByte v loc' old' j := by
  obtain ⟨a, ha⟩ := Option.isSome_iff_exists.mp hs
  unfold streamByte
  rw [← h, ha]
  rfl

/-- Calls that stay within what remains succeed, and together deliver it in order. -/
theorem readExtents_within {v : Volume} (hv : v.OK) (hfull : ∀ k t, v.dev.answer k t = .full) :
    ∀ (calls : List (Nat × Nat)) (m : Mem UInt8) (s : State), Ready v s →
      Has (remaining v s) (totalLen calls) →
      (∀ r ∈ readExtents v calls m s, r.1 = 0) ∧
        (readExtents v calls m s).flatMap Prod.snd
          = (List.range (totalLen calls)).map (streamByte v (remaining v s) fun _ => 0) := by
  intro calls
  induction calls with
  | nil =>
      intro m s _ _
      exact ⟨by simp [readExtents], by simp [readExtents, totalLen]⟩
  | cons call calls ih =>
      obtain ⟨data, len⟩ := call
      intro m s hready hhas
      have htotal : totalLen ((data, len) :: calls) = len + totalLen calls := by simp [totalLen]
      rw [htotal] at hhas ⊢
      obtain ⟨hiff, hmem, hready', hrem, -⟩ := readExtent_full hv data len m hready
        fun k _ _ => hfull k
      have hlate : Has (remaining v (readExtent v data len m s).st) (totalLen calls) := by
        intro j hj
        rw [hrem]
        exact hhas (len + j) (by omega)
      obtain ⟨hok, hbytes⟩ := ih (readExtent v data len m s).mem _ hready' hlate
      refine ⟨?_, ?_⟩
      · intro r hr
        rcases List.mem_cons.mp hr with rfl | hr'
        · exact hiff.mpr (hhas.mono (Nat.le_add_right _ _))
        · exact hok r hr'
      · show (readExtent v data len m s).mem.slice data len ++
          (readExtents v calls _ _).flatMap Prod.snd = _
        rw [hbytes, hmem, Mem.slice_store, List.range_add, List.map_append, List.map_map]
        congr 1
        · refine List.map_congr_left fun j hj => ?_
          exact streamByte_congr rfl (hhas j (by have := List.mem_range.mp hj; omega))
        · refine List.map_congr_left fun j hj => ?_
          have hj' := List.mem_range.mp hj
          exact streamByte_congr (hrem j) (hlate j hj')

/-- A call that asks for more than remains, after calls that did not, is refused. -/
theorem readExtents_past {v : Volume} (hv : v.OK) (hfull : ∀ k t, v.dev.answer k t = .full)
    (data len : Nat) :
    ∀ (calls : List (Nat × Nat)) (m : Mem UInt8) (s : State), Ready v s →
      ¬ Has (remaining v s) (totalLen calls + len) → Has (remaining v s) (totalLen calls) →
      ∃ r, (readExtents v (calls ++ [(data, len)]) m s).getLast? = some r ∧ r.1 ≠ 0 := by
  intro calls
  induction calls with
  | nil =>
      intro m s hready hpast _
      obtain ⟨hiff, -⟩ := readExtent_full hv data len m hready
        fun k _ _ => hfull k
      refine ⟨_, rfl, fun h => hpast ?_⟩
      simpa [totalLen] using hiff.mp h
  | cons call calls ih =>
      obtain ⟨d, l⟩ := call
      intro m s hready hpast hhas
      have htotal : totalLen ((d, l) :: calls) = l + totalLen calls := by simp [totalLen]
      rw [htotal] at hpast hhas
      obtain ⟨-, -, hready', hrem, -⟩ := readExtent_full hv d l m hready
        fun k _ _ => hfull k
      obtain ⟨r, hr, hne⟩ := ih (readExtent v d l m s).mem _ hready'
        (fun h => hpast fun j hj => by
          by_cases hjl : j < l
          · exact hhas j (by omega)
          · have := h (j - l) (by omega)
            rwa [hrem, Nat.add_sub_cancel' (Nat.not_lt.mp hjl)] at this)
        (fun j hj => by
          rw [hrem]
          exact hhas (l + j) (by omega))
      refine ⟨r, ?_, hne⟩
      rw [List.cons_append, readExtents, List.getLast?_cons, hr]
      rfl

/--
**File contents.**  After `get_extent(c)`, calls of `read_extent` whose lengths add up to
no more than the chain holds all return zero and together deliver the first bytes of the
chain's data, however the total was divided among them; the first call to go past the end
of the chain returns something else.
-/
theorem file_contents {v : Volume} (hv : v.OK) (hfull : ∀ k t, v.dev.answer k t = .full)
    {c : Nat} (hlo : 2 ≤ c) (hhi : c < v.clusters + 2) (hok : ChainOK v c)
    {s : State} (hcoh : Coherent v.dev s.cache) (m : Mem UInt8) (calls : List (Nat × Nat))
    (hhas : Has (chainLoc v c) (totalLen calls)) :
    (∀ r ∈ readExtents v calls m (getExtent v c s), r.1 = 0) ∧
      (readExtents v calls m (getExtent v c s)).flatMap Prod.snd
        = chainBytes v c (totalLen calls) ∧
      ∀ data len, ¬ Has (chainLoc v c) (totalLen calls + len) →
        ∃ r, (readExtents v (calls ++ [(data, len)]) m (getExtent v c s)).getLast? = some r ∧
          r.1 ≠ 0 := by
  have hroot : ¬ isRootArea v c := by
    rintro ⟨rfl, -⟩
    omega
  have hstart : startCluster v c = c := if_neg (by omega)
  have hstartOK : StartOK v c := by
    unfold StartOK
    rw [if_neg hroot, hstart]
    exact hok
  have hsmall := hv.clusters_lt
  obtain ⟨hready, hrem, -⟩ := getExtent_full hv (by omega) hstartOK hcoh fun k _ _ => hfull k
  have hloc : remaining v (getExtent v c s) = chainLoc v c := by
    rw [hrem]
    funext j
    rw [startLoc, if_neg hroot, hstart]
  obtain ⟨hzero, hbytes⟩ := readExtents_within hv hfull calls m _ hready (by rwa [hloc])
  rw [hloc] at hbytes
  refine ⟨hzero, hbytes, fun data len hpast => ?_⟩
  exact readExtents_past hv hfull data len calls m _ hready (by rwa [hloc]) (by rwa [hloc])

/-! ### A small volume

A FAT12 stick with two clusters of 512 bytes and one file on both of them, the second
cluster after the first.  It stands for the volumes the theorems speak of wherever a
concrete one is wanted.
-/

/-- An entry of a directory: name, attributes, start cluster and size. -/
def dirEntry (name : List UInt8) (attr : UInt8) (cluster size : Nat) : List UInt8 :=
  name ++ [attr] ++ List.replicate 14 0 ++
    [UInt8.ofNat cluster, UInt8.ofNat (cluster / 256),
      UInt8.ofNat size, UInt8.ofNat (size / 256), 0, 0]

/-- The name `XENON   ELF`. -/
def xenonElf : List UInt8 := [0x58, 0x45, 0x4e, 0x4f, 0x4e, 0x20, 0x20, 0x20, 0x45, 0x4c, 0x46]

def stickDisk (a : Nat) : UInt8 :=
  if a < 0x400 then
    -- FAT12 entries of clusters 2 and 3: `3`, and the end of the chain
    ([0xf0, 0xff, 0xff, 0x03, 0xf0, 0xff] : List UInt8).getD (a - 0x200) 0
  else if a < 0x600 then (dirEntry xenonElf 0x20 2 600).getD (a - 0x400) 0
  else UInt8.ofNat (a % 251)

def stickDev : Bdev where
  disk := stickDisk
  answer := fun _ _ => .full
  junk := fun _ _ => 0

def stick : Volume where
  dev := stickDev
  rawBufAddr := 0
  partitionStartOffset := 0
  bytesPerCluster := 0x200
  rootEntries := 16
  clusters := 2
  fatType := .fat12
  fatOffset := 0x200
  rootOffset := 0x400
  dataOffset := 0x600

/-- The statics before anything was read. -/
def State.fresh : State where
  cache := { rawBuf := fun _ => 0, current := 2 ^ 32 - 1, calls := 0 }
  extentOffset := 0
  extentLen := 0
  extentNextCluster := 0
  fatFileSize := 0

theorem stick_ok : stick.OK := ⟨by decide, by decide⟩

theorem stick_chainOK {c : Nat} (hc : c < 2 ^ 32) : ChainOK stick c :=
  ChainOK.of_volume stick_ok hc (by unfold Volume.InRange; decide)
    (by unfold Volume.InRange; decide) (by decide)

theorem State.fresh_coherent (dev : Bdev) : Coherent dev State.fresh.cache :=
  fun h => absurd h (by decide)

/-- Two calls of 500 and 100 bytes on the file of the stick, across its two clusters. -/
theorem stick_file_contents :
    (readExtents stick [(0, 500), (500, 100)] (fun _ => 0)
        (getExtent stick 2 State.fresh)).flatMap Prod.snd = chainBytes stick 2 600 ∧
      ∃ r, (readExtents stick ([(0, 500), (500, 100)] ++ [(600, 425)]) (fun _ => 0)
        (getExtent stick 2 State.fresh)).getLast? = some r ∧ r.1 ≠ 0 := by
  have hhas : Has (chainLoc stick 2) (totalLen [(0, 500), (500, 100)]) := by
    unfold Has
    decide +kernel
  have hpast : ¬ Has (chainLoc stick 2) (totalLen [(0, 500), (500, 100)] + 425) :=
    fun h => absurd (h 1024 (by decide)) (by decide +kernel)
  obtain ⟨-, hbytes, hlast⟩ := file_contents stick_ok (fun _ _ => rfl) (by decide) (by decide)
    (stick_chainOK (by decide)) (State.fresh_coherent stick.dev) (fun _ => 0)
    [(0, 500), (500, 100)] hhas
  exact ⟨hbytes, hlast 600 425 hpast⟩

end Xell.Fat
