/-
Cluster chains, and the extents `get_extent` cuts them into.

`chainAt v i c` is the cluster at place `i` of the chain that starts at `c`: the
sequence `c`, `get_fat(c)`, `get_fat(get_fat(c))`, … cut at the first value that is
no cluster of the volume.  A chain may be cyclic; then it has a cluster at every
place.

`get_extent` walks a chain only as far as the numbers stay consecutive.  What its
loop finds is a *run*: `n` clusters `d, d + 1, …` in a row, and the cluster that
comes after them, if one does.  `getExtentLoop_run` is that statement, and it is
all the layer above needs to know about the walk.
-/
import Xell.Proofs.Fat.Read

namespace Xell.Fat

/-! ### Entries of the allocation table -/

/-- Where the entry of a cluster starts, in bits. -/
def Volume.entryBits (v : Volume) (cluster : Nat) : Nat := u32 (cluster * v.fatType.bits)

/-- The entry of a cluster, read off the disk. -/
def Volume.fatEntry (v : Volume) (cluster : Nat) : Nat :=
  (le32 (fun i => v.byte (v.fatOffset + v.entryBits cluster / 8 + i)) 0
    >>> (v.entryBits cluster % 8)) &&& fatMask v.fatType &&& 0x0fffffff

theorem Volume.fatEntry_lt (v : Volume) (cluster : Nat) : v.fatEntry cluster < 2 ^ 28 := by
  have h : v.fatEntry cluster ≤ 0x0fffffff := Nat.and_le_right
  omega

theorem le32_congr {p q : Mem UInt8} {a b : Nat} (h : ∀ i < 4, p (a + i) = q (b + i)) :
    le32 p a = le32 q b := by
  have h0 := h 0 (by omega)
  simp only [Nat.add_zero] at h0
  unfold le32
  rw [h0, h 1 (by omega), h 2 (by omega), h 3 (by omega)]

/-- The part of `get_fat` after its read. -/
theorem getFat_eq (v : Volume) (cluster : Nat) (c : Cache) :
    getFat v cluster c =
      (let r := read v 0 (u64 (v.fatOffset + v.entryBits cluster / 8)) 4 (fun _ => 0) c
       if r.err ≠ 0 then (0, r.cache)
       else ((le32 r.mem 0 >>> (v.entryBits cluster % 8)) &&& fatMask v.fatType &&& 0x0fffffff,
         r.cache)) := rfl

theorem getFat_cache (v : Volume) (cluster : Nat) (c : Cache) :
    (getFat v cluster c).2
      = (read v 0 (u64 (v.fatOffset + v.entryBits cluster / 8)) 4 (fun _ => 0) c).cache := by
  rw [getFat_eq]
  dsimp only
  split <;> rfl

theorem getFat_calls_le (v : Volume) (cluster : Nat) (c : Cache) :
    c.calls ≤ (getFat v cluster c).2.calls := by
  rw [getFat_cache]
  exact read_calls_le _ _ _ _ _ _

theorem getFat_full {v : Volume} {cluster : Nat} {c : Cache}
    (hr : v.InRange (v.fatOffset + v.entryBits cluster / 8) 4) (hc : Coherent v.dev c)
    (hfull : Full v.dev c.calls (getFat v cluster c).2.calls) :
    (getFat v cluster c).1 = v.fatEntry cluster ∧ Coherent v.dev (getFat v cluster c).2 := by
  have hu64 : u64 (v.fatOffset + v.entryBits cluster / 8)
      = v.fatOffset + v.entryBits cluster / 8 := by
    unfold Volume.InRange at hr
    unfold u64
    omega
  rw [getFat_cache, hu64] at hfull ⊢
  obtain ⟨herr, hmem, hcoh⟩ := read_full hr hc hfull
  refine ⟨?_, hcoh⟩
  have hval : le32 (read v 0 (v.fatOffset + v.entryBits cluster / 8) 4 (fun _ => 0) c).mem 0
      = le32 (fun i => v.byte (v.fatOffset + v.entryBits cluster / 8 + i)) 0 := by
    refine le32_congr fun i hi => ?_
    rw [hmem, Mem.store_at _ _ _ hi, Nat.zero_add]
  rw [getFat_eq]
  dsimp only
  rw [hu64, if_neg (by simp [herr]), hval]
  rfl

/-! ### Chains -/

/-- The test `cluster - 2 >= clusters`, the other way round. -/
def Volume.valid (v : Volume) (cluster : Nat) : Prop := sub32 cluster 2 < v.clusters

instance (v : Volume) (cluster : Nat) : Decidable (v.valid cluster) :=
  inferInstanceAs (Decidable (_ < _))

/-- The cluster at place `i` of the chain from `c`, if the chain is that long. -/
def chainAt (v : Volume) : Nat → Nat → Option Nat
  | 0, c => if v.valid c then some c else none
  | i + 1, c => if v.valid c then chainAt v i (v.fatEntry c) else none

/-- What every result about a volume assumes of its geometry. -/
structure Volume.OK (v : Volume) : Prop where
  cluster_pos : 0 < v.bytesPerCluster
  small : (v.clusters + 2) * v.fatType.bits < 2 ^ 32

theorem Volume.OK.clusters_lt {v : Volume} (hv : v.OK) : v.clusters + 2 < 2 ^ 32 := by
  have hbits : 1 ≤ v.fatType.bits := by cases v.fatType <;> decide
  calc v.clusters + 2 ≤ (v.clusters + 2) * v.fatType.bits := Nat.le_mul_of_pos_right _ hbits
    _ < 2 ^ 32 := hv.small

theorem Volume.valid_iff {v : Volume} (hn : v.clusters + 2 < 2 ^ 32) {c : Nat} (hc : c < 2 ^ 32) :
    v.valid c ↔ 2 ≤ c ∧ c < v.clusters + 2 := by
  unfold Volume.valid sub32
  omega

theorem Volume.OK.valid_iff {v : Volume} (hv : v.OK) {c : Nat} (hc : c < 2 ^ 32) :
    v.valid c ↔ 2 ≤ c ∧ c < v.clusters + 2 :=
  Volume.valid_iff hv.clusters_lt hc

theorem chainAt_zero {v : Volume} {c : Nat} (h : v.valid c) : chainAt v 0 c = some c := by
  rw [chainAt, if_pos h]

theorem chainAt_succ {v : Volume} {c : Nat} (h : v.valid c) (i : Nat) :
    chainAt v (i + 1) c = chainAt v i (v.fatEntry c) := by
  rw [chainAt, if_pos h]

theorem chainAt_of_not_valid {v : Volume} {c : Nat} (h : ¬ v.valid c) (i : Nat) :
    chainAt v i c = none := by
  cases i with
  | zero => rw [chainAt, if_neg h]
  | succ i => rw [chainAt, if_neg h]

theorem valid_of_chainAt {v : Volume} {i c d : Nat} (h : chainAt v i c = some d) :
    v.valid c := by
  by_contra hv
  rw [chainAt_of_not_valid hv] at h
  simp at h

/-- The chain from a cluster of the chain is the rest of the chain. -/
theorem chainAt_add {v : Volume} (k : Nat) :
    ∀ {i c d : Nat}, chainAt v i c = some d → chainAt v (i + k) c = chainAt v k d := by
  intro i
  induction i with
  | zero =>
      intro c d h
      rw [chainAt_zero (valid_of_chainAt h), Option.some.injEq] at h
      rw [Nat.zero_add, h]
  | succ i ih =>
      intro c d h
      have hv := valid_of_chainAt h
      rw [chainAt_succ hv] at h
      rw [Nat.succ_add, chainAt_succ hv]
      exact ih h

theorem chainAt_valid {v : Volume} :
    ∀ {i c d : Nat}, chainAt v i c = some d → v.valid d := by
  intro i
  induction i with
  | zero =>
      intro c d h
      have hv := valid_of_chainAt h
      rw [chainAt_zero hv, Option.some.injEq] at h
      rw [← h]
      exact hv
  | succ i ih =>
      intro c d h
      rw [chainAt_succ (valid_of_chainAt h)] at h
      exact ih h

/-- A chain with a cluster at one place has one at every place before. -/
theorem chainAt_prefix {v : Volume} :
    ∀ {i j c d : Nat}, i ≤ j → chainAt v j c = some d → (chainAt v i c).isSome := by
  intro i
  induction i with
  | zero =>
      intro j c d _ h
      rw [chainAt_zero (valid_of_chainAt h)]
      rfl
  | succ i ih =>
      intro j c d hij h
      obtain ⟨j, rfl⟩ : ∃ k, j = k + 1 := ⟨j - 1, by omega⟩
      have hv := valid_of_chainAt h
      rw [chainAt_succ hv] at h ⊢
      exact ih (by omega) h

/-- Every cluster of a chain but the first is an entry of the table. -/
theorem chainAt_succ_lt {v : Volume} :
    ∀ {i c d : Nat}, chainAt v (i + 1) c = some d → d < 2 ^ 28 := by
  intro i
  induction i with
  | zero =>
      intro c d h
      rw [chainAt_succ (valid_of_chainAt h)] at h
      rw [chainAt_zero (valid_of_chainAt h), Option.some.injEq] at h
      rw [← h]
      exact v.fatEntry_lt c
  | succ i ih =>
      intro c d h
      rw [chainAt_succ (valid_of_chainAt h)] at h
      exact ih h

/-- Where the data of a cluster starts in the partition. -/
def Volume.clusterOffset (v : Volume) (cluster : Nat) : Nat :=
  v.dataOffset + v.bytesPerCluster * sub32 cluster 2

/--
The sectors a chain touches have numbers, and no stretch of consecutively numbered
clusters on it is so long that its length does not fit in a `u32`.
-/
structure ChainOK (v : Volume) (c : Nat) : Prop where
  fat : ∀ i d, chainAt v i c = some d → v.InRange (v.fatOffset + v.entryBits d / 8) 4
  data : ∀ i d, chainAt v i c = some d → v.InRange (v.clusterOffset d) v.bytesPerCluster
  run : ∀ i n d, (∀ k < n, chainAt v (i + k) c = some (d + k)) →
    n * v.bytesPerCluster < 2 ^ 32

/-- What holds of a chain holds of its rest. -/
theorem ChainOK.suffix {v : Volume} {c i d : Nat} (h : ChainOK v c)
    (hd : chainAt v i c = some d) : ChainOK v d where
  fat j e he := h.fat (i + j) e (by rw [chainAt_add j hd]; exact he)
  data j e he := h.data (i + j) e (by rw [chainAt_add j hd]; exact he)
  run j n e he := by
    refine h.run (i + j) n e fun k hk => ?_
    rw [Nat.add_assoc, chainAt_add (j + k) hd]
    exact he k hk

/-- The entries of a chain lie in sectors that have numbers. -/
def EntriesOK (v : Volume) (c : Nat) : Prop :=
  ∀ i d, chainAt v i c = some d → v.InRange (v.fatOffset + v.entryBits d / 8) 4

theorem EntriesOK.suffix {v : Volume} {c i d : Nat} (h : EntriesOK v c)
    (hd : chainAt v i c = some d) : EntriesOK v d :=
  fun j e he => h (i + j) e (by rw [chainAt_add j hd]; exact he)

/-! ### One extent -/

/-- The state with one cluster more in its extent. -/
def State.grown (v : Volume) (s : State) (c : Cache) : State :=
  { s with extentLen := u32 (s.extentLen + v.bytesPerCluster), cache := c }

section Turns

variable {v : Volume} {fuel cluster : Nat} {s : State}

/-- The chain ends. -/
theorem getExtentLoop_last (h : ¬v.valid (getFat v cluster s.cache).1) :
    getExtentLoop v (fuel + 1) cluster s = s.grown v (getFat v cluster s.cache).2 := by
  rw [getExtentLoop]
  exact if_pos (Nat.not_lt.mp h)

/-- The chain goes on elsewhere. -/
theorem getExtentLoop_break (h : v.valid (getFat v cluster s.cache).1)
    (hstep : (getFat v cluster s.cache).1 ≠ u32 (cluster + 1)) :
    getExtentLoop v (fuel + 1) cluster s
      = { s.grown v (getFat v cluster s.cache).2 with
          extentNextCluster := (getFat v cluster s.cache).1 } := by
  rw [getExtentLoop]
  dsimp only
  rw [if_neg (Nat.not_le.mpr h), if_pos hstep]
  rfl

/-- The chain goes on with the next cluster. -/
theorem getExtentLoop_next (h : v.valid (getFat v cluster s.cache).1)
    (hstep : (getFat v cluster s.cache).1 = u32 (cluster + 1)) :
    getExtentLoop v (fuel + 1) cluster s
      = getExtentLoop v fuel (getFat v cluster s.cache).1
          (s.grown v (getFat v cluster s.cache).2) := by
  rw [getExtentLoop]
  dsimp only
  rw [if_neg (Nat.not_le.mpr h), if_neg (not_not.mpr hstep)]
  rfl

end Turns

theorem getExtentLoop_calls_le (v : Volume) :
    ∀ (fuel cluster : Nat) (s : State),
      s.cache.calls ≤ (getExtentLoop v fuel cluster s).cache.calls := by
  intro fuel
  induction fuel with
  | zero => intro cluster s; exact Nat.le_refl _
  | succ fuel ih =>
      intro cluster s
      have hle := getFat_calls_le v cluster s.cache
      rw [getExtentLoop]
      dsimp only
      split
      · exact hle
      · split
        · exact hle
        · exact Nat.le_trans hle (ih _ { s with
            extentLen := u32 (s.extentLen + v.bytesPerCluster)
            cache := (getFat v cluster s.cache).2 })

/-- The run of consecutive clusters that starts at `d`, and what comes after it. -/
structure Run (v : Volume) (d n next : Nat) : Prop where
  pos : 0 < n
  consecutive : ∀ k < n, chainAt v k d = some (d + k)
  after : chainAt v n d = if next = 0 then none else some next

theorem consecutive_one {v : Volume} {d : Nat} (hd : v.valid d) :
    ∀ k < 1, chainAt v k d = some (d + k) := by
  intro k hk
  obtain rfl : k = 0 := by omega
  exact chainAt_zero hd

theorem consecutive_cons {v : Volume} {d n : Nat} (hd : v.valid d) (he : v.fatEntry d = d + 1)
    (h : ∀ k < n, chainAt v k (d + 1) = some (d + 1 + k)) :
    ∀ k < n + 1, chainAt v k d = some (d + k) := by
  intro k hk
  cases k with
  | zero => exact chainAt_zero hd
  | succ k =>
      rw [chainAt_succ hd, he, h k (by omega)]
      congr 1
      omega

theorem Run.single {v : Volume} {d : Nat} (hd : v.valid d) (h : ¬ v.valid (v.fatEntry d)) :
    Run v d 1 0 where
  pos := Nat.one_pos
  consecutive := consecutive_one hd
  after := by rw [chainAt_succ hd, chainAt_of_not_valid h, if_pos rfl]

theorem Run.break {v : Volume} {d : Nat} (hd : v.valid d) (h : v.valid (v.fatEntry d))
    (hne : v.fatEntry d ≠ 0) : Run v d 1 (v.fatEntry d) where
  pos := Nat.one_pos
  consecutive := consecutive_one hd
  after := by rw [chainAt_succ hd, chainAt_zero h, if_neg hne]

theorem Run.cons {v : Volume} {d n next : Nat} (hd : v.valid d) (he : v.fatEntry d = d + 1)
    (h : Run v (d + 1) n next) : Run v d (n + 1) next where
  pos := Nat.succ_pos n
  consecutive := consecutive_cons hd he h.consecutive
  after := by rw [chainAt_succ hd, he, h.after]

/-- The entry of the first cluster is read in any case. -/
theorem getFat_calls_le_loop (v : Volume) (fuel d : Nat) (s : State) :
    (getFat v d s.cache).2.calls ≤ (getExtentLoop v (fuel + 1) d s).cache.calls := by
  rw [getExtentLoop]
  dsimp only
  split
  · exact Nat.le_refl _
  · split
    · exact Nat.le_refl _
    · exact getExtentLoop_calls_le v fuel _ { s with
        extentLen := u32 (s.extentLen + v.bytesPerCluster)
        cache := (getFat v d s.cache).2 }

/-- One cluster more. -/
theorem u32_add_mul (len n b : Nat) : u32 (u32 (len + b) + n * b) = u32 (len + (n + 1) * b) := by
  unfold u32
  rw [Nat.mod_add_mod]
  congr 1
  ring

/--
**The loop of `get_extent` finds a run**, and as long a one as there is.  The clusters it
visits go up by one and stay below `clusters + 2`, so the number of clusters bounds the
iterations.
-/
theorem getExtentLoop_run {v : Volume} (hn : v.clusters + 2 < 2 ^ 32) :
    ∀ (fuel d : Nat) (s : State), v.valid d → d < 2 ^ 32 → v.clusters + 2 ≤ d + fuel →
      EntriesOK v d → Coherent v.dev s.cache → s.extentNextCluster = 0 →
      Full v.dev s.cache.calls (getExtentLoop v fuel d s).cache.calls →
      ∃ n, Run v d n (getExtentLoop v fuel d s).extentNextCluster ∧
        (getExtentLoop v fuel d s).extentNextCluster ≠ d + n ∧
        (getExtentLoop v fuel d s).extentLen = u32 (s.extentLen + n * v.bytesPerCluster) ∧
        (getExtentLoop v fuel d s).extentOffset = s.extentOffset ∧
        (getExtentLoop v fuel d s).fatFileSize = s.fatFileSize ∧
        Coherent v.dev (getExtentLoop v fuel d s).cache := by
  intro fuel
  induction fuel with
  | zero =>
      intro d s hd hlt hfuel
      have := (Volume.valid_iff hn hlt).mp hd
      omega
  | succ fuel ih =>
      intro d s hd hlt hfuel hok hc hnext hfull
      have hdr := (Volume.valid_iff hn hlt).mp hd
      have hgle := getFat_calls_le_loop v fuel d s
      obtain ⟨hg, hcoh⟩ := getFat_full (hok 0 d (chainAt_zero hd)) hc
        (hfull.mono (Nat.le_refl _) hgle)
      have hentry := v.fatEntry_lt d
      by_cases hval : v.valid (v.fatEntry d)
      · have hrange := (Volume.valid_iff hn (by omega)).mp hval
        have hu : u32 (d + 1) = d + 1 := Nat.mod_eq_of_lt (by omega)
        by_cases hstep : v.fatEntry d = d + 1
        · rw [hstep] at hval hg
          have hok' : EntriesOK v (d + 1) := by
            refine hok.suffix (i := 1) ?_
            rw [chainAt_succ hd, hstep, chainAt_zero hval]
          rw [getExtentLoop_next (by rw [hg]; exact hval) (by rw [hg, hu]), hg] at hfull ⊢
          obtain ⟨n, hrun, hmax, hlen, hoff, hsize, hcoh'⟩ := ih (d + 1)
            (s.grown v (getFat v d s.cache).2) hval (by omega) (by omega) hok' hcoh hnext
            (hfull.mono (getFat_calls_le _ _ _) (Nat.le_refl _))
          refine ⟨n + 1, hrun.cons hd hstep, by omega, ?_, hoff, hsize, hcoh'⟩
          exact hlen.trans (u32_add_mul _ _ _)
        · rw [getExtentLoop_break (by rw [hg]; exact hval) (by rw [hg, hu]; exact hstep), hg]
          exact ⟨1, Run.break hd hval (by omega), hstep, by rw [Nat.one_mul]; rfl, rfl, rfl, hcoh⟩
      · rw [getExtentLoop_last (by rw [hg]; exact hval)]
        have hend : s.extentNextCluster ≠ d + 1 := by omega
        refine ⟨1, ?_, hend, by rw [Nat.one_mul]; rfl, rfl, rfl, hcoh⟩
        show Run v d 1 s.extentNextCluster
        rw [hnext]
        exact Run.single hd hval

end Xell.Fat
