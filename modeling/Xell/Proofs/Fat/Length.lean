/-
The length of an extent.

`extent_len` is a sum of 32 bits over a run of clusters.  A file has less than 2^32 bytes,
but its last cluster is counted whole.  So the sum wraps for files whose size, rounded up
to clusters, is 2^32 bytes or more, if all of their clusters are one run, and for no other.
For those the first extent comes out as what is left of it modulo 2^32, which is nothing
at all where clusters have a power of two of bytes.
-/
import Xell.Proofs.Fat.Geometry

namespace Xell.Fat

/-- The chain from `c` starts with `n` clusters in a row, and not with one more. -/
structure FirstRun (v : Volume) (c n : Nat) : Prop where
  consecutive : ∀ k < n, chainAt v k c = some (c + k)
  maximal : chainAt v n c ≠ some (c + n)

/-- How many clusters a file of `size` bytes takes. -/
def clustersFor (v : Volume) (size : Nat) : Nat :=
  (size + v.bytesPerCluster - 1) / v.bytesPerCluster

/-- A file of `size` bytes starts at `c`: its chain is as long as it has to be, and no longer. -/
structure FileAt (v : Volume) (c size : Nat) : Prop where
  pos : 1 ≤ size
  lt : size < 2 ^ 32
  chain : ∀ i, (chainAt v i c).isSome = true ↔ i < clustersFor v size
  fat : EntriesOK v c
  data : ∀ i d, chainAt v i c = some d → v.InRange (v.clusterOffset d) v.bytesPerCluster

/--
What `get_extent` should leave of a file whose chain starts with `n` clusters in a row: an
extent of all of them, so that the file can be read up to its end or theirs.
-/
structure ExtentWhole (v : Volume) (c n size : Nat) (s : State) : Prop where
  length : s.extentLen = n * v.bytesPerCluster
  reads : ∀ (data : Nat) (m : Mem UInt8),
    (readExtent v data (min size (n * v.bytesPerCluster)) m s).err = 0 ∧
      (readExtent v data (min size (n * v.bytesPerCluster)) m s).mem.slice data
          (min size (n * v.bytesPerCluster))
        = chainBytes v c (min size (n * v.bytesPerCluster))

variable {v : Volume}

/-- A run ends where the next cluster is another one than the next number. -/
theorem FirstRun.eq_of_run {c n k next : Nat} (h : FirstRun v c n) (hrun : Run v c k next)
    (hmax : next ≠ c + k) : k = n := by
  have hafter := hrun.after
  rcases Nat.lt_trichotomy k n with hlt | heq | hgt
  · rw [h.consecutive k hlt] at hafter
    split at hafter
    · simp at hafter
    · exact absurd (Option.some.inj hafter).symm hmax
  · exact heq
  · exact absurd (hrun.consecutive n hgt) h.maximal

/-- A read that stays in the current extent. -/
theorem readExtent_inside (hfull : ∀ k t, v.dev.answer k t = .full) {s : State}
    (hcoh : Coherent v.dev s.cache) (data : Nat) {len : Nat} (m : Mem UInt8)
    (hlen : len ≤ s.extentLen) (hr : v.InRange s.extentOffset len) :
    (readExtent v data len m s).err = 0 ∧
      (readExtent v data len m s).mem = m.store data len fun i => v.byte (s.extentOffset + i) := by
  unfold readExtent
  cases len with
  | zero => exact ⟨rfl, (Mem.store_zero m data _).symm⟩
  | succ len =>
      obtain ⟨herr, hmem, -⟩ := @read_full v data s.extentOffset (len + 1) m s.cache hr hcoh
        fun k _ _ => hfull k
      rw [readExtentLoop_piece len data m (by omega) (by omega)
        (show len + 1 = min (len + 1) s.extentLen by omega)]
      dsimp only
      rw [if_neg (by simp [herr]), Nat.sub_self, ← hmem]
      cases len with
      | zero => exact ⟨rfl, rfl⟩
      | succ len =>
          rw [readExtentLoop, if_pos rfl]
          exact ⟨rfl, rfl⟩

section File

variable (hv : v.OK) (hfull : ∀ k t, v.dev.answer k t = .full) {c n size : Nat}
  (hlo : 2 ≤ c) (hhi : c < v.clusters + 2) (hfile : FileAt v c size) (hrun : FirstRun v c n)

include hv hlo hhi hfile hrun

omit hfile in
theorem FirstRun.pos : 0 < n := by
  refine Nat.pos_of_ne_zero fun hz => ?_
  subst hz
  have hlt := hv.clusters_lt
  exact hrun.maximal (chainAt_zero ((hv.valid_iff (by omega)).mpr ⟨hlo, hhi⟩))

/-- The first run fits in 32 bits unless it is all of a file that does not, rounded up. -/
theorem FirstRun.lt_of_not (h : ¬ (n = clustersFor v size ∧ 2 ^ 32 ≤ n * v.bytesPerCluster)) :
    n * v.bytesPerCluster < 2 ^ 32 := by
  by_contra hge
  refine h ⟨?_, Nat.not_lt.mp hge⟩
  have hpos := hrun.pos hv hlo hhi
  have hbpc := hv.cluster_pos
  have hlast : n - 1 < clustersFor v size := by
    refine (hfile.chain (n - 1)).mp ?_
    rw [hrun.consecutive (n - 1) (by omega)]
    rfl
  by_contra hne
  -- all clusters but the last are full
  have hfull : n * v.bytesPerCluster ≤ size := by
    have hle : n + 1 ≤ clustersFor v size := by omega
    have hmul := (Nat.le_div_iff_mul_le hbpc).mp hle
    rw [Nat.add_mul, Nat.one_mul] at hmul
    omega
  have := hfile.lt
  omega

include hfull

/-- What `get_extent` leaves of a file. -/
theorem getExtent_file {s : State} (hcoh : Coherent v.dev s.cache) :
    (getExtent v c s).extentLen = u32 (n * v.bytesPerCluster) ∧
      (getExtent v c s).extentOffset = v.clusterOffset c ∧
      v.InRange (v.clusterOffset c) (n * v.bytesPerCluster) ∧
      Coherent v.dev (getExtent v c s).cache := by
  have hlt := hv.clusters_lt
  have hval : v.valid c := (hv.valid_iff (by omega)).mpr ⟨hlo, hhi⟩
  have hroot : ¬ isRootArea v c := fun h => by
    have := h.1
    omega
  have hstart : startCluster v c = c := if_neg (by omega)
  rw [getExtent_chain s hroot (by rwa [hstart]), hstart]
  obtain ⟨k, hk, hmax, hlen, hoff, -, hcoh'⟩ := getExtentLoop_run hlt v.clusters c { s with
      extentOffset := u64 (v.clusterOffset c)
      extentLen := 0
      extentNextCluster := 0 } hval (by omega) (by omega) hfile.fat hcoh rfl fun k _ _ => hfull k
  obtain rfl := hrun.eq_of_run hk hmax
  have hin := inRange_run hlt (by omega) hfile.data hk.pos hk.consecutive
  refine ⟨by rw [hlen, Nat.zero_add], ?_, hin, hcoh'⟩
  rw [hoff]
  unfold Volume.InRange at hin
  exact Nat.mod_eq_of_lt (by omega)

end File

/--
**When an extent has its whole length**: unless the file is one run of clusters that have
2^32 bytes or more between them.
-/
theorem extent_whole_iff (hv : v.OK) (hfull : ∀ k t, v.dev.answer k t = .full) {c n size : Nat}
    (hlo : 2 ≤ c) (hhi : c < v.clusters + 2) (hfile : FileAt v c size) (hrun : FirstRun v c n)
    {s : State} (hcoh : Coherent v.dev s.cache) :
    ExtentWhole v c n size (getExtent v c s) ↔
      ¬ (n = clustersFor v size ∧ 2 ^ 32 ≤ n * v.bytesPerCluster) := by
  obtain ⟨hlen, hoff, hin, hcoh'⟩ := getExtent_file hv hfull hlo hhi hfile hrun hcoh
  constructor
  · rintro h ⟨-, hge⟩
    have hlt : u32 (n * v.bytesPerCluster) < 2 ^ 32 := Nat.mod_lt _ (by decide)
    rw [← hlen, h.length] at hlt
    omega
  · intro h
    have hlt := hrun.lt_of_not hv hlo hhi hfile h
    have hlen' : (getExtent v c s).extentLen = n * v.bytesPerCluster := by
      rw [hlen]
      exact Nat.mod_eq_of_lt hlt
    refine ⟨hlen', fun data m => ?_⟩
    have hle : min size (n * v.bytesPerCluster) ≤ n * v.bytesPerCluster := Nat.min_le_right _ _
    obtain ⟨herr, hmem⟩ := readExtent_inside hfull hcoh' data m (hle.trans_eq hlen'.symm)
      (by rw [hoff]; exact hin.shorten hle)
    refine ⟨herr, ?_⟩
    rw [hmem, Mem.slice_store, hoff]
    refine List.map_congr_left fun j hj => ?_
    have hj' : j < n * v.bytesPerCluster := Nat.lt_of_lt_of_le (List.mem_range.mp hj) hle
    have hsmall := hv.clusters_lt
    unfold streamByte
    rw [chainLoc_run hsmall (by omega) hrun.consecutive hj']
    rfl

/-! ### A file of four gigabytes -/

theorem le32_eq (p : Mem UInt8) (a : Nat) :
    le32 p a = (p a).toNat + 2 ^ 8 * (p (a + 1)).toNat + 2 ^ 16 * (p (a + 2)).toNat
      + 2 ^ 24 * (p (a + 3)).toNat := by
  have h0 := (p a).toNat_lt
  have h1 := (p (a + 1)).toNat_lt
  have h2 := (p (a + 2)).toNat_lt
  unfold le32
  rw [← Nat.or_comm ((p (a + 1)).toNat <<< 8), Nat.shiftLeft_eq, Nat.mul_comm _ (2 ^ 8),
    ← Nat.two_pow_add_eq_or_of_lt h0, ← Nat.or_comm ((p (a + 2)).toNat <<< 16), Nat.shiftLeft_eq,
    Nat.mul_comm _ (2 ^ 16), ← Nat.two_pow_add_eq_or_of_lt (by omega),
    ← Nat.or_comm ((p (a + 3)).toNat <<< 24), Nat.shiftLeft_eq, Nat.mul_comm _ (2 ^ 24),
    ← Nat.two_pow_add_eq_or_of_lt (by omega)]
  omega

/-- Byte `i` of a long word. -/
def longByte (n i : Nat) : UInt8 := UInt8.ofNat (n / 256 ^ i)

theorem le32_longByte {p : Mem UInt8} {a n : Nat} (hn : n < 2 ^ 32)
    (h : ∀ i < 4, p (a + i) = longByte n i) : le32 p a = n := by
  have h0 := h 0 (by omega)
  rw [Nat.add_zero] at h0
  rw [le32_eq, h0, h 1 (by omega), h 2 (by omega), h 3 (by omega)]
  unfold longByte
  simp only [UInt8.toNat_ofNat']
  omega

/-- A chain that goes up by one from `c` as far as `c + n` and ends there. -/
theorem chainAt_up {n : Nat} :
    ∀ {c : Nat}, (∀ k ≤ n, v.valid (c + k)) → (∀ k < n, v.fatEntry (c + k) = c + k + 1) →
      ¬ v.valid (v.fatEntry (c + n)) →
      ∀ i, chainAt v i c = if i ≤ n then some (c + i) else none := by
  induction n with
  | zero =>
      intro c hval _ hend i
      have hc : v.valid c := hval 0 (Nat.le_refl 0)
      rw [Nat.add_zero] at hend
      cases i with
      | zero => rw [chainAt_zero hc, if_pos (Nat.le_refl 0), Nat.add_zero]
      | succ i => rw [chainAt_succ hc, chainAt_of_not_valid hend, if_neg (by omega)]
  | succ n ih =>
      intro c hval hup hend i
      have hc : v.valid c := hval 0 (Nat.zero_le _)
      have hfirst : v.fatEntry c = c + 1 := hup 0 (Nat.succ_pos n)
      cases i with
      | zero => rw [chainAt_zero hc, if_pos (Nat.zero_le _), Nat.add_zero]
      | succ i =>
          have hrest := ih (c := c + 1)
            (fun k hk => by
              rw [Nat.add_right_comm, Nat.add_assoc]
              exact hval (k + 1) (by omega))
            (fun k hk => by
              rw [Nat.add_right_comm, Nat.add_assoc]
              exact hup (k + 1) (by omega))
            (by rwa [Nat.add_right_comm, Nat.add_assoc]) i
          rw [chainAt_succ hc, hfirst, hrest]
          by_cases hi : i ≤ n
          · rw [if_pos hi, if_pos (by omega)]
            congr 1
            omega
          · rw [if_neg hi, if_neg (by omega)]

theorem stick_chain (i : Nat) : chainAt stick i 2 = if i ≤ 1 then some (2 + i) else none := by
  refine chainAt_up (by decide) ?_ (by decide +kernel) i
  intro k hk
  obtain rfl : k = 0 := by omega
  decide +kernel

theorem stick_file : FileAt stick 2 600 where
  pos := by decide
  lt := by decide
  chain i := by
    rw [stick_chain, show clustersFor stick 600 = 2 by decide]
    by_cases hi : i ≤ 1
    · rw [if_pos hi]
      exact ⟨fun _ => by omega, fun _ => rfl⟩
    · rw [if_neg hi]
      exact ⟨fun h => by simp at h, fun h => by omega⟩
  fat := (stick_chainOK (by decide)).fat
  data := (stick_chainOK (by decide)).data

/-- The two clusters of the stick's file are one extent of 1024 bytes. -/
theorem stick_extent_whole : ExtentWhole stick 2 2 600 (getExtent stick 2 State.fresh) := by
  have hrun : FirstRun stick 2 2 := by
    refine ⟨fun k hk => ?_, ?_⟩
    · rw [stick_chain, if_pos (by omega)]
    · rw [stick_chain, if_neg (by omega)]
      simp
  exact (extent_whole_iff stick_ok (fun _ _ => rfl) (by decide) (by decide) stick_file hrun
    (State.fresh_coherent _)).mpr (by decide)

/-- The boot sector of a FAT32 volume of 65536 clusters of 64 KB. -/
def longBoot : Mem UInt8 := bootSector 128 32 1 0 8389153 513

/-- The table of a file on all of them, one after the other. -/
def longDisk (a : Nat) : UInt8 :=
  if a < 0x4000 then longBoot a
  else longByte (if (a - 0x4000) / 4 < 65537 then (a - 0x4000) / 4 + 1 else 0x0fffffff)
    ((a - 0x4000) % 4)

def longStick : Volume :=
  { probe (answering longDisk) 0 0 with
    bytesPerCluster := 0x10000
    clusters := 65536
    clusters_lt := by decide
    fatType := .fat32
    fatOffset := 0x4000
    rootOffset := 2
    dataOffset := 279040 }

theorem longStick_boots : isFatFs longDisk 0 = true ∧
    (fatInitFs (probe (answering longDisk) 0 0) longDisk 0).map Volume.geometry
      = some longStick.geometry :=
  ⟨by decide +kernel, by decide +kernel⟩

theorem longStick_ok : longStick.OK := ⟨by decide, by decide⟩

theorem longStick_fatEntry {d : Nat} (hd : d < 2 ^ 20) :
    longStick.fatEntry d = if d < 65537 then d + 1 else 0x0fffffff := by
  have hbits : longStick.entryBits d = 8 * (4 * d) := by
    show d * 32 % 2 ^ 32 = _
    omega
  unfold Volume.fatEntry
  rw [hbits, and_fatMask, show 8 * (4 * d) / 8 = 4 * d by omega,
    show 8 * (4 * d) % 8 = 0 by omega, Nat.shiftRight_zero]
  have hword : le32 (fun i => longStick.byte (longStick.fatOffset + 4 * d + i)) 0
      = if d < 65537 then d + 1 else 0x0fffffff := by
    refine le32_longByte (by split <;> omega) fun i hi => ?_
    show longDisk (0x4000 + 4 * d + (0 + i) + 0) = _
    unfold longDisk
    rw [if_neg (by omega), show (0x4000 + 4 * d + (0 + i) + 0 - 0x4000) / 4 = d by omega,
      show (0x4000 + 4 * d + (0 + i) + 0 - 0x4000) % 4 = i by omega]
  rw [hword]
  show _ % 2 ^ 28 = _
  split <;> omega

theorem longStick_chain (i : Nat) :
    chainAt longStick i 2 = if i ≤ 65535 then some (2 + i) else none := by
  refine chainAt_up ?_ ?_ ?_ i
  · intro k hk
    exact (longStick_ok.valid_iff (by omega)).mpr ⟨by omega, show 2 + k < 65536 + 2 by omega⟩
  · intro k hk
    rw [longStick_fatEntry (by omega), if_pos (by omega)]
  · rw [longStick_fatEntry (by omega), if_neg (by omega)]
    decide

theorem longStick_file : FileAt longStick 2 (2 ^ 32 - 1) where
  pos := by decide
  lt := by decide
  chain i := by
    rw [longStick_chain, show clustersFor longStick (2 ^ 32 - 1) = 65536 by decide]
    by_cases hi : i ≤ 65535
    · rw [if_pos hi]
      exact ⟨fun _ => by omega, fun _ => rfl⟩
    · rw [if_neg hi]
      exact ⟨fun h => by simp at h, fun h => by omega⟩
  fat i d _ := by
    have hlt : longStick.entryBits d < 2 ^ 32 := Nat.mod_lt _ (by decide)
    show 0x4000 + longStick.entryBits d / 8 + 0 + 4 ≤ _
    omega
  data i d hd := by
    have hlt : sub32 d 2 < 65536 := chainAt_valid hd
    show 279040 + 0x10000 * sub32 d 2 + 0 + 0x10000 ≤ _
    omega

theorem longStick_run : FirstRun longStick 2 65536 where
  consecutive k hk := by rw [longStick_chain, if_pos (by omega)]
  maximal := by
    rw [longStick_chain, if_neg (by omega)]
    simp

/-- The length of its only extent is a whole 2^32, and `extent_len` is zero. -/
theorem longStick_extent_empty :
    (isFatFs longDisk 0 = true ∧
      (fatInitFs (probe (answering longDisk) 0 0) longDisk 0).map Volume.geometry
        = some longStick.geometry) ∧
      FileAt longStick 2 (2 ^ 32 - 1) ∧ FirstRun longStick 2 65536 ∧
    (getExtent longStick 2 State.fresh).extentLen = 0 ∧
      ¬ ExtentWhole longStick 2 65536 (2 ^ 32 - 1) (getExtent longStick 2 State.fresh) := by
  obtain ⟨hlen, -, -, -⟩ := getExtent_file longStick_ok (fun _ _ => rfl) (by decide)
    (show 2 < 65536 + 2 by decide) longStick_file longStick_run (State.fresh_coherent _)
  have hzero : (getExtent longStick 2 State.fresh).extentLen = 0 := by
    rw [hlen]
    decide
  refine ⟨longStick_boots, longStick_file, longStick_run, hzero, fun h => ?_⟩
  have hlength := h.length
  rw [hzero] at hlength
  exact absurd hlength (by decide)

end Xell.Fat
