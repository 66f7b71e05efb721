/-
Entries of the allocation table.

`get_fat` serves three formats with one computation: it multiplies the cluster number by
the width of an entry, reads the four bytes from the byte that bit lies in, shifts and
masks.  `tableEntry` says what the formats mean, each in its own way, and `window` that
four bytes are enough for any of them: an entry of FAT12 starts in the middle of a byte
at most, and the other two start at one.

What is left is the product, which is taken in 32 bits.  It is exact for every cluster of
a FAT12 or FAT16 volume.  A FAT32 volume may have more than 2^27 clusters, and from that
number on `get_fat` reads the entry of a cluster 2^27 or a multiple of it below.
-/
import Xell.Proofs.Fat.Endless

namespace Xell.Fat

/-! ### Fields of a table -/

/-- Bit `b` of a table of bytes, the low bit of each byte first. -/
def tableBit (table : Mem UInt8) (b : Nat) : Bool := (table (b / 8)).toNat.testBit (b % 8)

/-- The `n` bits from bit `b` on, the low one first. -/
def field (table : Mem UInt8) (b n : Nat) : Nat :=
  Nat.ofBits fun k : Fin n => tableBit table (b + k)

/-- The entry of a cluster: a field of 12 bits, a word, or the low 28 bits of a long word. -/
def tableEntry (table : Mem UInt8) : FatType → Nat → Nat
  | .fat12, c => field table (12 * c) 12
  | .fat16, c => le16 table (2 * c)
  | .fat32, c => le32 table (4 * c) % 2 ^ 28

theorem toNat_testBit (x : UInt8) {k : Nat} (hk : 8 ≤ k) : x.toNat.testBit k = false := by
  refine Nat.testBit_lt_two_pow (Nat.lt_of_lt_of_le x.toNat_lt ?_)
  exact Nat.pow_le_pow_right (by decide) hk

theorem tableBit_byte (table : Mem UInt8) (a i : Nat) {k : Nat} (hi : 8 * i ≤ k)
    (hk : k < 8 * i + 8) : tableBit table (8 * a + k) = (table (a + i)).toNat.testBit (k - 8 * i) := by
  unfold tableBit
  rw [show (8 * a + k) / 8 = a + i by omega, show (8 * a + k) % 8 = k - 8 * i by omega]

theorem le16_testBit (table : Mem UInt8) (a k : Nat) :
    (le16 table a).testBit k = (decide (k < 16) && tableBit table (8 * a + k)) := by
  unfold le16
  simp only [Nat.testBit_or, Nat.testBit_shiftLeft]
  by_cases h0 : k < 8
  · rw [tableBit_byte table a 0 (by omega) (by omega)]
    simp [show ¬ 8 ≤ k by omega, show k < 16 by omega]
  rw [toNat_testBit (table a) (by omega)]
  by_cases h1 : k < 16
  · rw [tableBit_byte table a 1 (by omega) (by omega)]
    simp [h1, show 8 ≤ k by omega]
  · rw [toNat_testBit (table (a + 1)) (by omega)]
    simp [h1]

theorem le32_testBit (table : Mem UInt8) (a k : Nat) :
    (le32 table a).testBit k = (decide (k < 32) && tableBit table (8 * a + k)) := by
  unfold le32
  simp only [Nat.testBit_or, Nat.testBit_shiftLeft]
  by_cases h0 : k < 8
  · rw [tableBit_byte table a 0 (by omega) (by omega)]
    simp [show ¬ 8 ≤ k by omega, show ¬ 16 ≤ k by omega, show ¬ 24 ≤ k by omega,
      show k < 32 by omega]
  rw [toNat_testBit (table a) (by omega)]
  by_cases h1 : k < 16
  · rw [tableBit_byte table a 1 (by omega) (by omega)]
    simp [show 8 ≤ k by omega, show ¬ 16 ≤ k by omega, show ¬ 24 ≤ k by omega,
      show k < 32 by omega]
  rw [toNat_testBit (table (a + 1)) (by omega)]
  by_cases h2 : k < 24
  · rw [tableBit_byte table a 2 (by omega) (by omega)]
    simp [show 16 ≤ k by omega, show ¬ 24 ≤ k by omega, show k < 32 by omega]
  rw [toNat_testBit (table (a + 2)) (by omega)]
  by_cases h3 : k < 32
  · rw [tableBit_byte table a 3 (by omega) (by omega)]
    simp [show 24 ≤ k by omega, h3]
  · rw [toNat_testBit (table (a + 3)) (by omega)]
    simp [h3]

/-- Four bytes hold every field that starts in the first of them and is short enough. -/
theorem window (table : Mem UInt8) {b n : Nat} (hn : b % 8 + n ≤ 32) :
    (le32 (fun i => table (b / 8 + i)) 0 >>> (b % 8)) % 2 ^ n = field table b n := by
  refine Nat.eq_of_testBit_eq fun k => ?_
  unfold field
  rw [Nat.testBit_mod_two_pow, Nat.testBit_shiftRight, le32_testBit, Nat.testBit_ofBits]
  split
  · rename_i hk
    have hwin : tableBit (fun i => table (b / 8 + i)) (8 * 0 + (b % 8 + k))
        = tableBit table (b + k) := by
      unfold tableBit
      dsimp only
      rw [show b / 8 + (8 * 0 + (b % 8 + k)) / 8 = (b + k) / 8 by omega,
        show (8 * 0 + (b % 8 + k)) % 8 = (b + k) % 8 by omega]
    rw [hwin]
    simp [hk, show b % 8 + k < 32 by omega]
  · rename_i hk
    simp [hk]

/-- How many bits of an entry count. -/
def FatType.width : FatType → Nat
  | .fat12 => 12
  | .fat16 => 16
  | .fat32 => 28

/-- The three formats are one: fields of the same width, one after another. -/
theorem tableEntry_field (table : Mem UInt8) (t : FatType) (c : Nat) :
    tableEntry table t c = field table (c * t.bits) t.width := by
  refine Nat.eq_of_testBit_eq fun k => ?_
  unfold field
  rw [Nat.testBit_ofBits]
  cases t with
  | fat12 =>
      show (field table (12 * c) 12).testBit k = _
      unfold field
      rw [Nat.testBit_ofBits, Nat.mul_comm]
      rfl
  | fat16 =>
      show (le16 table (2 * c)).testBit k = _
      rw [le16_testBit, show 8 * (2 * c) = c * FatType.fat16.bits by simp only [FatType.bits]; omega]
      split
      · rename_i hk
        simp [show k < 16 from hk]
      · rename_i hk
        simp [show ¬ k < 16 from hk]
  | fat32 =>
      show (le32 table (4 * c) % 2 ^ 28).testBit k = _
      rw [Nat.testBit_mod_two_pow, le32_testBit,
        show 8 * (4 * c) = c * FatType.fat32.bits by simp only [FatType.bits]; omega]
      split
      · rename_i hk
        have hk' : k < 28 := hk
        simp [hk', show k < 32 by omega]
      · rename_i hk
        simp [show ¬ k < 28 from hk]

/-- The two masks of `get_fat` cut off what is no part of the entry. -/
theorem and_fatMask (x : Nat) (t : FatType) :
    x &&& fatMask t &&& 0x0fffffff = x % 2 ^ t.width := by
  have hmask : fatMask t &&& 0x0fffffff = 2 ^ t.width - 1 := by cases t <;> decide
  rw [Nat.and_assoc, hmask, Nat.and_two_pow_sub_one_eq_mod]

theorem width_fits (t : FatType) (c : Nat) : c * t.bits % 8 + t.width ≤ 32 := by
  cases t <;> simp only [FatType.bits, FatType.width] <;> omega

/-- **Where the product does not wrap, an entry is decoded as the format has it.** -/
theorem decode_entry (table : Mem UInt8) (t : FatType) {c : Nat} (hc : c * t.bits < 2 ^ 32) :
    (le32 (fun i => table (u32 (c * t.bits) / 8 + i)) 0 >>> (u32 (c * t.bits) % 8))
      &&& fatMask t &&& 0x0fffffff = tableEntry table t c := by
  rw [and_fatMask, u32, Nat.mod_eq_of_lt hc, window table (width_fits t c), tableEntry_field]

/-! ### On a disk -/

/-- A device has no more sectors than 32-bit numbers. -/
theorem Bdev.seen_eq (dev : Bdev) (o : Nat) : dev.seen o = dev.disk (o % 2 ^ 41) := by
  unfold Bdev.seen u32 u64
  congr 1
  omega

/-- The allocation table of a volume. -/
def Volume.table (v : Volume) : Mem UInt8 := fun i => v.seen (v.fatOffset + i)

/-- The same geometry on another device. -/
def Volume.onDev (v : Volume) (dev : Bdev) : Volume := { v with dev := dev }

/--
The entry of a cluster is found right on every disk that has this boot sector where the
partition starts, with a cache that holds a sector of it.
-/
def DecodesEntry (v : Volume) (boot : Mem UInt8) (c : Nat) : Prop :=
  ∀ (dev : Bdev) (cache : Cache), (∀ k t, dev.answer k t = .full) →
    (∀ i < 0x200, dev.seen (v.partitionStartOffset + i) = boot i) → Holds dev cache →
    (getFat (v.onDev dev) c cache).1 = tableEntry (v.onDev dev).table v.fatType c

theorem getFat_entry {v : Volume} (hfull : ∀ k t, v.dev.answer k t = .full) {c : Nat}
    (hc : c * v.fatType.bits < 2 ^ 32) {cache : Cache} (hcache : Holds v.dev cache) :
    (getFat v c cache).1 = tableEntry v.table v.fatType c := by
  obtain ⟨hval, -⟩ := getFat_seen hfull c hcache
  rw [hval, ← decode_entry v.table v.fatType hc]
  unfold Volume.entrySeen Volume.entryBits Volume.table
  simp only [Nat.add_assoc]

theorem le32_mod (p : Mem UInt8) (a : Nat) : le32 p a % 2 ^ 8 = (p a).toNat := by
  have h0 := (p a).toNat_lt
  unfold le32
  simp only [Nat.or_mod_two_pow, Nat.shiftLeft_eq]
  rw [show (p (a + 1)).toNat * 2 ^ 8 % 2 ^ 8 = 0 by omega,
    show (p (a + 2)).toNat * 2 ^ 16 % 2 ^ 8 = 0 by omega,
    show (p (a + 3)).toNat * 2 ^ 24 % 2 ^ 8 = 0 by omega]
  simp only [Nat.or_zero]
  omega

/-! A disk for a partition that starts at `start`: the boot sector, zeros, and one byte at
`place`, counted from the start of the partition, that differs from the one at `other`. -/

section Spoilt

variable (start : Nat) (boot : Mem UInt8) (place other : Nat)

def spoiltByte (i : Nat) : UInt8 :=
  if i < 0x200 then boot i else 0

def spoiltDisk (a : Nat) : UInt8 :=
  let i := (a + (2 ^ 41 - start % 2 ^ 41)) % 2 ^ 41
  if i = place then spoiltByte boot other + 1 else spoiltByte boot i

theorem spoiltDisk_seen {i : Nat} (hi : i < 2 ^ 41) :
    (answering (spoiltDisk start boot place other)).seen (start + i)
      = if i = place then spoiltByte boot other + 1 else spoiltByte boot i := by
  have hrel : ((start + i) % 2 ^ 41 + (2 ^ 41 - start % 2 ^ 41)) % 2 ^ 41 = i := by omega
  rw [Bdev.seen_eq]
  show spoiltDisk start boot place other ((start + i) % 2 ^ 41) = _
  unfold spoiltDisk
  rw [hrel]

end Spoilt

/-- The cache right after the first sector of a device was read. -/
def firstSector (dev : Bdev) : Cache where
  rawBuf := dev.disk
  current := 0
  calls := 1

theorem firstSector_holds (dev : Bdev) : Holds dev (firstSector dev) := by
  intro i _
  show dev.disk i = dev.disk (0x200 * 0 + i)
  rw [Nat.mul_zero, Nat.zero_add]

section Fat32

variable {v : Volume} (ht : v.fatType = .fat32) (c : Nat)

include ht

theorem entrySeen_fat32 :
    v.entrySeen c = le32 (fun i => v.seen (v.fatOffset + 4 * c % 2 ^ 29 + i)) 0 % 2 ^ 28 := by
  have hbits : v.entryBits c = 8 * (4 * c % 2 ^ 29) := by
    unfold Volume.entryBits
    rw [ht]
    show c * 32 % 2 ^ 32 = _
    omega
  unfold Volume.entrySeen
  rw [hbits, ht, and_fatMask, show 8 * (4 * c % 2 ^ 29) % 8 = 0 by omega, Nat.shiftRight_zero,
    show 8 * (4 * c % 2 ^ 29) / 8 = 4 * c % 2 ^ 29 by omega]
  rfl

theorem tableEntry_fat32 :
    tableEntry v.table v.fatType c = le32 (fun i => v.seen (v.fatOffset + 4 * c + i)) 0 % 2 ^ 28 := by
  have hword : le32 v.table (4 * c) = le32 (fun i => v.seen (v.fatOffset + 4 * c + i)) 0 := by
    refine le32_congr fun i _ => ?_
    show v.seen (v.fatOffset + (4 * c + i)) = _
    rw [Nat.zero_add, Nat.add_assoc]
  rw [ht, ← hword]
  rfl

end Fat32

/-- Where it does wrap, there is a disk on which another entry is read. -/
theorem not_decodesEntry {v : Volume} {c : Nat} (boot : Mem UInt8) (ht : v.fatType = .fat32)
    (hoff : v.fatOffset < 2 ^ 28) (hc : c < 2 ^ 32) (hwrap : 2 ^ 27 ≤ c) :
    ¬ DecodesEntry v boot c := by
  intro h
  -- the entry that is read and the one that is meant
  obtain ⟨o, ho⟩ : ∃ o, o = v.fatOffset + 4 * c % 2 ^ 29 := ⟨_, rfl⟩
  obtain ⟨q, hq⟩ : ∃ q, q = v.fatOffset + 4 * c := ⟨_, rfl⟩
  obtain ⟨dev, hdev⟩ : ∃ dev, dev = answering (spoiltDisk v.partitionStartOffset boot q o) :=
    ⟨_, rfl⟩
  have hseen : ∀ i < 2 ^ 41, dev.seen (v.partitionStartOffset + i)
      = if i = q then spoiltByte boot o + 1 else spoiltByte boot i := by
    intro i hi
    rw [hdev]
    exact spoiltDisk_seen _ boot q o hi
  have hfull : ∀ k t, dev.answer k t = .full := by
    rw [hdev]
    exact fun _ _ => rfl
  have hboot : ∀ i < 0x200, dev.seen (v.partitionStartOffset + i) = boot i := by
    intro i hi
    rw [hseen i (by omega), if_neg (by omega)]
    exact if_pos hi
  have heq := h dev (firstSector dev) hfull hboot (firstSector_holds dev)
  have ht' : (v.onDev dev).fatType = .fat32 := ht
  rw [(getFat_seen (v := v.onDev dev) hfull c (firstSector_holds dev)).1,
    entrySeen_fat32 ht' c, show v.fatType = (v.onDev dev).fatType from rfl,
    tableEntry_fat32 ht' c] at heq
  have hlow : (v.onDev dev).seen o = (v.onDev dev).seen q := by
    have hmod := congrArg (· % 2 ^ 8) heq
    simp only [Nat.mod_mod_of_dvd _ (show 2 ^ 8 ∣ 2 ^ 28 by decide), le32_mod, Nat.add_zero] at hmod
    rw [ho, hq]
    exact UInt8.toNat_inj.mp hmod
  have hat : ∀ i, (v.onDev dev).seen i = dev.seen (v.partitionStartOffset + i) := by
    intro i
    rw [Nat.add_comm]
    rfl
  rw [hat, hat, hseen o (by omega), hseen q (by omega), if_neg (by omega), if_pos rfl] at hlow
  exact absurd hlow (by simp)

/-! ### The volumes of boot sectors -/

/-- What the number of clusters says about the format. -/
theorem fatInitFs_type {v₀ v : Volume} {p : Mem UInt8} {sb : Nat} (h : fatInitFs v₀ p sb = some v) :
    v.fatType = if v.clusters < 0x0ff5 then .fat12 else if v.clusters < 0xfff5 then .fat16
      else .fat32 := by
  unfold fatInitFs at h
  dsimp only at h
  split at h
  · simp at h
  · cases h
    rfl

theorem fatInitFs_fatOffset {v₀ v : Volume} {p : Mem UInt8} {sb : Nat}
    (h : fatInitFs v₀ p sb = some v) : v.fatOffset = le16 p (sb + 0x0b) * le16 p (sb + 0x0e) := by
  unfold fatInitFs at h
  dsimp only at h
  split at h
  · simp at h
  · cases h
    rfl

theorem isFatFs_le {p : Mem UInt8} {sb : Nat} (h : isFatFs p sb = true) :
    0x200 ≤ le16 p (sb + 0x0b) ∧ le16 p (sb + 0x0b) ≤ 0x1000 := by
  unfold isFatFs at h
  dsimp only at h
  split at h
  · simp at h
  · omega

/--
**When `get_fat` decodes the entry of a cluster right**: exactly when the place of the entry,
counted in bits, is below 2^32.  That is every cluster of a FAT12 or FAT16 volume, and the
clusters below 2^27 of a FAT32 volume.
-/
theorem getFat_decodes_iff {v₀ v : Volume} {p : Mem UInt8} {sb : Nat} (hfat : isFatFs p sb = true)
    (hv : fatInitFs v₀ p sb = some v) {c : Nat} (hc : c < 2 ^ 32) (hval : v.valid c) :
    DecodesEntry v (fun i => p (sb + i)) c ↔ c * v.fatType.bits < 2 ^ 32 := by
  constructor
  · intro h
    by_contra hwrap
    have hle := isFatFs_le hfat
    have hres := le16_lt p (sb + 0x0e)
    have hoff : v.fatOffset < 2 ^ 28 := by
      rw [fatInitFs_fatOffset hv]
      calc le16 p (sb + 0x0b) * le16 p (sb + 0x0e) ≤ 0x1000 * le16 p (sb + 0x0e) :=
            Nat.mul_le_mul_right _ hle.2
        _ < 2 ^ 28 := by omega
    have htype := fatInitFs_type hv
    have hlt : sub32 c 2 < v.clusters := hval
    unfold sub32 at hlt
    split at htype
    · rw [htype] at hwrap
      simp only [FatType.bits] at hwrap
      omega
    split at htype
    · rw [htype] at hwrap
      simp only [FatType.bits] at hwrap
      omega
    · rw [htype] at hwrap
      simp only [FatType.bits] at hwrap
      exact not_decodesEntry _ htype hoff hc (by omega) h
  · intro hsmall dev cache hfull _ hcache
    exact getFat_entry (v := v.onDev dev) hfull hsmall hcache

/-! ### Two boot sectors -/

/-- The bytes of a number, the low one first. -/
def leBytes (len n : Nat) : List UInt8 := (List.range len).map fun i => UInt8.ofNat (n / 256 ^ i)

/-- A boot sector with sectors of 512 bytes, and its sizes in the long fields. -/
def bootSector (sectorsPerCluster reserved fats rootEntries total sectorsPerFat : Nat) : Mem UInt8 :=
  fun i =>
    (List.replicate 11 0 ++ leBytes 2 0x200 ++ leBytes 1 sectorsPerCluster ++ leBytes 2 reserved ++
      leBytes 1 fats ++ leBytes 2 rootEntries ++ leBytes 2 0 ++ [0xf8] ++ leBytes 2 0 ++
      List.replicate 8 0 ++ leBytes 4 total ++ leBytes 4 sectorsPerFat ++ List.replicate 4 0 ++
      leBytes 4 2).getD i 0

/-- A FAT12 volume of 2000 clusters. -/
theorem getFat_decodes_small :
    ∃ v, fatInitFs (probe (answering fun _ => 0) 0 0) (bootSector 1 1 1 16 2008 6) 0 = some v ∧
      v.fatType = .fat12 ∧ DecodesEntry v (fun i => bootSector 1 1 1 16 2008 6 (0 + i)) 2001 :=
  ⟨_, rfl, by decide +kernel, (getFat_decodes_iff (by decide +kernel) rfl (by decide)
    (by decide +kernel)).mpr (by decide +kernel)⟩

/-- A FAT32 volume of 128 GB.  Its table has 2^28 entries, and one at 2^27 is not found. -/
theorem getFat_misses_large :
    ∃ v, isFatFs (bootSector 1 32 1 0 0x10000000 0x200000) 0 = true ∧
      fatInitFs (probe (answering fun _ => 0) 0 0) (bootSector 1 32 1 0 0x10000000 0x200000) 0
        = some v ∧
      v.valid (2 ^ 27) ∧
      ¬ DecodesEntry v (fun i => bootSector 1 32 1 0 0x10000000 0x200000 (0 + i)) (2 ^ 27) :=
  ⟨_, by decide +kernel, rfl, by decide +kernel,
    not_decodesEntry _ (by decide +kernel) (by decide +kernel) (by decide) (Nat.le_refl _)⟩

end Xell.Fat
