/-
The FAT reader of `fat.c`.

Everything the file does with a volume goes through three layers, and the model
keeps them apart.

  * `rawRead` and `read` turn byte ranges of the partition into device requests,
    through a cache of one sector.  They change a destination and the `Cache`.
  * `getFat`, `getExtent` and `readExtent` follow a cluster chain, and keep three
    globals between calls: where the current extent stands, how much of it is
    left, and which cluster comes after it.
  * `parseComponent` and `fatOpen` resolve a path.

Machine integers are natural numbers, reduced wherever the C arithmetic may wrap.
Loops that always end recurse on a bound they cannot reach; the scan of a directory
may run forever, so it takes a fuel and answers `none` when that runs out.

A C array is a memory.  Local arrays are memories of their own, placed at
address 0; `raw_buf` is the `rawBuf` of the cache, and no destination overlaps it.
-/
import Xell.Lib.Mem

namespace Xell.Fat

/-! ### Machine arithmetic -/

/-- A value stored in a `u32`. -/
def u32 (n : Nat) : Nat := n % 2 ^ 32

/-- A value stored in a `u64`. -/
def u64 (n : Nat) : Nat := n % 2 ^ 64

/-- `a - b` on `u32`. -/
def sub32 (a b : Nat) : Nat := (a + (2 ^ 32 - b)) % 2 ^ 32

/-- An `int` where C converts it to `u32`. -/
def u32OfInt (i : Int) : Nat := (i % 2 ^ 32).toNat

def le16 (p : Mem UInt8) (a : Nat) : Nat :=
  (p a).toNat ||| (p (a + 1)).toNat <<< 8

def le32 (p : Mem UInt8) (a : Nat) : Nat :=
  (p a).toNat ||| (p (a + 1)).toNat <<< 8 ||| (p (a + 2)).toNat <<< 16
    ||| (p (a + 3)).toNat <<< 24

theorem le16_lt (p : Mem UInt8) (a : Nat) : le16 p a < 2 ^ 16 := by
  have h0 := (p a).toNat_lt
  have h1 := (p (a + 1)).toNat_lt
  unfold le16
  refine Nat.or_lt_two_pow (by omega) ?_
  rw [Nat.shiftLeft_eq]
  omega

/-! ### The block device -/

/-- How a device answers one read: all sectors, or none and an `int` that is not positive. -/
inductive Answer where
  | full
  | failed (ret : Int) (range : -2 ^ 31 ≤ ret ∧ ret ≤ 0)
  deriving DecidableEq

/-- Where a read is asked to put its data. -/
inductive Target where
  | rawBuf
  | dest
  deriving DecidableEq

/--
A block device.  `answer k t` is what happens at its `k`-th read if that goes to `t`,
and `junk k` is what that read leaves in its target when it fails.
-/
structure Bdev where
  disk : Mem UInt8
  answer : Nat → Target → Answer
  junk : Nat → Mem UInt8

/-- `dev->ops->read`: the value returned and the bytes now in the target. -/
def Bdev.read (dev : Bdev) (k : Nat) (t : Target) (lba num : Nat) : Int × Mem UInt8 :=
  match dev.answer k t with
  | .full => (num, fun i => dev.disk (0x200 * lba + i))
  | .failed ret _ => (ret, dev.junk k)

/-! ### Sectors and byte ranges -/

/-- `fat_type`. -/
inductive FatType where
  | fat12
  | fat16
  | fat32
  deriving DecidableEq

def FatType.bits : FatType → Nat
  | .fat12 => 12
  | .fat16 => 16
  | .fat32 => 32

/-- The device, and what `fat_init` leaves in the statics for good. -/
structure Volume where
  dev : Bdev
  /-- The address of `raw_buf`. -/
  rawBufAddr : Nat
  partitionStartOffset : Nat
  bytesPerCluster : Nat
  rootEntries : Nat
  clusters : Nat
  fatType : FatType
  fatOffset : Nat
  rootOffset : Nat
  dataOffset : Nat
  /-- `root_entries` is read from a 16-bit field. -/
  rootEntries_lt : rootEntries < 2 ^ 16 := by decide
  /-- `clusters` is a `u32`. -/
  clusters_lt : clusters < 2 ^ 32 := by decide

/-- The one-sector cache, and how many reads the device has seen. -/
structure Cache where
  rawBuf : Mem UInt8
  current : Nat
  calls : Nat

/-- GNU `x < 0 ? : 0` is the value of the comparison itself. -/
def rawRead (v : Volume) (sector : Nat) (c : Cache) : Int × Cache :=
  if c.current = sector then (0, c)
  else
    let r := v.dev.read c.calls .rawBuf sector 1
    (if r.1 < 0 then 1 else 0, { rawBuf := r.2, current := sector, calls := c.calls + 1 })

/-- What `read` returns and changes. -/
structure ReadRes where
  err : Int
  mem : Mem UInt8
  cache : Cache

/-- Whether the aligned branch of `read` takes the next piece. -/
def aligned (v : Volume) (data offset len : Nat) : Prop :=
  offset % 0x200 = 0 ∧ ((data : Int) - v.rawBufAddr) % 32 = 0 ∧ 0x200 ≤ len

instance (v : Volume) (data offset len : Nat) : Decidable (aligned v data offset len) :=
  inferInstanceAs (Decidable (_ ∧ _))

/-- Bytes the aligned branch asks for: at most `MAX_SECTS` sectors. -/
def directLen (len : Nat) : Nat := 0x200 * min (len / 0x200) 8

/-- Bytes the other branch copies out of `raw_buf`. -/
def cachedLen (offset len : Nat) : Nat := min (0x200 - offset % 0x200) len

def readLoop (v : Volume) : Nat → Nat → Nat → Nat → Mem UInt8 → Cache → ReadRes
  | 0, _, _, _, m, c => ⟨0, m, c⟩
  | fuel + 1, data, offset, len, m, c =>
      if len = 0 then ⟨0, m, c⟩
      else if aligned v data offset len then
        let n := directLen len
        let r := v.dev.read c.calls .dest (offset / 0x200) (n / 0x200)
        let m' := m.store data n r.2
        let c' := { c with calls := c.calls + 1 }
        -- `err < n` compares an `int` with a `u32`
        if u32OfInt r.1 < n / 0x200 then ⟨r.1, m', c'⟩
        else readLoop v fuel (data + n) (u64 (offset + n)) (len - n) m' c'
      else
        let n := cachedLen offset len
        let r := rawRead v (u32 (offset / 0x200)) c
        if r.1 ≠ 0 then ⟨r.1, m, r.2⟩
        else readLoop v fuel (data + n) (u64 (offset + n)) (len - n)
          (m.store data n fun i => r.2.rawBuf (offset % 0x200 + i)) r.2

def read (v : Volume) (data offset len : Nat) (m : Mem UInt8) (c : Cache) : ReadRes :=
  readLoop v len data (u64 (offset + v.partitionStartOffset)) len m c

/-! ### Cluster chains -/

/-- PowerPC `slw` shifts `1` out of the word for `fat_type` 32, so the mask is all ones. -/
def fatMask (t : FatType) : Nat := sub32 (u32 (1 <<< t.bits)) 1

def getFat (v : Volume) (cluster : Nat) (c : Cache) : Nat × Cache :=
  let offsetBits := u32 (cluster * v.fatType.bits)
  let r := read v 0 (u64 (v.fatOffset + offsetBits / 8)) 4 (fun _ => 0) c
  if r.err ≠ 0 then (0, r.cache)
  else ((le32 r.mem 0 >>> (offsetBits % 8)) &&& fatMask v.fatType &&& 0x0fffffff, r.cache)

/-- The statics of `fat.c` that reading and opening change. -/
structure State where
  cache : Cache
  extentOffset : Nat
  extentLen : Nat
  extentNextCluster : Nat
  fatFileSize : Nat

def getExtentLoop (v : Volume) : Nat → Nat → State → State
  | 0, _, s => s
  | fuel + 1, cluster, s =>
      let g := getFat v cluster s.cache
      let s' := { s with extentLen := u32 (s.extentLen + v.bytesPerCluster), cache := g.2 }
      if v.clusters ≤ sub32 g.1 2 then s'
      else if g.1 ≠ u32 (cluster + 1) then { s' with extentNextCluster := g.1 }
      else getExtentLoop v fuel g.1 s'

def getExtent (v : Volume) (cluster : Nat) (s : State) : State :=
  let s' := { s with extentLen := 0, extentNextCluster := 0 }
  if cluster = 0 ∧ v.fatType ≠ .fat32 then
    { s' with extentOffset := v.rootOffset, extentLen := u32 (0x20 * v.rootEntries) }
  else
    let cluster' := if cluster = 0 then u32 v.rootOffset else cluster
    if v.clusters ≤ sub32 cluster' 2 then s'
    else
      getExtentLoop v v.clusters cluster'
        { s' with
          extentOffset := u64 (v.dataOffset + v.bytesPerCluster * sub32 cluster' 2) }

/-- What `read_extent` returns and changes. -/
structure ExtentRes where
  err : Int
  mem : Mem UInt8
  st : State

/-- The state after `n` bytes of the extent were read, before the next extent is fetched. -/
def State.advance (s : State) (n : Nat) (c : Cache) : State :=
  { s with
    cache := c
    extentOffset := u64 (s.extentOffset + n)
    extentLen := s.extentLen - n }

/-- `read_extent` fetches the next extent as soon as the current one is used up. -/
def refill (v : Volume) (s : State) : State :=
  if s.extentLen = 0 ∧ s.extentNextCluster ≠ 0 then getExtent v s.extentNextCluster s else s

def readExtentLoop (v : Volume) : Nat → Nat → Nat → Mem UInt8 → State → ExtentRes
  | 0, _, _, m, s => ⟨0, m, s⟩
  | fuel + 1, data, len, m, s =>
      if len = 0 then ⟨0, m, s⟩
      else if s.extentLen = 0 then ⟨-1, m, s⟩
      else
        let n := min len s.extentLen
        let r := read v data s.extentOffset n m s.cache
        if r.err ≠ 0 then ⟨r.err, r.mem, { s with cache := r.cache }⟩
        else readExtentLoop v fuel (data + n) (len - n) r.mem (refill v (s.advance n r.cache))

def readExtent (v : Volume) (data len : Nat) (m : Mem UInt8) (s : State) : ExtentRes :=
  readExtentLoop v len data len m s

def fatRead (v : Volume) (data len : Nat) (m : Mem UInt8) (s : State) : ExtentRes :=
  readExtent v data len m s

/-! ### Paths -/

/-- A C string is the list of its characters; `*path` at its end is the terminator. -/
def peek (path : List UInt8) : UInt8 := path.headD 0

def ucase (c : UInt8) : UInt8 :=
  if 0x61 ≤ c ∧ c ≤ 0x7a then c - 0x61 + 0x41 else c

/-- One of the two copying loops of `parse_component`; `fat_name` is filled up to `limit`. -/
def parseField (stop : UInt8 → Bool) (limit : Nat) :
    List UInt8 → List UInt8 → List UInt8 × List UInt8
  | fatName, [] => (fatName, [])
  | fatName, c :: path =>
      if c = 0 ∨ stop c = true then (fatName, c :: path)
      else parseField stop limit
        (if fatName.length < limit then fatName ++ [ucase c] else fatName) path

def pad (limit : Nat) (fatName : List UInt8) : List UInt8 :=
  fatName ++ List.replicate (limit - fatName.length) 0x20

/-- The 11 bytes `parse_component` leaves in `fat_name`, and the path it returns. -/
def parseComponent (path : List UInt8) : List UInt8 × List UInt8 :=
  let path := path.dropWhile (· == 0x2f)
  let base := parseField (fun c => c == 0x2f || c == 0x2e) 8 [] path
  let fatName := pad 8 base.1
  let path := if peek base.2 = 0x2e then base.2.tail else base.2
  let ext := parseField (fun c => c == 0x2f) 11 fatName path
  let fatName := pad 11 ext.1
  (if peek fatName = 0xe5 then 0x05 :: fatName.tail else fatName, ext.2)

/-- The tests an entry has to pass, in the order `fat_open` makes them. -/
def entryMatches (fatName : List UInt8) (more : Bool) (dir : Mem UInt8) : Bool :=
  dir 0x0b &&& 0x08 == 0 && dir 0 != 0xe5 && more == (dir 0x0b &&& 0x10 != 0) &&
    dir.slice 0 11 == fatName

/-- The start cluster an entry names. -/
def dirCluster (v : Volume) (dir : Mem UInt8) : Nat :=
  if v.fatType = .fat32 then le16 dir 0x1a ||| le16 dir 0x14 <<< 16 else le16 dir 0x1a

/-- How the inner loop of `fat_open` is left. -/
inductive ScanEnd where
  /-- By a `return`. -/
  | returned (err : Int)
  /-- By `break`, at an entry that matches. -/
  | found (dir : Mem UInt8)
  /-- Because `extent_len` is zero. -/
  | exhausted

def scan (v : Volume) (fatName : List UInt8) (more : Bool) :
    Nat → State → Option (ScanEnd × State)
  | 0, _ => none
  | fuel + 1, s =>
      if s.extentLen = 0 then some (.exhausted, s)
      else
        let r := readExtent v 0 0x20 (fun _ => 0) s
        if r.err ≠ 0 then some (.returned r.err, r.st)
        else if r.mem 0 = 0 then some (.returned (-1), r.st)
        else if entryMatches fatName more r.mem then some (.found r.mem, r.st)
        else scan v fatName more fuel r.st

def fatOpenLoop (v : Volume) (fuel : Nat) :
    Nat → List UInt8 → Nat → State → Option (Int × State)
  | 0, _, _, _ => none
  | n + 1, name, cluster, s =>
      if peek name = 0 then some (-1, s)
      else
        let p := parseComponent name
        match scan v p.1 (peek p.2 != 0) fuel (getExtent v cluster s) with
        | none => none
        | some (.returned err, s') => some (err, s')
        | some (.exhausted, s') => fatOpenLoop v fuel n p.2 cluster s'
        | some (.found dir, s') =>
            if peek p.2 = 0 then
              some (0, getExtent v (dirCluster v dir) { s' with fatFileSize := le32 dir 0x1c })
            else fatOpenLoop v fuel n p.2 (dirCluster v dir) s'

/-- A component takes at least one character, so the bound on their number is never met. -/
def fatOpen (v : Volume) (fuel : Nat) (name : List UInt8) (s : State) : Option (Int × State) :=
  fatOpenLoop v fuel (name.length + 1) name 0 s

/-! ### Mounting -/

/-- The volume while `fat_init` looks for a file system: `read` uses no more than this of it. -/
def probe (dev : Bdev) (rawBufAddr partitionStartOffset : Nat) : Volume where
  dev := dev
  rawBufAddr := rawBufAddr
  partitionStartOffset := partitionStartOffset
  bytesPerCluster := 0
  rootEntries := 0
  clusters := 0
  fatType := .fat12
  fatOffset := 0
  rootOffset := 0
  dataOffset := 0

/-- A 16-bit field of the boot sector, or a 32-bit one where that is zero. -/
def fieldOr (p : Mem UInt8) (short long : Nat) : Nat :=
  if le16 p short = 0 then le32 p long else le16 p short

/-- `fat_init_fs`, on the boot sector at `sb`.  Nothing is known of the volume when a division
by zero has no result. -/
def fatInitFs (v : Volume) (p : Mem UInt8) (sb : Nat) : Option Volume :=
  let bytesPerSector := le16 p (sb + 0x0b)
  let sectorsPerCluster := (p (sb + 0x0d)).toNat
  let reservedSectors := le16 p (sb + 0x0e)
  let fats := (p (sb + 0x10)).toNat
  let rootEntries := le16 p (sb + 0x11)
  let totalSectors := fieldOr p (sb + 0x13) (sb + 0x20)
  let sectorsPerFat := fieldOr p (sb + 0x16) (sb + 0x24)
  let fatSectors := u32 (sectorsPerFat * fats)
  let rootSectors := sub32 (u32 (0x20 * rootEntries + bytesPerSector)) 1 / bytesPerSector
  let fatStartSector := reservedSectors
  let rootStartSector := u32 (fatStartSector + fatSectors)
  let dataStartSector := u32 (rootStartSector + rootSectors)
  let clusters := sub32 totalSectors dataStartSector / sectorsPerCluster
  let fatType := if clusters < 0x0ff5 then .fat12 else if clusters < 0xfff5 then .fat16 else .fat32
  if bytesPerSector = 0 ∨ sectorsPerCluster = 0 then none
  else
    some
      { v with
        bytesPerCluster := u32 (bytesPerSector * sectorsPerCluster)
        rootEntries := rootEntries
        clusters := clusters
        fatType := fatType
        fatOffset := bytesPerSector * fatStartSector
        rootOffset :=
          if fatType = .fat32 then le32 p (sb + 0x2c) else bytesPerSector * rootStartSector
        dataOffset := bytesPerSector * dataStartSector
        rootEntries_lt := le16_lt p _
        clusters_lt := Nat.lt_of_le_of_lt (Nat.div_le_self _ _) (Nat.mod_lt _ (by omega)) }

def isFatFs (p : Mem UInt8) (sb : Nat) : Bool :=
  let bps := le16 p (sb + 0x0b)
  if bps < 0x0200 ∨ bps > 0x1000 ∨ bps &&& (bps - 1) ≠ 0 then false
  else if p (sb + 0x15) < 0xf8 ∧ p (sb + 0x15) ≠ 0xf0 then false
  else true

/-- What `fat_init` returns and changes. -/
structure InitRes where
  err : Int
  vol : Option Volume
  cache : Cache

/-- `fat_init`, with its local array at `buf`. -/
def fatInit (rawBufAddr : Nat) (dev : Bdev) (buf : Nat) (m : Mem UInt8) (c : Cache) : InitRes :=
  let v := probe dev rawBufAddr 0
  let r := read v buf 0 0x200 m c
  if r.err ≠ 0 then ⟨r.err, none, r.cache⟩
  else if le16 r.mem (buf + 0x01fe) ≠ 0xaa55 then ⟨-1, none, r.cache⟩
  else if isFatFs r.mem buf then ⟨0, fatInitFs v r.mem buf, r.cache⟩
  -- maybe there is a partition table
  else if r.mem (buf + 0x01c2) = 0 then ⟨-1, none, r.cache⟩
  else
    let v := probe dev rawBufAddr (0x200 * le32 r.mem (buf + 0x01c6))
    let r := read v buf 0 0x200 r.mem r.cache
    if r.err ≠ 0 then ⟨r.err, none, r.cache⟩
    else if isFatFs r.mem buf then ⟨0, fatInitFs v r.mem buf, r.cache⟩
    else ⟨-1, none, r.cache⟩

/-- The statics the cache depends on: `dev`, and the cache itself. -/
structure Mount where
  dev : Option Bdev
  cache : Cache

/-- The statics as the program starts: no device, and `current` is `-1`. -/
def Mount.initial : Mount where
  dev := none
  cache := { rawBuf := fun _ => 0, current := 2 ^ 32 - 1, calls := 0 }

/-- The calls that change them. -/
inductive Call where
  | rawRead (sector : Nat)
  | fatInit (dev : Bdev) (buf : Nat) (m : Mem UInt8)

/-- A sector that is not cached cannot be asked for as long as there is no device. -/
def Mount.call (rawBufAddr : Nat) (s : Mount) : Call → Option Mount
  | .rawRead sector =>
      match s.dev with
      | some dev =>
          some { s with cache := (Fat.rawRead (probe dev rawBufAddr 0) (u32 sector) s.cache).2 }
      | none => if s.cache.current = u32 sector then some s else none
  | .fatInit dev buf m =>
      some { dev := some dev, cache := (Fat.fatInit rawBufAddr dev buf m s.cache).cache }

def Mount.run (rawBufAddr : Nat) : List Call → Mount → Option Mount
  | [], s => some s
  | c :: cs, s => (s.call rawBufAddr c).bind (Mount.run rawBufAddr cs)

end Xell.Fat
