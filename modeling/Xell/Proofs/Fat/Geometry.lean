/-
The geometry of a boot sector.

`fat_init_fs` combines eight fields of a sector that `is_fat_fs` has looked at two of.  Its
arithmetic is all of 32 bits and unchecked: two divisions, and sums, products and a
difference that may wrap.  `initGeometry` is `fat_init_fs` with its operations written down
one by one, each on the operands it really gets.

The sector makes sense exactly if clusters have sectors and the areas before the data end
within the volume.  Then every operation is exact and the three areas follow each other.
Otherwise one of the operations is not: the first to go wrong is the division, or the sum
or product that leaves 32 bits, or the difference.
-/
import Xell.Proofs.Fat.Entry

namespace Xell.Fat

/-! ### Arithmetic with a record -/

/-- One operation of 32-bit arithmetic, on its operands. -/
inductive Op where
  | add (a b : Nat)
  | sub (a b : Nat)
  | mul (a b : Nat)
  | div (a b : Nat)
  deriving DecidableEq

/-- What the machine makes of it; a division by zero has no result. -/
def Op.eval : Op → Option Nat
  | .add a b => some (u32 (a + b))
  | .sub a b => some (sub32 a b)
  | .mul a b => some (u32 (a * b))
  | .div a b => if b = 0 then none else some (a / b)

/-- There is a result, and it is the one of the integers. -/
def Op.Exact : Op → Prop
  | .add a b => a + b < 2 ^ 32
  | .sub a b => b ≤ a
  | .mul a b => a * b < 2 ^ 32
  | .div _ b => b ≠ 0

instance : DecidablePred Op.Exact
  | .add _ _ => inferInstanceAs (Decidable (_ < _))
  | .sub _ _ => inferInstanceAs (Decidable (_ ≤ _))
  | .mul _ _ => inferInstanceAs (Decidable (_ < _))
  | .div _ _ => inferInstanceAs (Decidable (_ ≠ _))

/-- A computation that keeps a record of its operations. -/
abbrev Recorded (α : Type) := OptionT (StateM (List Op)) α

def Op.run (o : Op) : Recorded Nat := fun ops => (o.eval, ops ++ [o])

/-- What `fat_init_fs` leaves in the statics. -/
structure Geometry where
  bytesPerCluster : Nat
  rootEntries : Nat
  clusters : Nat
  fatType : FatType
  fatOffset : Nat
  rootOffset : Nat
  dataOffset : Nat
  deriving DecidableEq

def Volume.geometry (v : Volume) : Geometry where
  bytesPerCluster := v.bytesPerCluster
  rootEntries := v.rootEntries
  clusters := v.clusters
  fatType := v.fatType
  fatOffset := v.fatOffset
  rootOffset := v.rootOffset
  dataOffset := v.dataOffset

/-- `fat_init_fs`, operation by operation.  The three offsets are products of 64 bits. -/
def initGeometry (p : Mem UInt8) (sb : Nat) : Recorded Geometry := do
  let bytesPerSector := le16 p (sb + 0x0b)
  let sectorsPerCluster := (p (sb + 0x0d)).toNat
  let bytesPerCluster ← (Op.mul bytesPerSector sectorsPerCluster).run
  let reservedSectors := le16 p (sb + 0x0e)
  let fats := (p (sb + 0x10)).toNat
  let rootEntries := le16 p (sb + 0x11)
  let totalSectors := fieldOr p (sb + 0x13) (sb + 0x20)
  let sectorsPerFat := fieldOr p (sb + 0x16) (sb + 0x24)
  let fatSectors ← (Op.mul sectorsPerFat fats).run
  let rootBytes ← (Op.mul 0x20 rootEntries).run
  let rootSum ← (Op.add rootBytes bytesPerSector).run
  let rootLess ← (Op.sub rootSum 1).run
  let rootSectors ← (Op.div rootLess bytesPerSector).run
  let fatStartSector := reservedSectors
  let rootStartSector ← (Op.add fatStartSector fatSectors).run
  let dataStartSector ← (Op.add rootStartSector rootSectors).run
  let dataSectors ← (Op.sub totalSectors dataStartSector).run
  let clusters ← (Op.div dataSectors sectorsPerCluster).run
  let fatType := if clusters < 0x0ff5 then .fat12 else if clusters < 0xfff5 then .fat16 else .fat32
  return {
    bytesPerCluster := bytesPerCluster
    rootEntries := rootEntries
    clusters := clusters
    fatType := fatType
    fatOffset := bytesPerSector * fatStartSector
    rootOffset := if fatType = .fat32 then le32 p (sb + 0x2c) else bytesPerSector * rootStartSector
    dataOffset := bytesPerSector * dataStartSector }

/-- The operations of `fat_init_fs`, as far as it comes. -/
def initOps (p : Mem UInt8) (sb : Nat) : List Op := ((initGeometry p sb).run.run []).2

/-- An operation with a result is one more of the record. -/
theorem Op.run_bind {α : Type} {o : Op} {x : Nat} (h : o.eval = some x) (f : Nat → Recorded α)
    (ops : List Op) : (o.run >>= f).run.run ops = (f x).run.run (ops ++ [o]) := by
  have hrun : o.run.run.run ops = (o.eval, ops ++ [o]) := rfl
  simp only [OptionT.run_bind, Option.elimM, StateT.run_bind, hrun, h]
  rfl

/-- One without ends the computation. -/
theorem Op.run_bind_none {α : Type} {o : Op} (h : o.eval = none) (f : Nat → Recorded α)
    (ops : List Op) : (o.run >>= f).run.run ops = (none, ops ++ [o]) := by
  have hrun : o.run.run.run ops = (o.eval, ops ++ [o]) := rfl
  simp only [OptionT.run_bind, Option.elimM, StateT.run_bind, hrun, h]
  rfl

theorem Op.eval_div {a b : Nat} (hb : b ≠ 0) : (Op.div a b).eval = some (a / b) := if_neg hb

theorem Op.eval_div_zero {a b : Nat} (hb : b = 0) : (Op.div a b).eval = none := if_pos hb

/-- The record changes nothing. -/
theorem initGeometry_eq (v : Volume) (p : Mem UInt8) (sb : Nat) :
    ((initGeometry p sb).run.run []).1 = (fatInitFs v p sb).map Volume.geometry := by
  have hsum : u32 (u32 (0x20 * le16 p (sb + 0x11)) + le16 p (sb + 0x0b))
      = u32 (0x20 * le16 p (sb + 0x11) + le16 p (sb + 0x0b)) := by
    unfold u32
    omega
  unfold initGeometry fatInitFs
  dsimp only
  rw [Op.run_bind rfl, Op.run_bind rfl, Op.run_bind rfl, Op.run_bind rfl, Op.run_bind rfl, hsum]
  by_cases hbps : le16 p (sb + 0x0b) = 0
  · rw [Op.run_bind_none (Op.eval_div_zero hbps), if_pos (Or.inl hbps)]
    rfl
  rw [Op.run_bind (Op.eval_div hbps), Op.run_bind rfl, Op.run_bind rfl, Op.run_bind rfl]
  by_cases hspc : (p (sb + 0x0d)).toNat = 0
  · rw [Op.run_bind_none (Op.eval_div_zero hspc), if_pos (Or.inr hspc)]
    rfl
  · have hnot : ¬ (le16 p (sb + 0x0b) = 0 ∨ (p (sb + 0x0d)).toNat = 0) := not_or.mpr ⟨hbps, hspc⟩
    rw [Op.run_bind (Op.eval_div hspc), if_neg hnot]
    rfl

/-! ### The fields, as integers -/

section Fields

variable (p : Mem UInt8) (sb : Nat)

/-- `reserved_sectors + sectors_per_fat * fats`, the sectors before the root directory. -/
def rootStart : Nat :=
  le16 p (sb + 0x0e) + fieldOr p (sb + 0x16) (sb + 0x24) * (p (sb + 0x10)).toNat

/-- The sectors of the root directory. -/
def rootSize : Nat :=
  (0x20 * le16 p (sb + 0x11) + le16 p (sb + 0x0b) - 1) / le16 p (sb + 0x0b)

/-- A boot sector that makes sense: clusters have sectors, and what lies before the first of them
lies in the volume. -/
structure Fits : Prop where
  clusters : (p (sb + 0x0d)).toNat ≠ 0
  areas : rootStart p sb + rootSize p sb ≤ fieldOr p (sb + 0x13) (sb + 0x20)

/-- The geometry makes sense. -/
structure SaneGeometry (g : Geometry) : Prop where
  cluster_pos : 0 < g.bytesPerCluster
  /-- The table, the root directory and the data follow each other. -/
  order : ∃ root, g.fatOffset + le16 p (sb + 0x0b)
        * (fieldOr p (sb + 0x16) (sb + 0x24) * (p (sb + 0x10)).toNat) ≤ root ∧
      root + 0x20 * g.rootEntries ≤ g.dataOffset ∧ (g.fatType ≠ .fat32 → g.rootOffset = root)
  /-- The last cluster ends in the volume. -/
  inside : g.dataOffset + g.clusters * g.bytesPerCluster
    ≤ fieldOr p (sb + 0x13) (sb + 0x20) * le16 p (sb + 0x0b)

/-- Every operation of `fat_init_fs` is exact, and what it leaves makes sense. -/
def Sane : Prop :=
  (∀ o ∈ initOps p sb, o.Exact) ∧
    ∀ v : Volume, ∃ v', fatInitFs v p sb = some v' ∧ SaneGeometry p sb v'.geometry

end Fields

variable {p : Mem UInt8} {sb : Nat}

/-- With the sizes of sectors that `is_fat_fs` lets pass, all ten operations are come to. -/
theorem initOps_eq (hbps : le16 p (sb + 0x0b) ≠ 0) :
    initOps p sb =
      (let fatSectors := u32 (fieldOr p (sb + 0x16) (sb + 0x24) * (p (sb + 0x10)).toNat)
       let rootBytes := u32 (0x20 * le16 p (sb + 0x11))
       let rootSum := u32 (rootBytes + le16 p (sb + 0x0b))
       let rootSectors := sub32 rootSum 1 / le16 p (sb + 0x0b)
       let rootStartSector := u32 (le16 p (sb + 0x0e) + fatSectors)
       let dataStartSector := u32 (rootStartSector + rootSectors)
       let totalSectors := fieldOr p (sb + 0x13) (sb + 0x20)
       [.mul (le16 p (sb + 0x0b)) (p (sb + 0x0d)).toNat,
        .mul (fieldOr p (sb + 0x16) (sb + 0x24)) (p (sb + 0x10)).toNat,
        .mul 0x20 (le16 p (sb + 0x11)), .add rootBytes (le16 p (sb + 0x0b)), .sub rootSum 1,
        .div (sub32 rootSum 1) (le16 p (sb + 0x0b)), .add (le16 p (sb + 0x0e)) fatSectors,
        .add rootStartSector rootSectors, .sub totalSectors dataStartSector,
        .div (sub32 totalSectors dataStartSector) (p (sb + 0x0d)).toNat]) := by
  unfold initOps initGeometry
  dsimp only
  rw [Op.run_bind rfl, Op.run_bind rfl, Op.run_bind rfl, Op.run_bind rfl, Op.run_bind rfl,
    Op.run_bind (Op.eval_div hbps), Op.run_bind rfl, Op.run_bind rfl, Op.run_bind rfl]
  by_cases hspc : (p (sb + 0x0d)).toNat = 0
  · rw [Op.run_bind_none (Op.eval_div_zero hspc)]
    rfl
  · rw [Op.run_bind (Op.eval_div hspc)]
    rfl

theorem fieldOr_lt (p : Mem UInt8) (short long : Nat) : fieldOr p short long < 2 ^ 32 := by
  unfold fieldOr
  split
  · exact le32_lt p long
  · have := le16_lt p short
    omega

theorem u32_of_lt {n : Nat} (h : n < 2 ^ 32) : u32 n = n := Nat.mod_eq_of_lt h

/-- The size of the root directory never wraps. -/
theorem rootSize_eq (hfat : isFatFs p sb = true) :
    u32 (0x20 * le16 p (sb + 0x11)) = 0x20 * le16 p (sb + 0x11) ∧
      u32 (0x20 * le16 p (sb + 0x11) + le16 p (sb + 0x0b))
        = 0x20 * le16 p (sb + 0x11) + le16 p (sb + 0x0b) ∧
      sub32 (0x20 * le16 p (sb + 0x11) + le16 p (sb + 0x0b)) 1 / le16 p (sb + 0x0b)
        = rootSize p sb := by
  have hbps := isFatFs_le hfat
  have hentries := le16_lt p (sb + 0x11)
  have hsub : sub32 (0x20 * le16 p (sb + 0x11) + le16 p (sb + 0x0b)) 1
      = 0x20 * le16 p (sb + 0x11) + le16 p (sb + 0x0b) - 1 := by
    unfold sub32
    omega
  refine ⟨u32_of_lt (by omega), u32_of_lt (by omega), ?_⟩
  rw [hsub]
  rfl

/-- **When the arithmetic of `fat_init_fs` is exact.** -/
theorem initOps_exact_iff (hfat : isFatFs p sb = true) :
    (∀ o ∈ initOps p sb, o.Exact) ↔ Fits p sb := by
  have hbps := isFatFs_le hfat
  have hspc := (p (sb + 0x0d)).toNat_lt
  have hentries := le16_lt p (sb + 0x11)
  have htotal := fieldOr_lt p (sb + 0x13) (sb + 0x20)
  obtain ⟨hbytes, hsum, hsize⟩ := rootSize_eq hfat
  have hbpc : le16 p (sb + 0x0b) * (p (sb + 0x0d)).toNat ≤ 0x1000 * (p (sb + 0x0d)).toNat :=
    Nat.mul_le_mul_right _ hbps.2
  rw [initOps_eq (by omega)]
  dsimp only
  rw [hbytes, hsum, hsize]
  simp only [List.forall_mem_cons, Op.Exact, List.not_mem_nil, false_imp_iff, implies_true, and_true]
  constructor
  · rintro ⟨-, hmul, -, -, -, -, hroot, hdata, hleft, hclusters⟩
    refine ⟨hclusters, ?_⟩
    unfold rootStart
    rw [u32_of_lt hmul] at hroot hdata hleft
    rw [u32_of_lt hroot] at hdata hleft
    rw [u32_of_lt hdata] at hleft
    exact hleft
  · rintro ⟨hclusters, hareas⟩
    unfold rootStart at hareas
    have hmul : u32 (fieldOr p (sb + 0x16) (sb + 0x24) * (p (sb + 0x10)).toNat)
        = fieldOr p (sb + 0x16) (sb + 0x24) * (p (sb + 0x10)).toNat := u32_of_lt (by omega)
    have hroot : u32 (le16 p (sb + 0x0e)
        + fieldOr p (sb + 0x16) (sb + 0x24) * (p (sb + 0x10)).toNat)
        = le16 p (sb + 0x0e) + fieldOr p (sb + 0x16) (sb + 0x24) * (p (sb + 0x10)).toNat :=
      u32_of_lt (by omega)
    have hdata : u32 (le16 p (sb + 0x0e)
        + fieldOr p (sb + 0x16) (sb + 0x24) * (p (sb + 0x10)).toNat + rootSize p sb)
        = le16 p (sb + 0x0e) + fieldOr p (sb + 0x16) (sb + 0x24) * (p (sb + 0x10)).toNat
          + rootSize p sb := u32_of_lt (by omega)
    rw [hmul, hroot, hdata]
    refine ⟨by omega, by omega, by omega, by omega, by omega, by omega, by omega, by omega, hareas,
      hclusters⟩

/-- Where it is, the areas of the volume are what the integers say. -/
theorem fatInitFs_geometry (hfat : isFatFs p sb = true) (h : Fits p sb) (v : Volume) :
    ∃ v', fatInitFs v p sb = some v' ∧
      v'.bytesPerCluster = le16 p (sb + 0x0b) * (p (sb + 0x0d)).toNat ∧
      v'.rootEntries = le16 p (sb + 0x11) ∧
      v'.clusters = (fieldOr p (sb + 0x13) (sb + 0x20) - (rootStart p sb + rootSize p sb))
        / (p (sb + 0x0d)).toNat ∧
      v'.fatOffset = le16 p (sb + 0x0b) * le16 p (sb + 0x0e) ∧
      (v'.fatType ≠ .fat32 → v'.rootOffset = le16 p (sb + 0x0b) * rootStart p sb) ∧
      v'.dataOffset = le16 p (sb + 0x0b) * (rootStart p sb + rootSize p sb) := by
  have hbps := isFatFs_le hfat
  have hspc := (p (sb + 0x0d)).toNat_lt
  have htotal := fieldOr_lt p (sb + 0x13) (sb + 0x20)
  have hareas := h.areas
  obtain ⟨-, hsum, hsize⟩ := rootSize_eq hfat
  have hbpc : le16 p (sb + 0x0b) * (p (sb + 0x0d)).toNat ≤ 0x1000 * (p (sb + 0x0d)).toNat :=
    Nat.mul_le_mul_right _ hbps.2
  have hroot : u32 (le16 p (sb + 0x0e)
      + u32 (fieldOr p (sb + 0x16) (sb + 0x24) * (p (sb + 0x10)).toNat)) = rootStart p sb := by
    unfold rootStart at hareas ⊢
    unfold u32
    omega
  have hdata : u32 (rootStart p sb + rootSize p sb) = rootStart p sb + rootSize p sb :=
    u32_of_lt (by omega)
  have hleft : sub32 (fieldOr p (sb + 0x13) (sb + 0x20)) (rootStart p sb + rootSize p sb)
      = fieldOr p (sb + 0x13) (sb + 0x20) - (rootStart p sb + rootSize p sb) := by
    unfold sub32
    omega
  have hnot : ¬ (le16 p (sb + 0x0b) = 0 ∨ (p (sb + 0x0d)).toNat = 0) :=
    not_or.mpr ⟨by omega, h.clusters⟩
  unfold fatInitFs
  dsimp only
  rw [if_neg hnot]
  refine ⟨_, rfl, u32_of_lt (by omega), rfl, ?_, rfl, ?_, ?_⟩
  · dsimp only
    rw [hsum, hsize, hroot, hdata, hleft]
  · intro htype
    rw [← hroot]
    exact if_neg htype
  · dsimp only
    rw [hsum, hsize, hroot, hdata]

theorem Fits.sane (hfat : isFatFs p sb = true) (h : Fits p sb) (v : Volume) :
    ∃ v', fatInitFs v p sb = some v' ∧ SaneGeometry p sb v'.geometry := by
  have hbps := isFatFs_le hfat
  obtain ⟨v', hv', hbpc, hentries, hclusters, hfatOff, hrootOff, hdataOff⟩ :=
    fatInitFs_geometry hfat h v
  refine ⟨v', hv', ?_, ⟨le16 p (sb + 0x0b) * rootStart p sb, ?_, ?_, hrootOff⟩, ?_⟩
  · show 0 < v'.bytesPerCluster
    rw [hbpc]
    exact Nat.mul_pos (by omega) (Nat.pos_of_ne_zero h.clusters)
  · show v'.fatOffset + _ ≤ _
    rw [hfatOff, ← Nat.mul_add]
    exact Nat.le_refl _
  · show _ + 0x20 * v'.rootEntries ≤ v'.dataOffset
    rw [hdataOff, Nat.mul_add, hentries]
    -- the root directory is rounded up to sectors
    refine Nat.add_le_add_left ?_ _
    unfold rootSize
    have hdiv := Nat.div_add_mod (0x20 * le16 p (sb + 0x11) + le16 p (sb + 0x0b) - 1)
      (le16 p (sb + 0x0b))
    have hmod := Nat.mod_lt (0x20 * le16 p (sb + 0x11) + le16 p (sb + 0x0b) - 1)
      (show 0 < le16 p (sb + 0x0b) by omega)
    omega
  · show v'.dataOffset + v'.clusters * v'.bytesPerCluster ≤ _
    rw [hdataOff, hclusters, hbpc, Nat.mul_comm (le16 p (sb + 0x0b)) (p (sb + 0x0d)).toNat,
      ← Nat.mul_assoc]
    have hcut := Nat.div_mul_le_self
      (fieldOr p (sb + 0x13) (sb + 0x20) - (rootStart p sb + rootSize p sb)) (p (sb + 0x0d)).toNat
    calc le16 p (sb + 0x0b) * (rootStart p sb + rootSize p sb)
          + (fieldOr p (sb + 0x13) (sb + 0x20) - (rootStart p sb + rootSize p sb))
            / (p (sb + 0x0d)).toNat * (p (sb + 0x0d)).toNat * le16 p (sb + 0x0b)
        ≤ le16 p (sb + 0x0b) * (rootStart p sb + rootSize p sb)
          + (fieldOr p (sb + 0x13) (sb + 0x20) - (rootStart p sb + rootSize p sb))
            * le16 p (sb + 0x0b) := Nat.add_le_add_left (Nat.mul_le_mul_right _ hcut) _
      _ = fieldOr p (sb + 0x13) (sb + 0x20) * le16 p (sb + 0x0b) := by
          rw [Nat.mul_comm (le16 p (sb + 0x0b)), ← Nat.add_mul, Nat.add_sub_cancel' h.areas]

/--
**When the geometry of an accepted boot sector is sane**: exactly when clusters have sectors
and the reserved sectors, the tables and the root directory are no more than there are.
-/
theorem sane_iff (p : Mem UInt8) (sb : Nat) (hfat : isFatFs p sb = true) :
    Sane p sb ↔ Fits p sb := by
  constructor
  · exact fun h => (initOps_exact_iff hfat).mp h.1
  · exact fun h => ⟨(initOps_exact_iff hfat).mpr h, h.sane hfat⟩

/-- The boot sector of a stick of a megabyte. -/
theorem sane_stick : Sane (bootSector 1 1 1 16 2008 6) 0 :=
  (sane_iff _ 0 (by decide +kernel)).mpr ⟨by decide +kernel, by decide +kernel⟩

/-- The same with clusters of no sectors, and with a table that is larger than the volume. -/
theorem not_sane :
    (isFatFs (bootSector 0 1 1 16 2008 6) 0 = true ∧ ¬ Sane (bootSector 0 1 1 16 2008 6) 0) ∧
      isFatFs (bootSector 1 1 1 16 2008 6000) 0 = true ∧
        ¬ Sane (bootSector 1 1 1 16 2008 6000) 0 := by
  refine ⟨⟨by decide +kernel, fun h => ?_⟩, by decide +kernel, fun h => ?_⟩
  · exact absurd h.1 (by decide +kernel)
  · exact absurd h.1 (by decide +kernel)

end Xell.Fat
