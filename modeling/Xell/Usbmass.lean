/-
USB sticks as block devices, from `usbmass.c`.

`usbmass_attach` registers a device for each unit of a stick and keeps the devices in the stick's
`softc`, and `usbmass_read` looks there for the device it is called with, to find the unit.  A
stick is known by its place in memory.  The transfer of sectors itself is a parameter: it may
depend on what `usbmass_read_sector` is called with, and on nothing else.
-/
import Xell.Diskio

namespace Xell.Usbmass

open Diskio

/-- The tables of operations.  There is one, with `usbmass_read`. -/
inductive Ops where
  | usbmassOps
  deriving DecidableEq

/-- `usbmass_softc_t`, as far as it is read here. -/
structure Softc (υ : Type) where
  maxlun : Nat
  bdev : Nat → Option Nat
  dev : υ

/-- The arguments of a call of `usbmass_read_sector`. -/
structure Transfer (υ : Type) where
  dev : υ
  sectornum : BitVec 32
  seccnt : BitVec 32
  buffer : BitVec 64
  lun : Nat
  deriving DecidableEq

/-- `MAXLUN`. -/
def maxLuns : Nat := 4

/-! ### Attaching a stick -/

/-- The variables of the probing loop of `usbmass_attach`.  `num` is static. -/
structure Probing where
  devices : Mem (Bdev Nat Ops)
  bdev : Nat → Option Nat
  num : Nat

/-- One turn, for a unit that can tell its capacity or not. -/
def probe (softc : Nat) (ready : Nat → Bool) (s : Probing) (i : Nat) : Probing :=
  if ready i then
    let name := [0x75, 0x64, UInt8.ofNat (97 + s.num)]
    let q := registerBdev s.devices (some softc) (some .usbmassOps) name
    { devices := q.2, bdev := Function.update s.bdev i q.1, num := (s.num + 1) % 26 }
  else s

variable {υ : Type}

/-- `usbmass_attach`, once the stick has been configured: the stick's `softc` and the devices. -/
def usbmassAttach (devices : Mem (Bdev Nat Ops)) (num softc : Nat) (dev : υ) (maxlun : Nat)
    (ready : Nat → Bool) : Softc υ × Mem (Bdev Nat Ops) :=
  let maxlun := if maxlun ≥ maxLuns then maxLuns - 1 else maxlun
  let s := (List.range (maxlun + 1)).foldl (probe softc ready)
    { devices, bdev := fun _ => none, num }
  ({ maxlun, bdev := s.bdev, dev }, s.devices)

/-! ### Reading -/

section Read

variable (readSector : Transfer υ → Int) (softcs : Nat → Softc υ)

/-- The loop of `usbmass_read`: what it returns, and the transfers it asks for. -/
def readLoop (dev : υ) (lba : BitVec 64) (lun : Nat) (data : BitVec 64) (num r : BitVec 32) :
    BitVec 32 × List (Transfer υ) :=
  if _h : num = 0 then (r, [])
  else
    let tl := num
    let t := { dev, sectornum := lba.setWidth 32, seccnt := num, buffer := data, lun }
    if readSector t ≠ 0 then (r, [t])
    else
      let q := readLoop dev lba lun (data + tl.signExtend 64) (num - tl) (r + tl)
      (q.1, t :: q.2)
termination_by num.toNat
decreasing_by
  rw [BitVec.sub_self]
  exact Nat.pos_of_ne_zero fun hzero => _h (BitVec.eq_of_toNat_eq hzero)

def usbmassRead (devices : Mem (Bdev Nat Ops)) (dev : Nat) (data lba : BitVec 64)
    (num : BitVec 32) : Option (BitVec 32 × List (Transfer υ)) :=
  match (devices dev).ctx with
  | none => none
  | some ctx =>
      let softc := softcs ctx
      let lba := lba + (devices dev).offset
      match (List.range (softc.maxlun + 1)).find? fun lun => softc.bdev lun = some dev with
      | none => some (-1, [])
      | some lun => some (readLoop readSector softc.dev lba lun data num 0)

/-- `dev->ops->read`. -/
def opsRead (devices : Mem (Bdev Nat Ops)) (dev : Nat) (data lba : BitVec 64) (num : BitVec 32) :
    Option (BitVec 32 × List (Transfer υ)) :=
  match (devices dev).ops with
  | none => none
  | some .usbmassOps => usbmassRead readSector softcs devices dev data lba num

end Read

end Xell.Usbmass
