/-
Reading from a child of a USB stick.

`register_bdev_child` gives a child the operations and the context of its parent and an offset,
and `usbmass_read` adds the offset of the device it is called with.  But it also looks for that
device among those that `usbmass_attach` registered, by its place in the array, and a child has a
place of its own (`Descends.fresh`).  So a child is refused: it returns -1 and transfers nothing,
where its parent transfers something or returns zero.

What a device has once it is registered stays as it is whatever is registered later (`step_keeps`).
-/
import Xell.Proofs.Diskio.Registry
import Xell.Usbmass

namespace Xell.Usbmass

open Diskio

/-! ### What stays as it is -/

/-- A registered device keeps its operations and its context. -/
def Keeps (devices devices' : Mem (Bdev Nat Ops)) : Prop :=
  ∀ i, (devices i).ops.isSome = true →
    (devices' i).ops = (devices i).ops ∧ (devices' i).ctx = (devices i).ctx

theorem Keeps.refl (devices : Mem (Bdev Nat Ops)) : Keeps devices devices :=
  fun _ _ => ⟨rfl, rfl⟩

theorem Keeps.trans {a b c : Mem (Bdev Nat Ops)} (h : Keeps a b) (h' : Keeps b c) : Keeps a c := by
  intro i hi
  obtain ⟨hops, hctx⟩ := h i hi
  obtain ⟨hops', hctx'⟩ := h' i (by rw [hops]; exact hi)
  exact ⟨hops'.trans hops, hctx'.trans hctx⟩

/-- What a registration leaves: the devices that were there, and a new one that was free. -/
structure Adds (devices : Mem (Bdev Nat Ops)) (ctx : Option Nat) (ops : Option Ops)
    (q : Option Nat × Mem (Bdev Nat Ops)) : Prop where
  keeps : Keeps devices q.2
  added : ∀ i, q.1 = some i →
    (devices i).ops = none ∧ (q.2 i).ops = ops ∧ (q.2 i).ctx = ctx

theorem Registers.adds {devices : Mem (Bdev Nat Ops)} {ctx : Option Nat} {ops : Option Ops}
    {name : List UInt8} {q : Option Nat × Mem (Bdev Nat Ops)}
    (h : Registers devices ctx ops name q) : Adds devices ctx ops q := by
  refine ⟨fun i hi => ?_, fun i hi => ?_⟩
  · have hother : q.1 ≠ some i := by
      intro htaken
      rw [(h.first htaken).2.1] at hi
      cases hi
    rw [h.others hother]
    exact ⟨rfl, rfl⟩
  · obtain ⟨hctx, hops, -⟩ := h.entry hi
    exact ⟨(h.first hi).2.1, hops, hctx⟩

theorem registerBdev_adds (devices : Mem (Bdev Nat Ops)) (ctx : Option Nat) (ops : Option Ops)
    (name : List UInt8) : Adds devices ctx ops (registerBdev devices ctx ops name) :=
  Registers.adds (registerBdev_registers devices ctx ops name)

theorem registerBdevChild_adds (devices : Mem (Bdev Nat Ops)) (parent : Nat)
    (offset : BitVec 64) (index : Int) :
    Adds devices (devices parent).ctx (devices parent).ops
      (registerBdevChild devices parent offset index) := by
  obtain ⟨name, hreg, -⟩ := registerBdevChild_registers devices parent offset index
  exact Registers.adds hreg

theorem unregisterBdev_keeps (devices : Mem (Bdev Nat Ops)) (bdev : Nat) :
    Keeps devices (unregisterBdev devices bdev) := by
  intro i _
  unfold unregisterBdev
  by_cases hi : i = bdev
  · subst hi
    rw [Function.update_self]
    exact ⟨rfl, rfl⟩
  · rw [Function.update_of_ne hi]
    exact ⟨rfl, rfl⟩

theorem step_keeps (r : Registry Nat Ops) (c : Call Nat Ops) :
    Keeps r.devices (r.step c).devices := by
  cases c with
  | register ctx ops name => exact (registerBdev_adds _ _ _ _).keeps
  | child parent offset index => exact (registerBdevChild_adds _ _ _ _).keeps
  | unregister bdev => exact unregisterBdev_keeps _ _
  | bdevOpen name => exact Keeps.refl _

/-! ### The devices of a stick -/

/-- The devices that a stick keeps are registered, with the stick as their context. -/
def Owns (devices : Mem (Bdev Nat Ops)) (softc : Nat) (bdev : Nat → Option Nat) : Prop :=
  ∀ lun i, bdev lun = some i →
    (devices i).ops = some .usbmassOps ∧ (devices i).ctx = some softc

theorem Owns.keeps {devices devices' : Mem (Bdev Nat Ops)} {softc : Nat} {bdev : Nat → Option Nat}
    (h : Owns devices softc bdev) (hk : Keeps devices devices') : Owns devices' softc bdev := by
  intro lun i hi
  obtain ⟨hops, hctx⟩ := h lun i hi
  obtain ⟨hops', hctx'⟩ := hk i (by rw [hops]; rfl)
  exact ⟨hops'.trans hops, hctx'.trans hctx⟩

theorem probe_owns {softc : Nat} {ready : Nat → Bool} {s : Probing} (i : Nat)
    (h : Owns s.devices softc s.bdev) :
    Owns (probe softc ready s i).devices softc (probe softc ready s i).bdev := by
  unfold probe
  split
  · have hadds := registerBdev_adds s.devices (some softc) (some .usbmassOps)
      [0x75, 0x64, UInt8.ofNat (97 + s.num)]
    intro lun j hj
    dsimp only at hj ⊢
    by_cases hlun : lun = i
    · subst hlun
      rw [Function.update_self] at hj
      exact (hadds.added j hj).2
    · rw [Function.update_of_ne hlun] at hj
      exact h.keeps hadds.keeps lun j hj
  · exact h

theorem usbmassAttach_owns {υ : Type} (devices : Mem (Bdev Nat Ops)) (num softc : Nat) (dev : υ)
    (maxlun : Nat) (ready : Nat → Bool) :
    Owns (usbmassAttach devices num softc dev maxlun ready).2 softc
      (usbmassAttach devices num softc dev maxlun ready).1.bdev := by
  have hrun : ∀ (is : List Nat) (s : Probing), Owns s.devices softc s.bdev →
      Owns (is.foldl (probe softc ready) s).devices softc
        (is.foldl (probe softc ready) s).bdev := by
    intro is
    induction is with
    | nil => intro s h; exact h
    | cons i is ih => intro s h; exact ih _ (probe_owns i h)
  exact hrun _ _ fun lun i hi => absurd hi (by simp)

/-! ### Children -/

/-- `c` was made from `p` by `register_bdev_child`, in one step or more, with the offsets adding
up to `offset`.  Anything else may be registered and unregistered before, between and after. -/
inductive Descends (p : Nat) (r₀ : Registry Nat Ops) :
    Registry Nat Ops → Nat → BitVec 64 → Prop where
  | child {calls : List (Call Nat Ops)} {offset : BitVec 64} {index : Int} {c : Nat}
      (h : ((calls.foldl Registry.step r₀).returned (.child p offset index)).1 = some c) :
      Descends p r₀ ((calls.foldl Registry.step r₀).step (.child p offset index)) c offset
  | grandchild {r : Registry Nat Ops} {q : Nat} {sum offset : BitVec 64} {index : Int} {c : Nat}
      (hq : Descends p r₀ r q sum) (h : (r.returned (.child q offset index)).1 = some c) :
      Descends p r₀ (r.step (.child q offset index)) c (sum + offset)
  | later {r : Registry Nat Ops} {c : Nat} {sum : BitVec 64} (call : Call Nat Ops)
      (hc : Descends p r₀ r c sum) : Descends p r₀ (r.step call) c sum

variable {softc : Nat} {bdev : Nat → Option Nat} {p c : Nat} {r₀ r : Registry Nat Ops}
  {sum : BitVec 64}

theorem foldl_keeps (calls : List (Call Nat Ops)) :
    ∀ r : Registry Nat Ops, Keeps r.devices (calls.foldl Registry.step r).devices := by
  induction calls with
  | nil => intro r; exact Keeps.refl _
  | cons call calls ih => intro r; exact (step_keeps r call).trans (ih _)

/-- The stick's own devices are still there when a child has been made, and the child is a device
of the stick that the stick does not keep. -/
structure Fresh (r : Registry Nat Ops) (softc : Nat) (bdev : Nat → Option Nat) (c : Nat) :
    Prop where
  owns : Owns r.devices softc bdev
  ops : (r.devices c).ops = some .usbmassOps
  ctx : (r.devices c).ctx = some softc
  apart : ∀ lun, bdev lun ≠ some c

/-- A child of a device of the stick. -/
theorem fresh_of_child {q : Nat} {offset : BitVec 64} {index : Int}
    (howns : Owns r.devices softc bdev) (hops : (r.devices q).ops = some .usbmassOps)
    (hctx : (r.devices q).ctx = some softc)
    (h : (r.returned (.child q offset index)).1 = some c) :
    Fresh (r.step (.child q offset index)) softc bdev c := by
  have hadds := registerBdevChild_adds r.devices q offset index
  obtain ⟨hfree, hops', hctx'⟩ := hadds.added c h
  refine ⟨howns.keeps hadds.keeps, hops'.trans hops, hctx'.trans hctx, fun lun hlun => ?_⟩
  have hreg := (howns lun c hlun).1
  rw [hfree] at hreg
  cases hreg

theorem Descends.fresh (howns : Owns r₀.devices softc bdev) {lun : Nat} (hp : bdev lun = some p)
    (h : Descends p r₀ r c sum) : Fresh r softc bdev c := by
  induction h with
  | @child calls offset index c hc =>
      have howns' := howns.keeps (foldl_keeps calls r₀)
      obtain ⟨hops, hctx⟩ := howns' lun p hp
      exact fresh_of_child howns' hops hctx hc
  | grandchild hq hc ih => exact fresh_of_child ih.owns ih.ops ih.ctx hc
  | @later r c sum call hc ih =>
      have hkeeps := step_keeps r call
      obtain ⟨hops, hctx⟩ := hkeeps c (by rw [ih.ops]; rfl)
      exact ⟨ih.owns.keeps hkeeps, hops.trans ih.ops, hctx.trans ih.ctx, ih.apart⟩

/-! ### Reading -/

section Read

variable {υ : Type} (readSector : Transfer υ → Int) {softcs : Nat → Softc υ}

/-- A child is refused. -/
theorem opsRead_child (h : Fresh r softc (softcs softc).bdev c) (data lba : BitVec 64)
    (num : BitVec 32) :
    opsRead readSector softcs r.devices c data lba num = some (-1, []) := by
  have hnone : (List.range ((softcs softc).maxlun + 1)).find?
      (fun lun => (softcs softc).bdev lun = some c) = none := by
    rw [List.find?_range_eq_none]
    intro lun _
    simpa using h.apart lun
  unfold opsRead
  rw [h.ops]
  unfold usbmassRead
  rw [h.ctx]
  dsimp only
  rw [hnone]

/-- The loop of `usbmass_read` makes at most one turn. -/
theorem readLoop_eq (dev : υ) (lba : BitVec 64) (lun : Nat) (data : BitVec 64) (num r : BitVec 32) :
    readLoop readSector dev lba lun data num r =
      if num = 0 then (r, [])
      else
        let t := { dev, sectornum := lba.setWidth 32, seccnt := num, buffer := data, lun }
        (if readSector t ≠ 0 then r else r + num, [t]) := by
  rw [readLoop]
  split
  · rfl
  dsimp only
  split
  · rfl
  · rw [BitVec.sub_self, readLoop, dif_pos (show 0#32 = 0 from rfl)]

/-- A device that the stick keeps returns zero or transfers something. -/
theorem opsRead_parent (howns : Owns r.devices softc (softcs softc).bdev) {lun : Nat}
    (hlun : lun ≤ (softcs softc).maxlun) (hp : (softcs softc).bdev lun = some p)
    (data lba : BitVec 64) (num : BitVec 32) :
    opsRead readSector softcs r.devices p data lba num ≠ some (-1, []) := by
  obtain ⟨hops, hctx⟩ := howns lun p hp
  unfold opsRead
  rw [hops]
  unfold usbmassRead
  rw [hctx]
  dsimp only
  split
  · rename_i hnone
    rw [List.find?_range_eq_none] at hnone
    have := hnone lun (by omega)
    simp [hp] at this
  · rw [readLoop_eq]
    split
    · simp
    · simp

end Read

/--
**A child is never a window on its parent.**  For every stick that `usbmass_attach` has attached,
every device `p` of it, every child of `p` and child of a child, and every read: the child does
not do what `p` does with the offsets added.
-/
theorem child_never_window {υ : Type} (readSector : Transfer υ → Int) (softcs : Nat → Softc υ)
    (devices : Mem (Bdev Nat Ops)) (num softc : Nat) (dev : υ) (maxlun : Nat) (ready : Nat → Bool)
    (hattach : softcs softc = (usbmassAttach devices num softc dev maxlun ready).1)
    (hdevices : r₀.devices = (usbmassAttach devices num softc dev maxlun ready).2) {lun : Nat}
    (hlun : lun ≤ (softcs softc).maxlun) (hp : (softcs softc).bdev lun = some p)
    (h : Descends p r₀ r c sum) (data lba : BitVec 64) (n : BitVec 32) :
    opsRead readSector softcs r.devices c data lba n
      ≠ opsRead readSector softcs r.devices p data (lba + sum) n := by
  have howns : Owns r₀.devices softc (softcs softc).bdev := by
    rw [hattach, hdevices]
    exact usbmassAttach_owns devices num softc dev maxlun ready
  have hfresh := h.fresh howns hp
  rw [opsRead_child readSector hfresh]
  exact (opsRead_parent readSector hfresh.owns hlun hp data (lba + sum) n).symm

/-! ### A stick with a partition -/

/-- A stick with one unit, attached first. -/
def attached : Softc Unit × Mem (Bdev Nat Ops) :=
  usbmassAttach noDevices 0 7 () 0 fun _ => true

def oneStick : Registry Nat Ops := { devices := attached.2, ledger := fun _ => .unused }

/-- Its first partition. -/
def partition : Call Nat Ops := .child 0 63 1

theorem partition_not_window :
    Descends 0 oneStick (oneStick.step partition) 1 63 ∧
      opsRead (fun _ => 0) (fun _ => attached.1) (oneStick.step partition).devices 1 0x1000 5 1
        ≠ opsRead (fun _ => 0) (fun _ => attached.1) (oneStick.step partition).devices 0 0x1000
          (5 + 63) 1 := by
  have hchild : Descends 0 oneStick (oneStick.step partition) 1 63 :=
    @Descends.child 0 oneStick [] 63 1 1 (by decide)
  have hzero : attached.1.bdev 0 = some 0 := by decide
  exact ⟨hchild, child_never_window (fun _ => 0) (fun _ => attached.1) noDevices 0 7 () 0
    (fun _ => true) rfl rfl (Nat.zero_le _) hzero hchild 0x1000 5 1⟩

/-- All transfers succeed, and the stick transfers a sector where the partition returns -1. -/
theorem partition_refused :
    opsRead (fun _ => 0) (fun _ => attached.1) (oneStick.step partition).devices 1 0x1000 0 1
        = some (-1, []) ∧
      opsRead (fun _ => 0) (fun _ => attached.1) (oneStick.step partition).devices 0 0x1000 63 1
        = some (1, [⟨(), 63, 1, 0x1000, 0⟩]) := by
  have hfresh : Fresh (oneStick.step partition) 7 attached.1.bdev 1 := by
    have howns : Owns oneStick.devices 7 attached.1.bdev :=
      usbmassAttach_owns noDevices 0 7 () 0 fun _ => true
    exact fresh_of_child howns (by decide) (by decide) (by decide)
  refine ⟨@opsRead_child 7 1 _ _ (fun _ => 0) (fun _ => attached.1) hfresh 0x1000 0 1, ?_⟩
  have hloop : opsRead (fun _ => 0) (fun _ => attached.1) (oneStick.step partition).devices 0
      0x1000 63 1 = some (readLoop (fun _ => 0) () (63 + 0) 0 0x1000 1 0) := by rfl
  rw [hloop, readLoop_eq]
  decide

end Xell.Usbmass
