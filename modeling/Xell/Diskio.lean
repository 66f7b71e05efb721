/-
The block devices of `diskio.c`.

`devices` is a static array of 16 entries.  An entry is taken by `register_bdev` if it has no
operations yet, `unregister_bdev` marks it as disabled, and `bdev_open` looks for a name.  A
device is known by its place in the array.  Names are C strings: lists of bytes without the NUL
at their end.

At the end stands what the array is to keep: which devices have been registered, under which
name, and which of them have been unregistered since.
-/
import Xell.Lib.Mem

namespace Xell.Diskio

/-- `struct bdev`.  `γ` and `ω` are what its pointers point to. -/
structure Bdev (γ ω : Type) where
  ctx : Option γ
  name : List UInt8
  offset : BitVec 64
  ops : Option ω
  disabled : Bool

/-- `MAX_DEVICES`. -/
def maxDevices : Nat := 16

section Devices

variable {γ ω : Type}

/-- The array before anything is registered. -/
def noDevices : Mem (Bdev γ ω) :=
  fun _ => { ctx := none, name := [], offset := 0, ops := none, disabled := false }

def registerBdev (devices : Mem (Bdev γ ω)) (ctx : Option γ) (ops : Option ω)
    (name : List UInt8) : Option Nat × Mem (Bdev γ ω) :=
  match (List.range maxDevices).find? fun i => (devices i).ops.isNone with
  | none => (none, devices)
  | some i => (some i, Function.update devices i { devices i with ctx, name, ops })

/-- `%d` of `sprintf`. -/
def decimal (n : Int) : List UInt8 :=
  (if n < 0 then [0x2d] else []) ++
    (Nat.toDigits 10 n.natAbs).map fun c => UInt8.ofNat c.toNat

def registerBdevChild (devices : Mem (Bdev γ ω)) (parent : Nat) (offset : BitVec 64)
    (index : Int) : Option Nat × Mem (Bdev γ ω) :=
  match registerBdev devices (devices parent).ctx (devices parent).ops [] with
  | (none, devices) => (none, devices)
  | (some c, devices) =>
      let name := (devices parent).name ++ decimal index
      (some c, Function.update devices c { devices c with name, offset })

def unregisterBdev (devices : Mem (Bdev γ ω)) (bdev : Nat) : Mem (Bdev γ ω) :=
  Function.update devices bdev { devices bdev with disabled := true }

def bdevOpen (devices : Mem (Bdev γ ω)) (name : List UInt8) : Option Nat :=
  (List.range maxDevices).find? fun i => (devices i).name = name

end Devices

/-! ### What has been registered -/

/-- A device, as far as it has been registered and unregistered. -/
inductive Entry where
  | unused
  | live (name : List UInt8)
  | gone (name : List UInt8)
  deriving DecidableEq

def Entry.name : Entry → List UInt8
  | unused => []
  | live name => name
  | gone name => name

/-- Unregistered, if it was registered. -/
def Entry.remove : Entry → Entry
  | unused => unused
  | live name => gone name
  | gone name => gone name

/-- The device was registered under the name, whatever became of it. -/
def Entry.Under (e : Entry) (name : List UInt8) : Prop := e = live name ∨ e = gone name

/-- The calls that change or use the devices. -/
inductive Call (γ ω : Type) where
  | register (ctx : Option γ) (ops : ω) (name : List UInt8)
  | child (parent : Nat) (offset : BitVec 64) (index : Int)
  | unregister (bdev : Nat)
  | bdevOpen (name : List UInt8)

/-- The array, and the ledger of what has been registered. -/
structure Registry (γ ω : Type) where
  devices : Mem (Bdev γ ω)
  ledger : Mem Entry

namespace Registry

variable {γ ω : Type}

def empty : Registry γ ω := { devices := noDevices, ledger := fun _ => .unused }

/-- A registration with what it returned. -/
def added (r : Registry γ ω) (name : List UInt8) (q : Option Nat × Mem (Bdev γ ω)) :
    Registry γ ω where
  devices := q.2
  ledger := match q.1 with
    | none => r.ledger
    | some i => Function.update r.ledger i (.live name)

/-- The name under which a child is registered. -/
def childName (r : Registry γ ω) (parent : Nat) (index : Int) : List UInt8 :=
  (r.ledger parent).name ++ decimal index

/-- What a registration returns, if the call is one. -/
def returned (r : Registry γ ω) : Call γ ω → Option Nat × Mem (Bdev γ ω)
  | .register ctx ops name => registerBdev r.devices ctx (some ops) name
  | .child parent offset index => registerBdevChild r.devices parent offset index
  | .unregister bdev => (none, unregisterBdev r.devices bdev)
  | .bdevOpen name => (Diskio.bdevOpen r.devices name, r.devices)

def step (r : Registry γ ω) : Call γ ω → Registry γ ω
  | .register ctx ops name => r.added name (r.returned (.register ctx ops name))
  | .child parent offset index =>
      r.added (r.childName parent index) (r.returned (.child parent offset index))
  | .unregister bdev =>
      { devices := unregisterBdev r.devices bdev
        ledger := Function.update r.ledger bdev (r.ledger bdev).remove }
  | .bdevOpen _ => r

/-- All devices are registered and none of them has been unregistered. -/
def Full (r : Registry γ ω) : Prop := ∀ i < maxDevices, ∃ name, r.ledger i = .live name

/-- What is asked of a call: a registration fails only if all devices are live, and `bdev_open`
finds a live device of the name exactly if there is one. -/
def Right (r : Registry γ ω) : Call γ ω → Prop
  | .register ctx ops name => (r.returned (.register ctx ops name)).1 = none → r.Full
  | .child parent offset index => (r.returned (.child parent offset index)).1 = none → r.Full
  | .unregister _ => True
  | .bdevOpen name =>
      (∀ i, (r.returned (.bdevOpen name)).1 = some i → r.ledger i = .live name) ∧
        ((∃ i, r.ledger i = .live name) → ∃ i, (r.returned (.bdevOpen name)).1 = some i)

/-- A call that a caller can make: names are short strings, and a device that is passed has been
returned by a registration. -/
def Valid (r : Registry γ ω) : Call γ ω → Prop
  | .register _ _ name => name.length < 16 ∧ 0 ∉ name
  | .child parent _ index =>
      r.ledger parent ≠ .unused ∧ (r.childName parent index).length < 16
  | .unregister bdev => r.ledger bdev ≠ .unused
  | .bdevOpen name => name.length < 16 ∧ 0 ∉ name

/-- `P` holds of every call of a run, in the state in which it is made. -/
def Along (P : Registry γ ω → Call γ ω → Prop) : Registry γ ω → List (Call γ ω) → Prop
  | _, [] => True
  | r, c :: cs => P r c ∧ Along P (r.step c) cs

end Registry

end Xell.Diskio
