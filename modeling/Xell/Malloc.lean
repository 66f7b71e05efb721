/-
The heap, from `nocfe/lib_malloc.c`.

A pool is a piece of memory that is cut into blocks.  Every block begins with a `memnode_t`, and
the nodes are linked in the order of their addresses.  `kmalloc` takes the first free block that
is large enough, and cuts off what it does not need, `kfree` finds the node of a block through a
pointer in front of it and sets it free, and `kmemcompact` joins free neighbours.

All of it is in memory that the callers write to as well, so the functions are programs on a
memory of bytes.  Pointers are 64 bits, and the highest byte of a number comes first.  A loop over
nodes that are linked in a circle does not end, and gives nothing.
-/
import Xell.Lib.Run
import Xell.Lib.Word

namespace Xell.Malloc

/-- `MEMNODE_SEAL`. -/
def memnodeSeal : UInt32 := 0xFAAFA123

/-- `MINBLKSIZE`. -/
def minblksize : UInt64 := 64

/-- `sizeof(memnode_t)`. -/
def memnodeSize : UInt64 := 40

/-- `sizeof(void *)`. -/
def ptrSize : UInt64 := 8

inductive MemnodeStatus where
  | free
  | alloc
deriving DecidableEq

/-- A status as it is in memory. -/
def MemnodeStatus.word : MemnodeStatus → UInt32
  | .free => 0
  | .alloc => 1

structure Mempool where
  root : UInt64
  base : UInt64
  length : UInt32

/-! ### Nodes -/

/-- `m->seal`. -/
def getSeal (m : UInt64) (mem : Mem UInt8) : UInt32 := Word.load mem m.toNat

/-- `m->next`. -/
def getNext (m : UInt64) (mem : Mem UInt8) : UInt64 := Word.load64 mem (m.toNat + 8)

/-- `m->length`. -/
def getLength (m : UInt64) (mem : Mem UInt8) : UInt32 := Word.load mem (m.toNat + 16)

/-- `m->status`. -/
def getStatus (m : UInt64) (mem : Mem UInt8) : UInt32 := Word.load mem (m.toNat + 20)

/-- `m->data`. -/
def getData (m : UInt64) (mem : Mem UInt8) : UInt64 := Word.load64 mem (m.toNat + 24)

def setSeal (m : UInt64) (w : UInt32) : Mem UInt8 → Mem UInt8 := Word.store m.toNat w

def setNext (m next : UInt64) : Mem UInt8 → Mem UInt8 := Word.store64 (m.toNat + 8) next

def setLength (m : UInt64) (length : UInt32) : Mem UInt8 → Mem UInt8 :=
  Word.store (m.toNat + 16) length

def setStatus (m : UInt64) (status : MemnodeStatus) : Mem UInt8 → Mem UInt8 :=
  Word.store (m.toNat + 20) status.word

def setData (m data : UInt64) : Mem UInt8 → Mem UInt8 := Word.store64 (m.toNat + 24) data

/-- `memnode_data`: what lies behind a node. -/
def memnodeData (m : UInt64) : UInt64 := m + memnodeSize

/-- `kmeminit`: the pool, and its memory. -/
def kmeminit (buffer : UInt64) (length : UInt32) : Run (Mem UInt8) Mempool := fun mem =>
  let mem := setSeal buffer memnodeSeal mem
  let mem := setLength buffer (length - memnodeSize.toUInt32) mem
  let mem := setData buffer (memnodeData buffer) mem
  let mem := setStatus buffer .free mem
  let mem := setNext buffer 0 mem
  Part.some (⟨buffer, buffer, length⟩, mem)

/-! ### Giving back -/

/-- A node takes up the next one, which loses its seal. -/
def joinNext (m : UInt64) (mem : Mem UInt8) : Mem UInt8 :=
  let length := getLength m mem + (memnodeSize.toUInt32 + getLength (getNext m mem) mem)
  let mem := setLength m length mem
  let mem := setSeal (getNext m mem) 0 mem
  setNext m (getNext (getNext m mem) mem) mem

/-- One turn of the inner loop of `kmemcompact`.  It returns from the function if a node has not
the seal. -/
def kmemcompactTurn (v : UInt64 × Nat) : Run (Mem UInt8) (Option Nat ⊕ UInt64 × Nat) := fun mem =>
  Part.some <|
    if v.1 = 0 then (.inl (some v.2), mem)
    else if getSeal v.1 mem ≠ memnodeSeal then (.inl none, mem)
    else if getNext v.1 mem ≠ 0 ∧ getStatus v.1 mem = MemnodeStatus.free.word ∧
        getStatus (getNext v.1 mem) mem = MemnodeStatus.free.word then
      (.inr (getNext v.1 (joinNext v.1 mem), v.2 + 1), joinNext v.1 mem)
    else (.inr (getNext v.1 mem, v.2), mem)

/-- One turn of the outer one. -/
def kmemcompactPass (pool : Mempool) (_ : Unit) : Run (Mem UInt8) (Unit ⊕ Unit) := do
  match ← Run.loop kmemcompactTurn (pool.root, 0) with
  | none => pure (.inl ())
  | some compacted => pure (if 0 < compacted then .inr () else .inl ())

def kmemcompact (pool : Mempool) : Run (Mem UInt8) Unit := Run.loop (kmemcompactPass pool) ()

/-- `kfree`, which gives nothing back that is not in the pool, or that has no node. -/
def kfree (pool : Mempool) (ptr : UInt64) : Run (Mem UInt8) Unit := fun mem =>
  if ptr < pool.base ∨ pool.base + pool.length.toUInt64 ≤ ptr then Part.some ((), mem)
  else
    let m := Word.load64 mem (ptr - ptrSize).toNat
    if getSeal m mem ≠ memnodeSeal then Part.some ((), mem)
    else kmemcompact pool (setStatus m .free mem)

/-! ### Handing out -/

/-- The variables of the loop of `kmalloc`. -/
structure Search where
  m : UInt64
  daddr : UInt64
  realsize : UInt64

/-- What a block must have for `size` bytes, if `daddr` is where it begins. -/
def realSize (size : UInt32) (ptralign daddr : UInt64) : UInt64 :=
  let extra :=
    if daddr &&& (ptralign - 1) ≠ 0 then size.toUInt64 + (ptralign - (daddr &&& (ptralign - 1)))
    else 0
  size.toUInt64 + extra

/-- One turn of it. -/
def kmallocTurn (size : UInt32) (ptralign : UInt64) (v : Search) :
    Run (Mem UInt8) (Search ⊕ Search) := fun mem =>
  Part.some <|
    if v.m = 0 then (.inl v, mem)
    else if getStatus v.m mem = MemnodeStatus.alloc.word then
      (.inr { v with m := getNext v.m mem }, mem)
    else
      let daddr := memnodeData v.m
      let realsize := realSize size ptralign daddr
      if (getLength v.m mem).toUInt64 < realsize then
        (.inr ⟨getNext v.m mem, daddr, realsize⟩, mem)
      else (.inl ⟨v.m, daddr, realsize⟩, mem)

/-- The next address that is a multiple of `ptralign`. -/
def alignAddr (ptralign daddr : UInt64) : UInt64 :=
  if daddr &&& (ptralign - 1) ≠ 0 then (daddr + ptralign) &&& ~~~(ptralign - 1) else daddr

/-- A node is marked as taken, and the pointer to it is put in front of the data. -/
def markAlloc (m daddr : UInt64) (mem : Mem UInt8) : Mem UInt8 :=
  let mem := setData m daddr mem
  let mem := setStatus m .alloc mem
  Word.store64 (getData m mem - ptrSize).toNat m mem

/-- A block is cut in two, and the second one is free. -/
def splitNode (m newm : UInt64) (mem : Mem UInt8) : Mem UInt8 :=
  let blkend := memnodeData m + (getLength m mem).toUInt64
  let mem := setNext newm (getNext m mem) mem
  let mem := setLength m (newm - memnodeData m).toUInt32 mem
  let mem := setNext m newm mem
  let mem := setStatus m .alloc mem
  let mem := setSeal newm memnodeSeal mem
  let mem := setData newm (memnodeData newm) mem
  let mem := setLength newm (blkend - memnodeData newm).toUInt32 mem
  setStatus newm .free mem

/-- The end of `kmalloc`: use the block `m`, and cut off what is left if it is enough. -/
def kmallocUse (size : UInt32) (ptralign : UInt64) (v : Search) (mem : Mem UInt8) :
    UInt64 × Mem UInt8 :=
  let daddr := alignAddr ptralign v.daddr
  let mem := markAlloc v.m daddr mem
  if (getLength v.m mem).toUInt64 - v.realsize < minblksize then (getData v.m mem, mem)
  else
    let mem := splitNode v.m (alignAddr ptrSize (daddr + size.toUInt64)) mem
    (getData v.m mem, mem)

/-- The alignment that is used. -/
def ptrAlign (align : UInt32) : UInt64 := if align.toUInt64 < ptrSize then 8 else align.toUInt64

/-- The size that is used, a multiple of eight. -/
def roundSize (size : UInt32) : UInt32 :=
  let size := if size = 0 then ptrSize.toUInt32 else size
  if size &&& (ptrSize.toUInt32 - 1) ≠ 0 then (size + ptrSize.toUInt32) &&& ~~~(ptrSize.toUInt32 - 1)
  else size

def kmalloc (pool : Mempool) (size align : UInt32) : Run (Mem UInt8) UInt64 := do
  let v ← Run.loop (kmallocTurn (roundSize size) (ptrAlign align)) ⟨pool.root, 0, 0⟩
  if v.m = 0 then pure 0
  else fun mem => Part.some (kmallocUse (roundSize size) (ptrAlign align) v mem)

/-! ### Looking -/

structure Memstats where
  totalbytes : UInt32
  allocbytes : UInt32
  freebytes : UInt32
  allocnodes : UInt32
  freenodes : UInt32
  largest : UInt32
deriving DecidableEq

/-- A node is counted. -/
def Memstats.count (m : UInt64) (mem : Mem UInt8) (s : Memstats) : Memstats :=
  let length := getLength m mem
  if getStatus m mem ≠ 0 then
    { s with allocnodes := s.allocnodes + 1, allocbytes := s.allocbytes + length }
  else
    { s with
      freenodes := s.freenodes + 1
      freebytes := s.freebytes + length
      largest := if s.largest < length then length else s.largest }

/-- The tests that `kmemstats` makes of a node. -/
def nodeBad (m : UInt64) (mem : Mem UInt8) : Bool :=
  getSeal m mem ≠ memnodeSeal ||
  (getNext m mem ≠ 0 && memnodeData m + (getLength m mem).toUInt64 ≠ getNext m mem) ||
  (getNext m mem ≠ 0 && getNext m mem < m) ||
  getData m mem < m ||
  (getStatus m mem = MemnodeStatus.alloc.word &&
    Word.load64 mem (getData m mem - ptrSize).toNat ≠ m)

/-- One turn of the loop of `kmemstats`. -/
def kmemstatsTurn (v : UInt64 × Memstats) :
    Run (Mem UInt8) ((Int × Memstats) ⊕ UInt64 × Memstats) := fun mem =>
  Part.some <|
    if v.1 = 0 then (.inl (0, v.2), mem)
    else if nodeBad v.1 mem then (.inl (-1, v.2.count v.1 mem), mem)
    else (.inr (getNext v.1 mem, v.2.count v.1 mem), mem)

/-- `kmemstats`: what it returns, and the figures. -/
def kmemstats (pool : Mempool) : Run (Mem UInt8) (Int × Memstats) :=
  Run.loop kmemstatsTurn (pool.root, ⟨pool.length, 0, 0, 0, 0, 0⟩)

end Xell.Malloc
