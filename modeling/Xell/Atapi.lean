/-
Loading a file from a CD, from `cdrom.c`.

`atapi_packet` sends a command to the drive and reads its answer through a data register, four
bytes at a time, `read_sector` repeats a command that the drive was not ready for, and the loop
at the end of `iso9660_load_file` reads the file that the directory named, 64 sectors at a time.

The drive is whatever answers to reads and writes of its registers, and polling it changes its
state.  `int` is 32 bits, with the arithmetic that wraps, and pointers are 64 bits.  A program
that polls for ever gives nothing.
-/
import Xell.Lib.Mem
import Xell.Lib.Run

namespace Xell.Cdrom

/-- The registers of a drive, and what an array holds that is not initialised. -/
structure Ide (σ : Type) where
  out8 : Nat → UInt8 → σ → σ
  out32 : Nat → BitVec 32 → σ → σ
  in8 : Nat → σ → UInt8 × σ
  in32 : Nat → σ → BitVec 32 × σ
  uninit : σ → Mem UInt8

/-- A drive, and the sectors that were asked for: the first one, and how many. -/
structure Bus (σ : Type) where
  drive : σ
  reads : List (BitVec 32 × BitVec 32)

/-! ### The registers -/

def atapiData : Nat := 0

/-- `ATAPI_ERROR`, and `ATAPI_FEATURES` if it is written. -/
def atapiError : Nat := 1

def atapiByteCntL : Nat := 4

def atapiByteCntH : Nat := 5

def atapiDriveSelect : Nat := 6

/-- `ATAPI_STATUS`, and `ATAPI_COMMAND` if it is written. -/
def atapiStatus : Nat := 7

def atapiStatusDrq : UInt8 := 8

def atapiStatusErr : UInt8 := 1

/-- The lowest byte of an `int`. -/
def lowByte (x : BitVec 32) : UInt8 := ⟨x.setWidth 8⟩

/-- Byte `k` of a word in memory, where the highest byte comes first. -/
def wordByte (w : BitVec 32) (k : Nat) : UInt8 := lowByte (w >>> (24 - 8 * k))

/-- `*(unsigned int *)(packet + i)`. -/
def packetWord (packet : List UInt8) (i : Nat) : BitVec 32 :=
  BitVec.ofNat 32 ((packet.getD i 0).toNat * 2 ^ 24 + (packet.getD (i + 1) 0).toNat * 2 ^ 16
    + (packet.getD (i + 2) 0).toNat * 2 ^ 8 + (packet.getD (i + 3) 0).toNat)

section Load

variable {σ : Type} (d : Ide σ)

def ideOut8 (reg : Nat) (v : UInt8) : Run (Bus σ) Unit :=
  fun b => Part.some ((), { b with drive := d.out8 reg v b.drive })

def ideOut32 (reg : Nat) (v : BitVec 32) : Run (Bus σ) Unit :=
  fun b => Part.some ((), { b with drive := d.out32 reg v b.drive })

def ideIn8 (reg : Nat) : Run (Bus σ) UInt8 :=
  fun b => Part.some ((d.in8 reg b.drive).1, { b with drive := (d.in8 reg b.drive).2 })

def ideIn32 (reg : Nat) : Run (Bus σ) (BitVec 32) :=
  fun b => Part.some ((d.in32 reg b.drive).1, { b with drive := (d.in32 reg b.drive).2 })

/-- What a local array holds at first. -/
def uninit : Run (Bus σ) (Mem UInt8) := fun b => Part.some (d.uninit b.drive, b)

/-- Remember that sectors are asked for. -/
def note (lba num : BitVec 32) : Run (Bus σ) Unit :=
  fun b => Part.some ((), { b with reads := b.reads ++ [(lba, num)] })

/-! ### Commands -/

/-- One turn of the loop of `ide_waitready`. -/
def ideWaitreadyTurn (_ : Unit) : Run (Bus σ) (Int ⊕ Unit) := do
  let status ← ideIn8 d atapiStatus
  if status &&& 0xC0 = 0x40 then pure (.inl 0)
  else if status = 0xFF then pure (.inl (-1))
  else pure (.inr ())

def ideWaitready : Run (Bus σ) Int := Run.loop (ideWaitreadyTurn d) ()

/-- The variables of the loop of `atapi_packet` that reads the answer. -/
structure Pio where
  mem : Mem UInt8
  data : BitVec 64
  dataLen : BitVec 32

/-- One turn of it.  An error ends the loop. -/
def pioTurn (v : Pio) : Run (Bus σ) (Mem UInt8 ⊕ Pio) :=
  if v.dataLen = 0 then pure (.inl v.mem)
  else do
    let x ← ideIn8 d atapiStatus
    if x &&& 0x80 ≠ 0 then pure (.inr v)
    else if x &&& 1 ≠ 0 then do
      let _ ← ideIn8 d atapiError
      pure (.inl v.mem)
    else do
      let w ← ideIn32 d atapiData
      pure (.inr ⟨v.mem.store v.data.toNat 4 (wordByte w), v.data + 4, v.dataLen - 2⟩)

def pioLoop (mem : Mem UInt8) (data : BitVec 64) (dataLen : BitVec 32) :
    Run (Bus σ) (Mem UInt8) :=
  Run.loop (pioTurn d) ⟨mem, data, dataLen⟩

/-- The end of `atapi_packet`, once the drive has the command. -/
def atapiAnswer (mem : Mem UInt8) (data : BitVec 64) (dataLen : BitVec 32) :
    Run (Bus σ) (Int × Mem UInt8) := do
  let mem ← pioLoop d mem data dataLen
  let x ← ideIn8 d atapiStatus
  if x &&& atapiStatusErr ≠ 0 then pure (-6, mem) else pure (0, mem)

/-- The registers that `atapi_packet` writes first. -/
def atapiCommand (dataLen : BitVec 32) : Run (Bus σ) Unit := do
  ideOut8 d atapiDriveSelect 0xA0
  ideOut8 d atapiByteCntL (lowByte (dataLen &&& 0xFF))
  ideOut8 d atapiByteCntH (lowByte (dataLen.sshiftRight 8))
  ideOut8 d atapiError 0
  ideOut8 d atapiStatus 0xA0

/-- The command itself. -/
def atapiSend (packet : List UInt8) : Run (Bus σ) Unit := do
  ideOut32 d atapiData (packetWord packet 0)
  ideOut32 d atapiData (packetWord packet 4)
  ideOut32 d atapiData (packetWord packet 8)

/-- `atapi_packet`: what it returns, and the memory. -/
def atapiPacket (packet : List UInt8) (mem : Mem UInt8) (data : BitVec 64) (dataLen : BitVec 32) :
    Run (Bus σ) (Int × Mem UInt8) := do
  let dataLen := dataLen.sdiv 2
  atapiCommand d dataLen
  let r ← ideWaitready d
  if r ≠ 0 then pure (-2, mem)
  else do
    let x ← ideIn8 d atapiStatus
    if x &&& atapiStatusDrq ≠ 0 then do
      atapiSend d packet
      let r ← ideWaitready d
      if r ≠ 0 then pure (-5, mem) else atapiAnswer d mem data dataLen
    else do
      let x ← ideIn8 d atapiStatus
      if x &&& atapiStatusErr ≠ 0 then pure (-3, mem) else pure (-4, mem)

def sensePacket : List UInt8 := [0x03, 0, 0, 0, 24, 0, 0, 0, 0, 0, 0, 0]

/-- `request_sense`, whose answer goes to a local array. -/
def requestSense : Run (Bus σ) (BitVec 32) := do
  let sense ← uninit d
  let q ← atapiPacket d sensePacket sense 0 24
  if q.1 ≠ 0 then pure (-1)
  else
    pure ((q.2 2).toBitVec.setWidth 32 <<< 16 ||| (q.2 12).toBitVec.setWidth 32 <<< 8
      ||| (q.2 13).toBitVec.setWidth 32)

/-- READ(10). -/
def readPacket (lba num : BitVec 32) : List UInt8 :=
  [0x28, 0, lowByte (lba.sshiftRight 24), lowByte (lba.sshiftRight 16),
    lowByte (lba.sshiftRight 8), lowByte lba, 0, lowByte (num.sshiftRight 8), lowByte num, 0, 0, 0]

/-- `read_sector` with so many attempts left. -/
def readSector (sector : BitVec 64) (lba num : BitVec 32) :
    Nat → Mem UInt8 → Run (Bus σ) (Int × Mem UInt8)
  | 0, mem => pure (-1, mem)
  | maxretries + 1, mem => do
      note lba num
      let q ← atapiPacket d (readPacket lba num) mem sector (0x800 * num)
      if q.1 ≠ 0 then do
        let sense ← requestSense d
        if sense.sshiftRight 16 = 6 then readSector sector lba num maxretries q.2
        else if sense = 0x020401 then readSector sector lba num maxretries q.2
        else pure (-1, q.2)
      else pure (0, q.2)

/-! ### The file -/

/-- How many sectors are read next, with `s` bytes to go. -/
def nextNum (s : BitVec 32) : BitVec 32 :=
  let num := (s + 0x7ff).sdiv 0x800
  if (64 : BitVec 32).slt num then 64 else num

/-- The variables of the loop of `iso9660_load_file`. -/
structure Loading where
  mem : Mem UInt8
  addr : BitVec 64
  fileSector : BitVec 32
  s : BitVec 32

/-- One turn of it. -/
def loadTurn (fileSize : BitVec 32) (v : Loading) :
    Run (Bus σ) ((BitVec 32 × Mem UInt8) ⊕ Loading) := do
  let num := nextNum v.s
  let q ← readSector d v.addr v.fileSector num 10 v.mem
  if q.1 ≠ 0 then pure (.inl (-1, q.2))
  else
    let s := v.s - num * 0x800
    if s.sle 0 then pure (.inl (fileSize, q.2))
    else
      pure (.inr ⟨q.2, v.addr + (num * 0x800).signExtend 64, v.fileSector + num, s⟩)

def loadLoop (fileSize : BitVec 32) (mem : Mem UInt8) (addr : BitVec 64)
    (fileSector s : BitVec 32) : Run (Bus σ) (BitVec 32 × Mem UInt8) :=
  Run.loop (loadTurn d fileSize) ⟨mem, addr, fileSector, s⟩

/-- `iso9660_load_file`, once the directory has told where the file is and how long. -/
def iso9660LoadFile (mem : Mem UInt8) (addr : BitVec 64) (fileSector fileSize : BitVec 32) :
    Run (Bus σ) (BitVec 32 × Mem UInt8) :=
  loadLoop d fileSize mem addr fileSector fileSize

end Load

/-- `LOADER_RAW`. -/
def loaderRaw : BitVec 64 := 0x8000000004000000

/-- `LOADER_MAXSIZE`. -/
def loaderMaxsize : Nat := 0x1000000

end Xell.Cdrom
