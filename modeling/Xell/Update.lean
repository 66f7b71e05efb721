/-
Updating the loader in flash, from `flash.c` and `main.c`.

The flash controller is whatever answers to reads and writes of its registers, and what is read
or written changes its state.  All accesses are kept, in order.  `update_xell_flash` looks at the
configuration, at the image in the flash and at the file, and refuses or writes 256 KB from one
megabyte on: sixteen blocks that are erased, each at the place where the controller finds it, and
written page by page.  What it prints is left out, and so is the loop that it ends in.

A program that waits for ever gives nothing.
-/
import Xell.Flash
import Xell.Lib.Run

namespace Xell.Flash

/-- The registers of the controller.  The values are those behind `bswap_32`. -/
structure Sfcx (σ : Type) where
  readreg : Nat → σ → BitVec 32 × σ
  writereg : Nat → BitVec 32 → σ → σ

/-- An access to a register, with what was read or written. -/
inductive Access where
  | read (reg : Nat) (data : BitVec 32)
  | write (reg : Nat) (data : BitVec 32)

/-- A controller, and the accesses to its registers. -/
structure Programmer (σ : Type) where
  sfcx : σ
  accesses : List Access

def statusReg : Nat := 1

def commandReg : Nat := 2

def addressReg : Nat := 3

def dataReg : Nat := 4

section Registers

variable {σ : Type} (d : Sfcx σ)

def sfcxReadreg (reg : Nat) : Run (Programmer σ) (BitVec 32) := fun b =>
  let r := d.readreg reg b.sfcx
  Part.some (r.1, ⟨r.2, b.accesses ++ [.read reg r.1]⟩)

def sfcxWritereg (reg : Nat) (data : BitVec 32) : Run (Programmer σ) Unit := fun b =>
  Part.some ((), ⟨d.writereg reg data b.sfcx, b.accesses ++ [.write reg data]⟩)

/-- One poll of `while (sfcx_readreg(STATUS) & 1);` -/
def waitIdleTurn (_ : Unit) : Run (Programmer σ) (Unit ⊕ Unit) := do
  let status ← sfcxReadreg d statusReg
  if status &&& 1 ≠ 0 then pure (.inr ()) else pure (.inl ())

def waitIdle : Run (Programmer σ) Unit := Run.loop (waitIdleTurn d) ()

/-! ### `flash.c` -/

/-- One word of the loop of `readsector`. -/
def readWord (data : Mem UInt8) (k : Nat) : Run (Programmer σ) (Mem UInt8) := do
  sfcxWritereg d commandReg 0
  let w ← sfcxReadreg d dataReg
  pure (storeWord data (4 * k) (bswap32 w))

def readsector (data : Mem UInt8) (sector : BitVec 32) (raw : Bool) :
    Run (Programmer σ) (Mem UInt8) := do
  let status ← sfcxReadreg d statusReg
  sfcxWritereg d statusReg status
  sfcxWritereg d addressReg sector
  sfcxWritereg d commandReg (if raw then 3 else 2)
  waitIdle d
  sfcxWritereg d addressReg 0
  (List.range (0x210 / 4)).foldlM (readWord d) data

def flashErase (address : BitVec 32) : Run (Programmer σ) Unit := do
  let config ← sfcxReadreg d 0
  sfcxWritereg d 0 (config ||| 8)
  sfcxWritereg d statusReg 0xFF
  sfcxWritereg d addressReg address
  waitIdle d
  sfcxWritereg d commandReg 0xAA
  sfcxWritereg d commandReg 0x55
  waitIdle d
  sfcxWritereg d commandReg 0x5
  waitIdle d
  let _ ← sfcxReadreg d statusReg
  sfcxWritereg d statusReg 0xFF
  let config ← sfcxReadreg d 0
  sfcxWritereg d 0 (config &&& ~~~8)

/-- One word of the loop of `write_page`. -/
def writeWord (data : Mem UInt8) (_ : Unit) (k : Nat) : Run (Programmer σ) Unit := do
  sfcxWritereg d dataReg (bswap32 (loadWord data (4 * k)))
  sfcxWritereg d commandReg 1

def writePage (address : BitVec 32) (data : Mem UInt8) : Run (Programmer σ) Unit := do
  sfcxWritereg d statusReg 0xFF
  let config ← sfcxReadreg d 0
  sfcxWritereg d 0 (config ||| 8)
  sfcxWritereg d addressReg 0
  (List.range (0x210 / 4)).foldlM (writeWord d data) ()
  sfcxWritereg d addressReg address
  sfcxWritereg d commandReg 0x55
  waitIdle d
  sfcxWritereg d commandReg 0xAA
  waitIdle d
  sfcxWritereg d commandReg 0x4
  waitIdle d
  let _ ← sfcxReadreg d statusReg
  let config ← sfcxReadreg d 0
  sfcxWritereg d 0 (config &&& ~~~8)

end Registers

/-! ### `update_xell_flash` -/

def eraseblockSize : Nat := 16384

/-- `OFFSET`. -/
def flashOffset : Nat := 1024 * 1024

/-- "zeropair image, version=00, ". -/
def hackimageVersion : List UInt8 :=
  [0x7a, 0x65, 0x72, 0x6f, 0x70, 0x61, 0x69, 0x72, 0x20, 0x69, 0x6d, 0x61, 0x67, 0x65, 0x2c, 0x20,
    0x76, 0x65, 0x72, 0x73, 0x69, 0x6f, 0x6e, 0x3d, 0x30, 0x30, 0x2c, 0x20]

/-- The first bytes of an ELF file. -/
def elfhdr : List UInt8 := [0x7f, 0x45, 0x4c, 0x46]

/-- How `update_xell_flash` comes to its endless loop. -/
inductive Outcome where
  | refused
  | done
  deriving DecidableEq

section Update

variable {σ : Type} (d : Sfcx σ) (xell : Mem UInt8) (fileSize : Nat)

/-- One turn of the inner loop. -/
def updateTurn (addr : Nat) (physPos : BitVec 32) (block : Mem UInt8) (j : Nat) :
    Run (Programmer σ) (Mem UInt8) := do
  let page := updatePage xell fileSize addr j physPos.toNat eraseblockSize block
  let address := physPos + BitVec.ofNat 32 (j * 0x200)
  writePage d address page
  readsector d page address false

/-- One turn of the outer loop.  `block` is not initialised, and is read as a whole. -/
def updateBlock (_ : Unit) (i : Nat) : Run (Programmer σ) Unit := do
  let addr := i * eraseblockSize
  let flashAddr := BitVec.ofNat 32 (addr + flashOffset)
  let block ← readsector d (fun _ => 0) flashAddr false
  let physPos ← sfcxReadreg d 6
  let physPos := if physPos &&& 0x04000000 = 0 then flashAddr else physPos
  let physPos := physPos &&& 0x3fffe00
  flashErase d physPos
  let _ ← (List.range (eraseblockSize / 0x200)).foldlM (updateTurn d xell fileSize addr physPos)
    block
  pure ()

/-- `update_xell_flash`.  `hdr` is not initialised either. -/
def updateXellFlash : Run (Programmer σ) Outcome := do
  let config ← sfcxReadreg d 0
  sfcxWritereg d 0 (config &&& ~~~(4 ||| 8 ||| 0x3c0))
  let config ← sfcxReadreg d 0
  if config ≠ 0x01198010 then do
    let _ ← sfcxReadreg d 0
    pure .refused
  else do
    let hdr ← readsector d (fun _ => 0) 0 false
    if hdr.slice 0x10 0x1c ≠ hackimageVersion then pure .refused
    else if xell.slice 0 4 = elfhdr then pure .refused
    else do
      (List.range (0x40000 / eraseblockSize)).foldlM (updateBlock d xell fileSize) ()
      pure .done

end Update

end Xell.Flash
