/-
The page checksum of `flash.c`.

A page is 0x200 bytes of data and 0x10 of spare area.  `calcecc` runs a shift register of 26
bits over the page up to the last 26 bits of the spare area, and stores what it holds there.
The words of the page are read in the byte order of a big-endian processor and turned round,
so that the bits of a page are taken byte by byte, lowest bit first.
-/
import Xell.Lib.Mem

namespace Xell.Flash

/-- `*data`, as the processor reads it. -/
def loadWord (p : Mem UInt8) (data : Nat) : BitVec 32 :=
  let byte (a : Nat) : BitVec 32 := (p a).toBitVec.setWidth 32
  (byte data <<< 24) ||| (byte (data + 1) <<< 16) ||| (byte (data + 2) <<< 8) ||| byte (data + 3)

def bswap32 (t : BitVec 32) : BitVec 32 :=
  ((t &&& 0xFF) <<< 24) ||| ((t &&& 0xFF00) <<< 8) ||| ((t &&& 0xFF0000) >>> 8)
    ||| ((t &&& 0xFF000000) >>> 24)

/-- The feedback of the register. -/
def eccPoly : BitVec 32 := 0x6954559

/-- The locals of `calcecc` that its loop changes. -/
structure EccState where
  val : BitVec 32
  v : BitVec 32
  data : Nat

/-- The next word, every 32 turns. -/
def eccLoad (p : Mem UInt8) (i : Nat) (s : EccState) : EccState :=
  if i &&& 31 = 0 then { s with v := ~~~bswap32 (loadWord p s.data), data := s.data + 4 } else s

/-- One turn of the loop. -/
def eccStep (p : Mem UInt8) (i : Nat) (s : EccState) : EccState :=
  let s := eccLoad p i s
  let val := s.val ^^^ (s.v &&& 1)
  let val := if val &&& 1 ≠ 0 then val ^^^ eccPoly else val
  { s with val := val >>> 1, v := s.v >>> 1 }

/-- The first `n` turns of the loop. -/
def eccLoop (p : Mem UInt8) (s : EccState) : Nat → EccState
  | 0 => s
  | n + 1 => eccStep p n (eccLoop p s n)

/-- The register after the loop.  `v` has no value at first, and is loaded in the first turn. -/
def eccVal (p : Mem UInt8) : BitVec 32 :=
  ~~~(eccLoop p { val := 0, v := 0, data := 0 } 0x1066).val

def calcecc (p : Mem UInt8) : Mem UInt8 :=
  let val := eccVal p
  let edc := 0x200
  let byte (x : BitVec 32) : UInt8 := UInt8.ofBitVec (x.setWidth 8)
  let p := p.store (edc + 0xC) 1 fun _ => p (edc + 0xC) ||| byte ((val <<< 6) &&& 0xC0)
  let p := p.store (edc + 0xD) 1 fun _ => byte ((val >>> 2) &&& 0xFF)
  let p := p.store (edc + 0xE) 1 fun _ => byte ((val >>> 10) &&& 0xFF)
  p.store (edc + 0xF) 1 fun _ => byte ((val >>> 18) &&& 0xFF)

/-- `*(int*)a = w`. -/
def storeWord (p : Mem UInt8) (a : Nat) (w : BitVec 32) : Mem UInt8 :=
  p.store a 4 fun i => UInt8.ofBitVec ((w >>> (24 - 8 * i)).setWidth 8)

/-- The page `update_xell_flash` of `main.c` writes in turn `j` of its inner loop, made in
`block` out of the image at `xell`. -/
def updatePage (xell : Mem UInt8) (fileSize addr j physPos eraseblockSize : Nat)
    (block : Mem UInt8) : Mem UInt8 :=
  let block := block.store 0 0x200 fun _ => 0xff
  let block := if addr + j * 0x200 < fileSize
    then block.store 0 0x200 fun i => xell (addr + j * 0x200 + i) else block
  let block := block.store 0x200 0x10 fun _ => 0
  let block := storeWord block 0x200 (bswap32 (BitVec.ofNat 32 (physPos / eraseblockSize)))
  let block := block.store 0x205 1 fun _ => 0xff
  calcecc block

/-- Bit `i` of a page: bit `i % 8` of byte `i / 8`. -/
def pageBit (p : Mem UInt8) (i : Nat) : Bool := (p (i / 8)).toBitVec.getLsbD (i % 8)

end Xell.Flash
