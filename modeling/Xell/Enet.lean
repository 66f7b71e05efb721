/-
The Ethernet driver of `lwip/arch/xenon/netif/enet.c`, and the two rings it shares with the
network chip.

A ring is sixteen descriptors of four words, and a buffer of `MTU` bytes for each of them.
Bit 31 of word 1 says whose a descriptor is.  The chip goes round each ring on its own: it
takes the descriptors it owns in order, and gives each back by clearing the bit.

Driver and chip run side by side, so that a driver function is a sequence of single accesses
to what they share, and the chip may come in between any two of them.  `Pc` says how far the
driver is; copies go byte by byte.  Descriptors are kept in the chip's byte order, which is
what the calls of `swap32` are for.
-/
import Xell.Lib.Mem

namespace Xell.Enet

def txDescriptorNum : Nat := 0x10

def rxDescriptorNum : Nat := 0x10

def mtu : Nat := 1528

def swap32 (v : BitVec 32) : BitVec 32 :=
  ((v &&& 0xFF) <<< 24) ||| ((v &&& 0xFF00) <<< 8) ||| ((v &&& 0xFF0000) >>> 8)
    ||| ((v &&& 0xFF000000) >>> 24)

/-- `MEM`: where the processor sees a physical address. -/
def mem (x : Nat) : Nat := 0x8000000000000000 + x

def virtToPhys (ptr : Nat) : BitVec 32 := BitVec.ofNat 32 ptr

/-- The test of the ownership bit of descriptor `i`. -/
def busy (descr : Mem (BitVec 32)) (i : Nat) : Bool :=
  swap32 (descr (i * 4 + 1)) &&& 0x80000000 ≠ 0

/-- What the chip writes into word 1 when it gives a descriptor back. -/
def release (word : BitVec 32) : BitVec 32 := swap32 (swap32 word &&& 0x7fffffff)

/-- Word 3: a length, and the mark on the last descriptor of a ring. -/
def lengthWord (i : Nat) (len : BitVec 32) : BitVec 32 :=
  swap32 (len ||| if i = 0x10 - 1 then 0x80000000 else 0)

/-! ### Sending -/

def txBase : Nat := mem 0x2000000

/-- `tx_buffer_base + i * MTU`. -/
def txBuffer (i : Nat) : Nat := txBase + txDescriptorNum * 0x10 + i * mtu

/-- A chain of `pbuf`s: what each of them holds, and the `tot_len` of the first. -/
structure Pbuf where
  payloads : List (List UInt8)
  totLen : Nat
  totLen_eq : totLen = payloads.flatten.length

/-- How far `enet_linkoutput` is.  In `copy` the bytes `q` are left of the current `pbuf` and
`rest` of the chain; the states named after words are those before these words are written. -/
inductive TxPc where
  | idle
  | copy (dstptr totLen : Nat) (q : List UInt8) (rest : List (List UInt8)) (offset : Nat)
  | wait (data len : Nat)
  | word0 (data len : Nat)
  | word2 (data len : Nat)
  | word3 (len : Nat)
  | word1
  | advance

/-- The driver's side of the ring, the chip's place in it, and two lists that are in neither:
the frames passed to `enet_linkoutput` and the frames transmitted. -/
structure Tx where
  mem : Mem UInt8
  descr : Mem (BitVec 32)
  wptr : Nat
  pc : TxPc
  nic : Nat
  passed : List (List UInt8)
  sent : List (List UInt8)

/-- One access of `enet_linkoutput`, or of the functions it calls. -/
def txDriver (s : Tx) : Tx :=
  match s.pc with
  | .idle => s
  | .copy dstptr totLen (b :: q) rest offset =>
      { s with
        mem := Function.update s.mem (dstptr + offset) b
        pc := .copy dstptr totLen q rest (offset + 1) }
  | .copy dstptr totLen [] (q :: rest) offset => { s with pc := .copy dstptr totLen q rest offset }
  | .copy dstptr totLen [] [] _ => { s with pc := .wait dstptr totLen }
  -- `wait_empty_tx`
  | .wait data len => if busy s.descr s.wptr then s else { s with pc := .word0 data len }
  | .word0 data len =>
      { s with
        descr := Function.update s.descr (s.wptr * 4 + 0) (swap32 (BitVec.ofNat 32 len))
        pc := .word2 data len }
  | .word2 data len =>
      { s with
        descr := Function.update s.descr (s.wptr * 4 + 2) (swap32 (virtToPhys data))
        pc := .word3 len }
  | .word3 len =>
      { s with
        descr := Function.update s.descr (s.wptr * 4 + 3)
          (lengthWord s.wptr (BitVec.ofNat 32 len))
        pc := .word1 }
  | .word1 =>
      { s with
        descr := Function.update s.descr (s.wptr * 4 + 1) (swap32 0xc0230000)
        pc := .advance }
  | .advance => { s with wptr := (s.wptr + 1) % txDescriptorNum, pc := .idle }

/-- The chip transmits the buffer of its next descriptor, if it owns that. -/
def txNic (s : Tx) : Tx :=
  if busy s.descr s.nic then
    let len := swap32 (s.descr (s.nic * 4 + 0))
    let data := swap32 (s.descr (s.nic * 4 + 2))
    { s with
      descr := Function.update s.descr (s.nic * 4 + 1) (release (s.descr (s.nic * 4 + 1)))
      nic := (s.nic + 1) % txDescriptorNum
      sent := s.sent ++ [s.mem.slice (Enet.mem data.toNat) len.toNat] }
  else s

/-- What can happen: a frame is passed to the driver, the driver goes on, the chip goes on. -/
inductive TxEvent where
  | linkoutput (p : Pbuf) (fits : p.totLen ≤ mtu)
  | driver
  | nic

/-- `enet_linkoutput` is not entered while it runs. -/
def txStep (s : Tx) : TxEvent → Tx
  | .linkoutput p _ =>
      match s.pc with
      | .idle =>
          { s with
            pc := .copy (txBuffer s.wptr) p.totLen [] p.payloads 0
            passed := s.passed ++ [p.payloads.flatten] }
      | _ => s
  | .driver => txDriver s
  | .nic => txNic s

def txRun (s : Tx) : List TxEvent → Tx
  | [] => s
  | e :: es => txRun (txStep s e) es

/-- `tx_init`, in any memory. -/
def txInit (m : Mem UInt8) (descr : Mem (BitVec 32)) : Tx where
  mem := m
  descr := descr.store 0 (txDescriptorNum * 4) fun a =>
    if a = (txDescriptorNum - 1) * 4 + 3 then swap32 0x80000000 else 0
  wptr := 0
  pc := .idle
  nic := 0
  passed := []
  sent := []

/-! ### Receiving -/

def rxBase : Nat := mem (0x2000000 + 0x8000)

/-- `rx_receive_base + i * MTU`. -/
def rxBuffer (i : Nat) : Nat := rxBase + rxDescriptorNum * 0x10 + i * mtu

/-- The words of a receive descriptor that waits for a frame. -/
def rxWord (i : Nat) : Nat → BitVec 32
  | 0 => swap32 0
  | 1 => swap32 0xc0000000
  | 2 => swap32 (virtToPhys (rxBuffer i))
  | _ => lengthWord i (BitVec.ofNat 32 mtu)

/-- What `pbuf_alloc` answers to a size: nothing, or a chain whose lengths add up to it. -/
structure Alloc where
  chain : Nat → Option (List Nat)
  sum_eq : ∀ size lens, chain size = some lens → lens.sum = size

/-- What a call of `enet_linkinput` that finds a frame comes to. -/
inductive Input where
  | returned (frame : List UInt8)
  | dropped
  deriving DecidableEq

/-- How far `enet_linkinput` is.  In `copy`, `n` bytes are left of the current `pbuf` and
`lens` are the lengths of those after it; `got` is what was copied so far. -/
inductive RxPc where
  | idle
  | check (alloc : Alloc)
  | size (alloc : Alloc)
  | copy (n : Nat) (lens : List Nat) (rptr : Nat) (got : List UInt8)
  | word2 (p : Input)
  | word3 (p : Input)
  | word0 (p : Input)
  | word1 (p : Input)
  | advance (p : Input)

/-- The driver's side of the ring, the chip's place in it, and what is in neither: the frames
stored, and what became of those that were taken out. -/
structure Rx where
  mem : Mem UInt8
  descr : Mem (BitVec 32)
  rptr : Nat
  pc : RxPc
  nic : Nat
  stored : List (List UInt8)
  out : List Input

/-- One access of `enet_linkinput`. -/
def rxDriver (s : Rx) : Rx :=
  let set (k : Nat) (w : BitVec 32) : Mem (BitVec 32) := Function.update s.descr (s.rptr * 4 + k) w
  match s.pc with
  | .idle => s
  | .check alloc =>
      if busy s.descr s.rptr then { s with pc := .idle } else { s with pc := .size alloc }
  | .size alloc =>
      match alloc.chain (swap32 (s.descr (s.rptr * 4 + 0)) &&& 0xFFFF).toNat with
      | none => { s with pc := .word2 .dropped }
      | some lens => { s with pc := .copy 0 lens 0 [] }
  | .copy (n + 1) lens rptr got =>
      { s with pc := .copy n lens (rptr + 1) (got ++ [s.mem (rxBuffer s.rptr + rptr)]) }
  | .copy 0 (len :: lens) rptr got => { s with pc := .copy len lens rptr got }
  | .copy 0 [] _ got => { s with pc := .word2 (.returned got) }
  -- the descriptor is reclaimed
  | .word2 p => { s with descr := set 2 (swap32 (virtToPhys (rxBuffer s.rptr))), pc := .word3 p }
  | .word3 p => { s with descr := set 3 (lengthWord s.rptr (BitVec.ofNat 32 mtu)), pc := .word0 p }
  | .word0 p => { s with descr := set 0 (swap32 0), pc := .word1 p }
  | .word1 p => { s with descr := set 1 (swap32 0xc0000000), pc := .advance p }
  | .advance p =>
      { s with rptr := (s.rptr + 1) % rxDescriptorNum, pc := .idle, out := s.out ++ [p] }

/-- The chip stores a frame in the buffer of its next descriptor, or drops it.  What it puts
into the upper half of word 0 is not known. -/
def rxNic (frame : List UInt8) (status : BitVec 16) (s : Rx) : Rx :=
  if busy s.descr s.nic then
    let data := swap32 (s.descr (s.nic * 4 + 2))
    { s with
      mem := s.mem.store (Enet.mem data.toNat) frame.length fun i => frame.getD i 0
      descr := Function.update
        (Function.update s.descr (s.nic * 4 + 0)
          (swap32 ((status ++ BitVec.ofNat 16 frame.length : BitVec 32))))
        (s.nic * 4 + 1) (release (s.descr (s.nic * 4 + 1)))
      nic := (s.nic + 1) % rxDescriptorNum
      stored := s.stored ++ [frame] }
  else s

/-- What can happen: the driver is asked for a frame, it goes on, a frame arrives. -/
inductive RxEvent where
  | linkinput (alloc : Alloc)
  | driver
  | nic (frame : List UInt8) (status : BitVec 16) (fits : frame.length ≤ mtu)

/-- `enet_linkinput` is not entered while it runs. -/
def rxStep (s : Rx) : RxEvent → Rx
  | .linkinput alloc =>
      match s.pc with
      | .idle => { s with pc := .check alloc }
      | _ => s
  | .driver => rxDriver s
  | .nic frame status _ => rxNic frame status s

def rxRun (s : Rx) : List RxEvent → Rx
  | [] => s
  | e :: es => rxRun (rxStep s e) es

/-- `rx_init`, in any memory. -/
def rxInit (m : Mem UInt8) (descr : Mem (BitVec 32)) : Rx where
  mem := m
  descr := descr.store 0 (rxDescriptorNum * 4) fun a => rxWord (a / 4) (a % 4)
  rptr := 0
  pc := .idle
  nic := 0
  stored := []
  out := []

end Xell.Enet
