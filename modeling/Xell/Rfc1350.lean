/-
The other end of a transfer: a file in blocks, and a server that sends them in lock-step.

This is not translated from the repository.  It says what RFC 1350 makes of a server, as
far as the properties of the client need it: block `k` of a file holds its bytes from
`512 * (k - 1)` on, 512 of them or, in the last block, fewer; the last block is always
sent, even when it is empty; and the server goes on from block `k` only when block `k`
has been acknowledged.
-/
import Xell.Tftp

namespace Xell.Tftp

/-- The number of blocks of a file. -/
def blocks (F : List UInt8) : Nat := F.length / 512 + 1

/-- Block `k`, counted from 1. -/
def block (F : List UInt8) (k : Nat) : List UInt8 := (F.drop (512 * (k - 1))).take 512

/-- The number in a DATA or ACK packet: 16 bits, in network order. -/
def numberBytes (k : Nat) : List UInt8 := [UInt8.ofNat (k >>> 8), UInt8.ofNat (k &&& 0xff)]

/-- The DATA packet of block `k`. -/
def dataPacket (F : List UInt8) (k : Nat) : List UInt8 := [0, 3] ++ numberBytes k ++ block F k

/-- The number of the block an ACK packet acknowledges. -/
def ackNumber : List UInt8 → Option Nat
  | [0, 4, hi, lo] => some (be16 hi lo)
  | _ => none

def isRrq : List UInt8 → Bool
  | 0 :: 1 :: _ => true
  | _ => false

/-- The server's reaction to a packet, while it is sending block `b`, or waiting for a request
if `b` is 0: the block it is sending now, and its answer. -/
def serve (F : List UInt8) (packet : List UInt8) (b : Nat) : Nat × List (List UInt8) :=
  if b = 0 then if isRrq packet then (1, [dataPacket F 1]) else (b, [])
  else if ackNumber packet = some b ∧ b < blocks F then (b + 1, [dataPacket F (b + 1)])
  else (b, [])

/-- What `tftp_recv` reads of a `pbuf`: as many bytes as its chain has, from the first one on. -/
def Pbuf.bytes (p : Pbuf) : List UInt8 := p.payload.slice 0 p.totLen

/-- The `pbuf` carries some block of `F`. -/
def Genuine (F : List UInt8) (p : Pbuf) : Prop :=
  ∃ k, 1 ≤ k ∧ k ≤ blocks F ∧ p.bytes = dataPacket F k

/-- A file a server can send to this client: block numbers have 16 bits, and the file fits. -/
structure Servable (F : List UInt8) (maxlen : Int) : Prop where
  fits : (F.length : Int) ≤ maxlen
  numbered : blocks F ≤ 65535

end Xell.Tftp
