/-
The TFTP client of `tftp.c`.

`do_tftp` is a loop around `network_poll`, and `tftp_recv` is called back from inside it,
once for every datagram that has arrived; all they share is a handful of statics.  One
turn of the loop is `body`, everything before `network_poll`, and then `poll`.

What the loop takes from outside is the argument `Iteration`: whether more than 500 ms
have passed since the clock `start` was last set, whether `pbuf_alloc` finds memory, and
the datagrams of that poll.  The two clocks themselves serve nothing else and are left
out.  Signed overflow is undefined in C, and the counters here are unbounded.
-/
import Xell.Lib.Mem

namespace Xell.Tftp

/-- `LOADER_RAW`, the `target` of the one call of `do_tftp`. -/
def loaderRaw : Nat := 0x8000000004000000

/-- `LOADER_MAXSIZE`, the `maxlen` of the one call of `do_tftp`. -/
def loaderMaxsize : Nat := 0x1000000

/-! ### Datagrams -/

/-- A received `pbuf`: `len` bytes at `payload`, and what the others of its chain hold.  What lies
behind the `len` bytes is anybody's guess. -/
structure Pbuf where
  payload : Mem UInt8
  len : Nat
  next : List UInt8 := []

def Pbuf.totLen (p : Pbuf) : Nat := p.len + p.next.length

/-- The datagram. -/
def Pbuf.data (p : Pbuf) : List UInt8 := p.payload.slice 0 p.len ++ p.next

/-- Two bytes in network order. -/
def be16 (hi lo : UInt8) : Nat := hi.toNat <<< 8 ||| lo.toNat

/-- An address and a port. -/
structure Endpoint where
  addr : UInt32
  port : UInt16
  deriving DecidableEq

/-- A datagram the client sends. -/
structure Sent where
  dest : Option Endpoint
  bytes : List UInt8
  deriving DecidableEq

/-- Opcode 1, the name of the file, and the mode `octet`. -/
def rrqPacket (file : List UInt8) : List UInt8 :=
  [0, 1] ++ file ++ [0] ++ [0x6f, 0x63, 0x74, 0x65, 0x74, 0]

/-- Opcode 4 and the number of a block, of which 16 bits are kept. -/
def ackPacket (block : Nat) : List UInt8 :=
  [0, 4, UInt8.ofNat (block >>> 8), UInt8.ofNat (block &&& 0xff)]

/-! ### The statics -/

/-- `TFTP_STATE_RRQ_SEND`, `TFTP_STATE_ACK_SEND` and `TFTP_STATE_FINISH`. -/
inductive TftpState where
  | rrqSend
  | ackSend
  | finish
  deriving DecidableEq

/-- The statics of `tftp.c`, the memory they point into, and the peer the pcb is connected to. -/
structure Statics where
  tftpState : TftpState
  tftpResult : Int
  maxtries : Nat
  tries : Nat
  currentBlock : Nat
  send : Bool
  lastSize : Int
  ptr : Int
  base : Nat
  imageMaxlen : Int
  remote : Option Endpoint
  mem : Mem UInt8

/-! ### Receiving -/

/-- An `int` passed for a `size_t`. -/
def sizeOfInt (i : Int) : Nat := (i % 2 ^ 64).toNat

/-- The copy of a block to where the next one belongs, unless that is past the end. -/
def copyBlock (p : Pbuf) (pl : Int) (s : Statics) : Statics :=
  if s.ptr + pl ≤ s.imageMaxlen then
    { s with
      mem := s.mem.store (s.base + s.ptr).toNat (sizeOfInt pl) fun i => p.payload (4 + i) }
  else s

/-- `case 3` of `tftp_recv`. -/
def recvData (p : Pbuf) (s : Statics) : Statics :=
  let thisBlock := be16 (p.payload 2) (p.payload 3)
  let pl : Int := p.totLen - 4
  if thisBlock = s.currentBlock + 1 then
    let s' := { copyBlock p pl s with currentBlock := s.currentBlock + 1, ptr := s.ptr + pl }
    -- the end is a block shorter than the one seen before it
    if pl < s.lastSize then { s' with tftpResult := 0, tftpState := .finish }
    else { s' with lastSize := pl, send := true }
  else if thisBlock = s.currentBlock then s
  else { s with lastSize := pl, send := true }

/-- The `switch` of `tftp_recv`, and the test before it. -/
def dispatch (p : Pbuf) (s : Statics) : Statics :=
  let s' := if p.totLen < 2 then { s with tftpState := .finish, tftpResult := -1 } else s
  match be16 (p.payload 0) (p.payload 1) with
  | 3 => recvData p s'
  | 5 => { s' with tftpState := .finish, tftpResult := -2 }
  | _ => s'

/-- The first answer fixes the server's port. -/
def connect (sender : Endpoint) (s : Statics) : Statics :=
  if s.tftpState = .rrqSend then { s with remote := some sender, tftpState := .ackSend } else s

def tftpRecv (p : Pbuf) (sender : Endpoint) (s : Statics) : Statics :=
  { connect sender (dispatch p s) with tries := 0 }

/-- `network_poll`, as far as this client is concerned. -/
def poll (arrived : List (Pbuf × Endpoint)) (s : Statics) : Statics :=
  arrived.foldl (fun s d => tftpRecv d.1 d.2 s) s

/-! ### The loop -/

/-- What one turn of the loop meets with. -/
structure Iteration where
  late : Bool
  alloc : Bool
  arrived : List (Pbuf × Endpoint)

/-- The timeout: the statics, and whether the loop is left. -/
def timeout (s : Statics) : Statics × Bool :=
  -- an answer that brought no block leaves the request to be made again
  let state := if s.tftpState ≠ .rrqSend ∧ s.currentBlock = 0 then .rrqSend else s.tftpState
  let s₁ := { s with tftpState := state, tries := s.tries + 1 }
  let s₂ := if s.maxtries / 2 ≤ s.tries + 1 then
      { s₁ with tftpState := .rrqSend, currentBlock := 0, lastSize := 0 }
    else s₁
  if s.maxtries ≤ s.tries + 1 then ({ s₂ with tftpResult := -2 }, true)
  else ({ s₂ with send := true }, false)

/-- The `if (send)` of the loop.  Without memory for the datagram, `send` stays set. -/
def transmit (file : List UInt8) (server : UInt32) (alloc : Bool) (s : Statics) :
    Statics × List Sent :=
  if s.send = false then (s, [])
  else match s.tftpState with
    | .rrqSend =>
        if alloc = false then (s, [])
        else ({ s with send := false }, [⟨some ⟨server, 69⟩, rrqPacket file⟩])
    | .ackSend =>
        if alloc = false then (s, [])
        else ({ s with send := false }, [⟨s.remote, ackPacket s.currentBlock⟩])
    | .finish => ({ s with tftpState := .finish }, [])

/-- What a turn of the loop has done when it comes to `network_poll`, or is left before. -/
structure Turn where
  st : Statics
  sent : List Sent
  left : Bool

def body (file : List UInt8) (server : UInt32) (late alloc : Bool) (s : Statics) : Turn :=
  let t := if late then timeout s else (s, false)
  if t.2 then ⟨t.1, [], true⟩
  else
    let r := transmit file server alloc t.1
    ⟨r.1, r.2, false⟩

/-- The loop, over the turns given: what was sent, and the statics if it came to its end. -/
def doTftpLoop (file : List UInt8) (server : UInt32) :
    List Iteration → Statics → List Sent × Option Statics
  | [], s => ([], if s.tftpState = .finish then some s else none)
  | it :: its, s =>
      if s.tftpState = .finish then ([], some s)
      else
        let t := body file server it.late it.alloc s
        if t.left then (t.sent, some t.st)
        else
          let r := doTftpLoop file server its (poll it.arrived t.st)
          (t.sent ++ r.1, r.2)

/-- The statics as the loop is entered.  `ptr` and `tftp_result` keep what they had. -/
def enter (target : Nat) (maxlen : Int) (s : Statics) : Statics :=
  { s with
    base := target
    imageMaxlen := maxlen
    remote := none
    tftpState := .rrqSend
    currentBlock := 0
    lastSize := 0
    send := true
    maxtries := 10
    tries := 0 }

/-- `do_tftp`: its result and the statics it leaves, if it returns; `pcb` tells whether
`udp_new` found memory. -/
def doTftp (target : Nat) (maxlen : Int) (server : UInt32) (file : List UInt8) (pcb : Bool)
    (its : List Iteration) (s : Statics) : Option (Int × Statics) :=
  if pcb = false then some (-1, { s with base := target, imageMaxlen := maxlen })
  else
    (doTftpLoop file server its (enter target maxlen s)).2.map fun s' =>
      (if s'.tftpResult < 0 then s'.tftpResult else s'.ptr, s')

/-! ### Booting -/

/-- How `boot_tftp` ends: by a `return`, or in `execute_elf_at(LOADER_RAW, len, args)`. -/
inductive TftpBoot where
  | returned (res : Int) (st : Statics)
  | executeElfAt (len : Int) (args : Option (List UInt8)) (st : Statics)

/-- `boot_tftp`, with the address that `inet_aton` made of the server's name; zero where it made
none.  The name of the file ends at the first space, and the rest are arguments. -/
def bootTftp (serverAddress : UInt32) (tftpBootfile : List UInt8) (pcb : Bool)
    (its : List Iteration) (s : Statics) : Option TftpBoot :=
  let file := tftpBootfile.takeWhile (· != 0x20)
  let args := if 0x20 ∈ tftpBootfile then some (tftpBootfile.dropWhile (· != 0x20)).tail else none
  if serverAddress = 0 then some (.returned (-1) s)
  else if file = [] then some (.returned (-1) s)
  else
    (doTftp loaderRaw loaderMaxsize serverAddress file pcb its s).map fun r =>
      if r.1 < 0 then .returned r.1 r.2 else .executeElfAt r.1 args r.2

end Xell.Tftp
