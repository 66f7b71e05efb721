/-
UDP, from `lwip/core/udp.c`: the list of control blocks, `udp_input` and `udp_send`.

A control block is known by its address, and `udp_pcbs` is the list of the addresses in it.  What
`memp_malloc`, `pbuf_alloc` and `ip_route` answer is given.

In the loop of `udp_input` a control block whose remote end fits is taken as soon as some control
block before it, or itself, had a local end that fits: `local_match` is never cleared.
-/
import Xell.Ip

namespace Xell.Udp

open Word Ip

def udpHlen : Nat := 8

def udpTtl : UInt8 := 255

def udpLocalPortRangeStart : UInt16 := 4096

def udpLocalPortRangeEnd : UInt16 := 0x7fff

/-- A `struct udp_pcb`; `recv` says whether there is a callback. -/
structure UdpPcb where
  localIp : UInt32
  remoteIp : UInt32
  localPort : UInt16
  remotePort : UInt16
  nochksum : Bool
  udplite : Bool
  connected : Bool
  chksumLen : UInt16
  ttl : UInt8
  tos : UInt8
  recv : Bool

/-- The control blocks, and `udp_pcbs`. -/
structure Pcbs where
  pcb : Nat → UdpPcb
  udpPcbs : List Nat

def Pcbs.set (st : Pcbs) (i : Nat) (pcb : UdpPcb) : Pcbs :=
  { st with pcb := Function.update st.pcb i pcb }

inductive Err where
  | ok
  | use
  | rte
  | mem
deriving DecidableEq

/-! ### Control blocks -/

/-- `udp_new`, with what `memp_malloc` answers. -/
def udpNew (i : Nat) (st : Pcbs) : Pcbs :=
  st.set i ⟨0, 0, 0, 0, false, false, false, 0, udpTtl, 0, false⟩

/-- The loop of `udp_bind` that looks for a free port: at `rest`, with the candidate `port`. -/
def portLoop (st : Pcbs) (port : UInt16) : List Nat → Option UInt16
  | [] => some port
  | i :: rest =>
      if _h : port = udpLocalPortRangeEnd then none
      else if (st.pcb i).localPort = port then portLoop st (port + 1) st.udpPcbs
      else portLoop st port rest
termination_by rest => ((udpLocalPortRangeEnd - port).toNat, rest.length)
decreasing_by
  · refine Prod.Lex.left _ _ ?_
    have hne : (udpLocalPortRangeEnd - port).toNat ≠ 0 := by
      intro hz
      have hsub : udpLocalPortRangeEnd - port = 0 := UInt16.toNat.inj hz
      exact _h (by rw [← UInt16.sub_add_cancel udpLocalPortRangeEnd port, hsub, UInt16.zero_add])
    have hlt := (udpLocalPortRangeEnd - port).toNat_lt
    rw [UInt16.toNat_sub] at *
    rw [UInt16.toNat_sub, UInt16.toNat_add]
    have hport := port.toNat_lt
    have hend : udpLocalPortRangeEnd.toNat = 0x7fff := rfl
    have hone : (1 : UInt16).toNat = 1 := rfl
    omega
  · refine Prod.Lex.right _ ?_
    exact Nat.lt_succ_self _

/-- The port that `udp_bind` goes on with. -/
def choosePort (port : UInt16) (st : Pcbs) : Option UInt16 :=
  if port = 0 then portLoop st udpLocalPortRangeStart st.udpPcbs else some port

/-- A control block is placed on the list if it is not already there. -/
def Pcbs.enlist (st : Pcbs) (i : Nat) : Pcbs :=
  if i ∈ st.udpPcbs then st else { st with udpPcbs := i :: st.udpPcbs }

/-- `udp_bind`.  The address is set before the port is looked for. -/
def udpBind (i : Nat) (ipaddr : UInt32) (port : UInt16) (st : Pcbs) : Err × Pcbs :=
  let st := st.set i { st.pcb i with localIp := ipaddr }
  match choosePort port st with
  | none => (.use, st)
  | some port => (.ok, (st.set i { st.pcb i with localPort := port }).enlist i)

/-- The beginning of `udp_connect` and of `udp_send`: a control block without a port is bound. -/
def ensureBound (i : Nat) (st : Pcbs) : Err × Pcbs :=
  if (st.pcb i).localPort = 0 then udpBind i (st.pcb i).localIp 0 st else (.ok, st)

/-- `udp_connect`. -/
def udpConnect (i : Nat) (ipaddr : UInt32) (port : UInt16) (st : Pcbs) : Err × Pcbs :=
  match ensureBound i st with
  | (.ok, st) =>
      let st := st.set i { st.pcb i with remoteIp := ipaddr, remotePort := port, connected := true }
      (.ok, st.enlist i)
  | failed => failed

def udpDisconnect (i : Nat) (st : Pcbs) : Pcbs :=
  st.set i { st.pcb i with remoteIp := 0, remotePort := 0, connected := false }

def udpRecv (i : Nat) (recv : Bool) (st : Pcbs) : Pcbs := st.set i { st.pcb i with recv := recv }

/-- `udp_remove`. -/
def udpRemove (i : Nat) (st : Pcbs) : Pcbs := { st with udpPcbs := st.udpPcbs.erase i }

/-! ### Receiving -/

section Header

variable (u : Nat) (mem : Mem UInt8)

def srcPort : UInt16 := load16 mem u

def destPort : UInt16 := load16 mem (u + 2)

def len : UInt16 := load16 mem (u + 4)

def chksum : UInt16 := load16 mem (u + 6)

end Header

/-- Where a datagram comes from and where it goes to. -/
structure Ends where
  srcIp : UInt32
  destIp : UInt32
  srcPort : UInt16
  destPort : UInt16

/-- The local end fits. -/
def UdpPcb.localFits (pcb : UdpPcb) (e : Ends) : Bool :=
  pcb.localPort = e.destPort && (isany pcb.localIp || pcb.localIp = e.destIp)

/-- The remote end fits. -/
def UdpPcb.remoteFits (pcb : UdpPcb) (e : Ends) : Bool :=
  pcb.remotePort = e.srcPort && (isany pcb.remoteIp || pcb.remoteIp = e.srcIp)

/-- The loop of `udp_input`, with `local_match` and `uncon_pcb`. -/
def demuxLoop (pcb : Nat → UdpPcb) (e : Ends) : List Nat → Bool → Option Nat → Option Nat
  | [], _, uncon => uncon
  | i :: rest, localMatch, uncon =>
      let fits := (pcb i).localFits e
      let localMatch := localMatch || fits
      let uncon := if fits && uncon = none && !(pcb i).connected then some i else uncon
      if localMatch && (pcb i).remoteFits e then some i else demuxLoop pcb e rest localMatch uncon

def demux (st : Pcbs) (e : Ends) : Option Nat := demuxLoop st.pcb e st.udpPcbs false none

/-- How `udp_input` ends. -/
inductive Verdict where
  | drop
  | recv (i : Nat) (p : List Pbuf) (addr : UInt32) (port : UInt16)
  | noCallback (i : Nat)
  | unreach (p : List Pbuf)

/-- Is the checksum of the datagram wrong? -/
def chkerr (h u : Nat) (p : List Pbuf) (totLen : UInt16) (mem : Mem UInt8) : Bool :=
  if iphProto h mem = ipProtoUdplite then
    Inet.inetChksumPseudo mem p (src h mem) (dest h mem) ipProtoUdplite.toUInt8 (len u mem) ≠ 0
  else
    chksum u mem ≠ 0 &&
      Inet.inetChksumPseudo mem p (src h mem) (dest h mem) ipProtoUdp.toUInt8 totLen ≠ 0

def udpInput (st : Pcbs) (inp : Netif) (p : List Pbuf) (mem : Mem UInt8) : Verdict :=
  match p with
  | [] => .drop
  | q :: qs =>
      let h := q.payload
      match q.header (-Int16.ofNat (udpHlen + (iphHl h mem * 4).toNat)) with
      | none => .drop
      | some q =>
          let u := q.payload - udpHlen
          let e : Ends := ⟨src h mem, dest h mem, srcPort u mem, destPort u mem⟩
          let pcb := demux st e
          if pcb = none && inp.ipAddr ≠ dest h mem then .drop
          else
            let q := (q.header (Int16.ofNat udpHlen)).getD q
            if chkerr h u (q :: qs) q.totLen mem then .drop
            else
              let q := (q.header (-Int16.ofNat udpHlen)).getD q
              match pcb with
              | some i => if (st.pcb i).recv then .recv i (q :: qs) e.srcIp e.srcPort else .noCallback i
              | none =>
                  if !ipAddrIsbroadcast (dest h mem) inp && !ismulticast (dest h mem) then
                    .unreach ({ q with payload := h } :: qs)
                  else .drop

/-! ### Sending -/

/-- The header that `udp_send` builds at `u`, for the chain `q`. -/
def buildHeader (pcb : UdpPcb) (srcIp : UInt32) (u : Nat) (q : List Pbuf) (totLen : UInt16)
    (mem : Mem UInt8) : Mem UInt8 :=
  let mem := store16 u pcb.localPort mem
  let mem := store16 (u + 2) pcb.remotePort mem
  let mem := store16 (u + 6) 0 mem
  let length := if pcb.udplite then pcb.chksumLen else totLen
  let mem := store16 (u + 4) length mem
  if pcb.udplite || !pcb.nochksum then
    let sum := Inet.inetChksumPseudo mem q srcIp pcb.remoteIp ipProtoUdp.toUInt8 length
    store16 (u + 6) (if sum = 0 then 0xffff else sum) mem
  else mem

/-- `udp_send`: the error, the control blocks, and how `ip_output_if` ended, whose error is the one
that is returned then.  The header goes in front of the data, or into a `pbuf` of its own. -/
def udpSend (netif : Option Netif) (alloc : Option Pbuf) (i : Nat) (p : List Pbuf) (st : Pcbs)
    (mem : Mem UInt8) : Err × Pcbs × Option Sent :=
  match ensureBound i st with
  | (.ok, st) =>
      match netif, p with
      | none, _ => (.rte, st, none)
      | _, [] => (.mem, st, none)
      | some netif, r :: rs =>
          let chain := match r.header (Int16.ofNat udpHlen) with
            | some r => some (r :: rs)
            | none => alloc.map fun q : Pbuf =>
                ({ q with totLen := q.totLen + r.totLen } : Pbuf) :: r :: rs
          match chain with
          | none | some [] => (.mem, st, none)
          | some (q :: qs) =>
              let pcb := st.pcb i
              let srcIp := if isany pcb.localIp then netif.ipAddr else pcb.localIp
              let mem := buildHeader pcb srcIp q.payload (q :: qs) q.totLen mem
              let proto := if pcb.udplite then ipProtoUdplite else ipProtoUdp
              (.ok, st, some
                (ipOutputIf (q :: qs) srcIp (some pcb.remoteIp) pcb.ttl pcb.tos proto netif mem))
  | (err, st) => (err, st, none)

/-- `udp_sendto`: the remote end is another one for as long as `udp_send` runs. -/
def udpSendto (netif : Option Netif) (alloc : Option Pbuf) (i : Nat) (p : List Pbuf) (dstIp : UInt32)
    (dstPort : UInt16) (st : Pcbs) (mem : Mem UInt8) : Err × Pcbs × Option Sent :=
  let pcb := st.pcb i
  let st := st.set i { pcb with remoteIp := dstIp, remotePort := dstPort }
  let (err, st, sent) := udpSend netif alloc i p st mem
  (err, st.set i { st.pcb i with remoteIp := pcb.remoteIp, remotePort := pcb.remotePort }, sent)

end Xell.Udp
