/-
The IP layer: `ip_input` and `ip_output_if` of `lwip/core/ipv4/ip.c`, with
`ip_addr_isbroadcast` of `ip_addr.c` and `pbuf_realloc`.

A header is what lies in the memory from some address on.  `ip_input` ends in a call of the layer
above, and here it says which one, with the chain that it is handed.  Forwarding is not compiled
in, and there are no raw sockets.

`ip_id` is a local variable that is set to zero, so that every packet has the same one.
-/
import Xell.Lib.Word
import Xell.Inet

namespace Xell.Ip

open Word

def ipProtoIcmp : UInt16 := 1

def ipProtoTcp : UInt16 := 6

def ipProtoUdp : UInt16 := 17

def ipProtoUdplite : UInt16 := 170

/-- `IP_HLEN`. -/
def ipHlen : Nat := 20

def ipDf : UInt16 := 0x4000

def ipMf : UInt16 := 0x2000

def ipOffmask : UInt16 := 0x1fff

def dhcpClientPort : UInt16 := 68

/-- What the functions read of a `struct netif`. -/
structure Netif where
  ipAddr : UInt32
  netmask : UInt32
  mtu : UInt16
  up : Bool
  broadcast : Bool

/-! ### The header -/

section Header

variable (h : Nat) (mem : Mem UInt8)

def vHlTos : UInt16 := load16 mem h

def iphV : UInt16 := vHlTos h mem >>> 12

def iphHl : UInt16 := (vHlTos h mem >>> 8) &&& 0x0f

def iphLen : UInt16 := load16 mem (h + 2)

def iphId : UInt16 := load16 mem (h + 4)

def iphOffset : UInt16 := load16 mem (h + 6)

def ttlProto : UInt16 := load16 mem (h + 8)

def iphTtl : UInt16 := ttlProto h mem >>> 8

def iphProto : UInt16 := ttlProto h mem &&& 0xff

def src : UInt32 := load mem (h + 12)

def dest : UInt32 := load mem (h + 16)

/-- `IPH_TTL_SET`. -/
def iphTtlSet (ttl : UInt8) : Mem UInt8 :=
  store16 (h + 8) (iphProto h mem ||| (ttl.toUInt16 <<< 8)) mem

def iphProtoSet (proto : UInt16) : Mem UInt8 :=
  store16 (h + 8) (proto ||| (iphTtl h mem <<< 8)) mem

def iphVhltosSet (v hl : UInt16) (tos : UInt8) : Mem UInt8 :=
  store16 h ((v <<< 12) ||| (hl <<< 8) ||| tos.toUInt16) mem

def iphLenSet (len : UInt16) : Mem UInt8 := store16 (h + 2) len mem

def iphIdSet (id : UInt16) : Mem UInt8 := store16 (h + 4) id mem

def iphOffsetSet (off : UInt16) : Mem UInt8 := store16 (h + 6) off mem

def iphChksumSet (chksum : UInt16) : Mem UInt8 := store16 (h + 10) chksum mem

def srcSet (addr : UInt32) : Mem UInt8 := store (h + 12) addr mem

def destSet (addr : UInt32) : Mem UInt8 := store (h + 16) addr mem

end Header

/-! ### Addresses and interfaces -/

def isany (addr : UInt32) : Bool := addr = 0

def netcmp (a b mask : UInt32) : Bool := a &&& mask = b &&& mask

def ismulticast (addr : UInt32) : Bool := addr &&& (0xf0000000 : UInt32) = 0xe0000000

def ipAddrIsbroadcast (addr : UInt32) (netif : Netif) : Bool :=
  if addr = 0xffffffff || addr = 0 then true
  else if netif.broadcast = false then false
  else if addr = netif.ipAddr then false
  else netcmp addr netif.ipAddr netif.netmask &&
    (addr &&& ~~~netif.netmask) = ((0xffffffff : UInt32) &&& ~~~netif.netmask)

/-! ### Receiving -/

/-- The loop of `pbuf_realloc`; what is behind the new last `pbuf` is freed. -/
def reallocLoop (grow : UInt16) : List Pbuf → UInt16 → List Pbuf
  | [], _ => []
  | q :: qs, rem =>
      if rem > q.len then { q with totLen := q.totLen + grow } :: reallocLoop grow qs (rem - q.len)
      else [{ q with len := rem, totLen := rem }]

def pbufRealloc (p : List Pbuf) (newLen : UInt16) : List Pbuf :=
  match p with
  | [] => []
  | q :: qs => if newLen ≥ q.totLen then q :: qs else reallocLoop (newLen - q.totLen) (q :: qs) newLen

/-- How `ip_input` goes on with a packet. -/
inductive Verdict where
  | drop
  | reass (p : List Pbuf)
  | udp (p : List Pbuf)
  | tcp (p : List Pbuf)
  | icmp (p : List Pbuf)
  | unreach (p : List Pbuf)

/-- The end of `ip_input`: the layer above gets the packet. -/
def deliver (inp : Netif) (h : Nat) (mem : Mem UInt8) (p : List Pbuf) : Verdict :=
  if iphProto h mem = ipProtoUdp || iphProto h mem = ipProtoUdplite then .udp p
  else if iphProto h mem = ipProtoTcp then .tcp p
  else if iphProto h mem = ipProtoIcmp then .icmp p
  else if !ipAddrIsbroadcast (dest h mem) inp && !ismulticast (dest h mem) then .unreach p
  else .drop

/-- Is the packet for one of the interfaces, or for the DHCP client? -/
def forUs (netifs : List Netif) (h : Nat) (iphdrlen : Nat) (mem : Mem UInt8) : Bool :=
  (netifs.any fun netif => netif.up && !isany netif.ipAddr &&
    (dest h mem = netif.ipAddr || ipAddrIsbroadcast (dest h mem) netif)) ||
  (iphProto h mem = ipProtoUdp && load16 mem (h + iphdrlen + 2) = dhcpClientPort)

def ipInput (netifs : List Netif) (inp : Netif) (p : List Pbuf) (mem : Mem UInt8) : Verdict :=
  match p with
  | [] => .drop
  | q :: qs =>
      let h := q.payload
      let iphdrlen := iphHl h mem * 4
      if iphV h mem ≠ 4 then .drop
      else if iphdrlen > q.len then .drop
      else if Inet.inetChksum (mem.slice h iphdrlen.toNat) ≠ 0 then .drop
      else
        let p := pbufRealloc (q :: qs) (iphLen h mem)
        if !forUs netifs h iphdrlen.toNat mem then .drop
        else if (iphOffset h mem &&& (ipOffmask ||| ipMf)) ≠ 0 then .reass p
        else deliver inp h mem p

/-! ### Sending -/

/-- How `ip_output_if` ends: with `ERR_BUF`, in `ip_frag`, or in the interface's `output`. -/
inductive Sent where
  | errBuf
  | frag (p : List Pbuf) (mem : Mem UInt8) (dest : UInt32)
  | output (p : List Pbuf) (mem : Mem UInt8) (dest : UInt32)

/-- The header that `ip_output_if` builds at `h`. -/
def buildHeader (h : Nat) (totLen : UInt16) (src dest : UInt32) (ttl tos : UInt8) (proto : UInt16)
    (netif : Netif) (mem : Mem UInt8) : Mem UInt8 :=
  let mem := iphTtlSet h mem ttl
  let mem := iphProtoSet h mem proto
  let mem := destSet h mem dest
  let mem := iphVhltosSet h mem 4 5 tos
  let mem := iphLenSet h mem totLen
  let mem := iphOffsetSet h mem ipDf
  let mem := iphIdSet h mem 0
  let mem := srcSet h mem (if isany src then netif.ipAddr else src)
  let mem := iphChksumSet h mem 0
  iphChksumSet h mem (Inet.inetChksum (mem.slice h ipHlen))

/-- The end of `ip_output_if`. -/
def output (netif : Netif) (p : List Pbuf) (totLen : UInt16) (mem : Mem UInt8) (dest : UInt32) :
    Sent :=
  if netif.mtu ≠ 0 && totLen > netif.mtu then .frag p mem dest else .output p mem dest

/-- `ip_output_if`; no destination is `IP_HDRINCL`. -/
def ipOutputIf (p : List Pbuf) (srcAddr : UInt32) (destAddr : Option UInt32) (ttl tos : UInt8)
    (proto : UInt16) (netif : Netif) (mem : Mem UInt8) : Sent :=
  match p with
  | [] => .errBuf
  | q :: qs =>
      match destAddr with
      | some d =>
          match q.header (Int16.ofNat ipHlen) with
          | none => .errBuf
          | some q =>
              let mem := buildHeader q.payload q.totLen srcAddr d ttl tos proto netif mem
              output netif (q :: qs) q.totLen mem d
      | none => output netif (q :: qs) q.totLen mem (dest q.payload mem)

end Xell.Ip
