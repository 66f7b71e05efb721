/-
ICMP, from `lwip/core/ipv4/icmp.c`: the answers to echo requests.
-/
import Xell.Ip

namespace Xell.Icmp

open Word Ip

def icmpEr : UInt16 := 0

def icmpEcho : UInt16 := 8

section Header

variable (h : Nat) (mem : Mem UInt8)

def icmphCode : UInt16 := load16 mem h &&& 0xff

def chksum : UInt16 := load16 mem (h + 2)

def icmphTypeSet (type : UInt16) : Mem UInt8 := store16 h (icmphCode h mem ||| (type <<< 8)) mem

def chksumSet (w : UInt16) : Mem UInt8 := store16 (h + 2) w mem

end Header

/-- What `icmp_input` adds to the checksum of a request that becomes a reply. -/
def adjust (chksum : UInt16) : UInt16 :=
  if chksum ≥ (0xffff : UInt16) - (icmpEcho <<< 8) then chksum + ((icmpEcho <<< 8) + 1)
  else chksum + (icmpEcho <<< 8)

/-- The request at `e`, with its IP header at `h`, is turned round. -/
def turnRound (h e : Nat) (mem : Mem UInt8) : Mem UInt8 :=
  let tmpaddr := src h mem
  let mem := srcSet h mem (dest h mem)
  let mem := destSet h mem tmpaddr
  let mem := icmphTypeSet e mem icmpEr
  chksumSet e mem (adjust (chksum e mem))

/-- `icmp_input`: the packet that is sent back, or nothing. -/
def icmpInput (inp : Netif) (p : List Pbuf) (mem : Mem UInt8) : Option (List Pbuf × Mem UInt8) :=
  match p with
  | [] => none
  | q :: qs =>
      let h := q.payload
      let hlen := Int16.ofNat (iphHl h mem * 4).toNat
      match q.header (-hlen) with
      | none => none
      | some q =>
          if q.totLen < 4 then none
          else if (mem q.payload).toUInt16 ≠ icmpEcho then none
          else if ipAddrIsbroadcast (dest h mem) inp || ismulticast (dest h mem) then none
          else if q.totLen < 8 then none
          else if Inet.inetChksumPbuf mem (q :: qs) ≠ 0 then none
          else
            let mem := turnRound h q.payload mem
            some ((q.header hlen).getD q :: qs, mem)

end Xell.Icmp
