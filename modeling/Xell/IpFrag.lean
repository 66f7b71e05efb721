/-
Fragments: `ip_frag` and `ip_reass` of `lwip/core/ipv4/ip_frag.c`.

There is one reassembly buffer.  It belongs to a datagram from the first fragment on that finds
`ip_reasstmr` at zero, until the datagram is complete, or a fragment does not fit into the buffer.
`ip_reass_tmr`, which would end it otherwise, is called by `tcpip.c` only, which is not used here.

A fragment that is shorter than its header says makes `copy_from_pbuf` follow the null pointer at
the end of the chain, which gives nothing here.  Neither does an `LWIP_ASSERT` that fails: it prints
its line and never returns.  One of them does fail for datagrams of less than 64 bytes.
-/
import Xell.Ip

namespace Xell.IpFrag

open Ip

/-- The loop of `copy_from_pbuf`: the bytes, the `pbuf` that it ends in, and the new offset. -/
def copyLoop (mem : Mem UInt8) : List Pbuf → UInt16 → Option (List UInt8 × List Pbuf × UInt16)
  | [], _ => none
  | q :: qs, len =>
      let l := if len < q.len then len else q.len
      let copied := mem.slice q.payload l.toNat
      if len - l ≠ 0 then (copyLoop mem qs (len - l)).map fun r => (copied ++ r.1, r.2)
      else some (copied, q :: qs, l)

/-- `copy_from_pbuf`. -/
def copyFromPbuf (mem : Mem UInt8) (p : List Pbuf) (offset len : UInt16) :
    Option (List UInt8 × List Pbuf × UInt16) :=
  match p with
  | [] => none
  | q :: qs =>
      let q := { q with payload := q.payload + offset.toNat, len := q.len - offset }
      if len = 0 then some ([], q :: qs, offset) else copyLoop mem (q :: qs) len

/-! ### Reassembly -/

/-- `LWIP_ASSERT`. -/
def lwipAssert (y : Bool) : Option Unit := if y then some () else none

def ipReassBufsize : Nat := 5760

def ipReassMaxage : UInt8 := 30

/-- `sizeof(ip_reassbitmap)`. -/
def bitmapSize : Nat := ipReassBufsize / (8 * 8) + 1

/-- `bitmap_bits`. -/
def bitmapBits (k : Nat) : UInt8 := [0xff, 0x7f, 0x3f, 0x1f, 0x0f, 0x07, 0x03, 0x01].getD k 0

/-- The reassembly buffer and what is known of it. -/
structure Reass where
  reassbuf : Mem UInt8
  bitmap : Mem UInt8
  reasslen : UInt16
  lastfrag : Bool
  tmr : UInt8

/-- A new datagram: the header of its first fragment is kept. -/
def startReass (h : Nat) (mem : Mem UInt8) (st : Reass) : Reass :=
  { st with
    reassbuf := st.reassbuf.store 0 ipHlen fun k => mem (h + k)
    tmr := ipReassMaxage
    lastfrag := false
    bitmap := st.bitmap.store 0 bitmapSize fun _ => 0 }

/-- Does the fragment at `h` belong to the datagram in the buffer? -/
def sameDatagram (h : Nat) (mem : Mem UInt8) (st : Reass) : Bool :=
  src 0 st.reassbuf = src h mem && dest 0 st.reassbuf = dest h mem &&
    iphId 0 st.reassbuf = iphId h mem

/-- `ip_reassbitmap[i] |= bits`. -/
def orByte (i : Nat) (bits : UInt8) (bitmap : Mem UInt8) : Mem UInt8 :=
  bitmap.store i 1 fun _ => bitmap i ||| bits

/-- The bits of the units from `offset` to `last` are set. -/
def updateBitmap (offset last : Nat) (bitmap : Mem UInt8) : Mem UInt8 :=
  if offset / (8 * 8) = last / (8 * 8) then
    orByte (offset / (8 * 8)) (bitmapBits (offset / 8 % 8) &&& ~~~bitmapBits (last / 8 % 8)) bitmap
  else
    let bitmap := orByte (offset / (8 * 8)) (bitmapBits (offset / 8 % 8)) bitmap
    let bitmap := bitmap.store (1 + offset / (8 * 8)) (last / (8 * 8) - (1 + offset / (8 * 8)))
      fun _ => 0xff
    orByte (last / (8 * 8)) (~~~bitmapBits (last / 8 % 8)) bitmap

/-- Are all bytes of the bitmap as they should be?  Those before the last are tested up to the one
before the last but one. -/
def complete (len : Nat) (bitmap : Mem UInt8) : Bool :=
  (List.range (len / (8 * 8) - 1)).all (fun i => bitmap i = 0xff) &&
    bitmap (len / (8 * 8)) = ~~~bitmapBits (len / 8 % 8)

/-- The header of the datagram that was put together. -/
def finishHeader (reasslen : UInt16) (buf : Mem UInt8) : Mem UInt8 :=
  let buf := iphLenSet 0 buf reasslen
  let buf := iphOffsetSet 0 buf 0
  let buf := iphChksumSet 0 buf 0
  iphChksumSet 0 buf (Inet.inetChksum (buf.slice 0 ipHlen))

/-- The asserts on the bytes of the bitmap that a fragment is entered in. -/
def assertBytes (offset last : Nat) : Option Unit := do
  lwipAssert (offset / (8 * 8) < bitmapSize)
  lwipAssert (last / (8 * 8) < bitmapSize)

/-- The asserts before the bitmap is tested.  The first of them compares an `int` with a `size_t`, for
which -1 is a large number. -/
def assertLen (reasslen : Nat) : Option Unit := do
  lwipAssert (((reasslen / (8 * 8) : Nat) - 1 : Int) % 2 ^ 64 < bitmapSize)
  lwipAssert (reasslen / (8 * 8) < bitmapSize)

/-- What is left to do with a fragment that fits. -/
def addFragment (offset len : Nat) (mf : Bool) (data : List UInt8) (st : Reass) :
    Option (Option (List UInt8) × Reass) := do
  assertBytes offset (offset + len)
  let st := { st with
    reassbuf := st.reassbuf.store (ipHlen + offset) len fun k => data.getD k 0
    bitmap := updateBitmap offset (offset + len) st.bitmap }
  let st := if mf then st else
    { st with lastfrag := true, reasslen := UInt16.ofNat (offset + len) }
  if st.lastfrag then
    assertLen st.reasslen.toNat
    if complete st.reasslen.toNat st.bitmap then
      let reasslen := st.reasslen + UInt16.ofNat ipHlen
      let st := { st with
        reasslen := reasslen, reassbuf := finishHeader reasslen st.reassbuf, tmr := 0 }
      some (some (st.reassbuf.slice 0 reasslen.toNat), st)
    else some (none, st)
  else some (none, st)

/-- `ip_reass`: the datagram that is complete now, if there is one, and the buffer.  The datagram is
copied into new `pbuf`s, if there are any. -/
def ipReass (p : List Pbuf) (mem : Mem UInt8) (st : Reass) : Option (Option (List UInt8) × Reass) :=
  match p with
  | [] => none
  | q :: qs =>
      let h := q.payload
      let st := if st.tmr = 0 then startReass h mem st else st
      if !sameDatagram h mem st then some (none, st)
      else
        let len := iphLen h mem - iphHl h mem * 4
        let offset := (iphOffset h mem &&& ipOffmask) * 8
        if offset.toNat > ipReassBufsize || offset.toNat + len.toNat > ipReassBufsize then
          some (none, { st with tmr := 0 })
        else
          (copyFromPbuf mem (q :: qs) (iphHl h mem * 4) len).bind fun r =>
            addFragment offset.toNat len.toNat ((iphOffset h mem &&& ipMf) ≠ 0) r.1 st

/-! ### Fragmentation -/

/-- The header of a fragment in `buf`. -/
def fragHeader (cop : UInt16) (buf : Mem UInt8) : Mem UInt8 :=
  let buf := iphLenSet 0 buf (cop + UInt16.ofNat ipHlen)
  let buf := iphChksumSet 0 buf 0
  iphChksumSet 0 buf (Inet.inetChksum (buf.slice 0 ipHlen))

/-- `MAX_MTU`, the size of `buf`. -/
def maxMtu : Nat := 1500

/-- How `ip_frag` ends: with `ERR_OK` or `ERR_MEM`; never, which is so if `mtu` leaves no room for
eight bytes, or the chain is shorter than `tot_len`; or with a fragment that goes past the end of
`buf`, and then nothing is known of what follows. -/
inductive FragEnd where
  | ok
  | mem
  | never
  | past
deriving DecidableEq

/-- The loop of `ip_frag`: the bytes of the `pbuf`s that the interface is given, and the end.  `alloc`
says whether there is a `pbuf` for the link header of the next fragment. -/
def fragLoop (mem : Mem UInt8) (mtu : UInt16) (omf : UInt16) (alloc : Nat → Bool) (p : List Pbuf)
    (poff ofo nfb left : UInt16) (buf : Mem UInt8) (k : Nat) : List (List UInt8) × FragEnd :=
  if _h : left = 0 then ([], .ok)
  else
    let last : Bool := left.toNat + ipHlen ≤ mtu.toNat
    let ofo := ofo + nfb
    let tmp := omf ||| (ipOffmask &&& ofo)
    let tmp := if last then tmp else tmp ||| ipMf
    let buf := iphOffsetSet 0 buf tmp
    let nfb := UInt16.ofInt ((mtu.toNat - ipHlen : Int).tdiv 8)
    let cop := if last then left else nfb * 8
    match copyFromPbuf mem p poff cop with
    | none => ([], .never)
    | some (data, p, poff) =>
        let buf := buf.store ipHlen cop.toNat fun i => data.getD i 0
        let buf := fragHeader cop buf
        let len := if last then left + UInt16.ofNat ipHlen else mtu
        if maxMtu < ipHlen + cop.toNat then ([], .past)
        else if alloc k then
          if _hc : cop = 0 then ([], .never)
          else if _hl : cop.toNat ≤ left.toNat then
            let r := fragLoop mem mtu omf alloc p poff ofo nfb (left - cop) buf (k + 1)
            (buf.slice 0 len.toNat :: r.1, r.2)
          else ([], .never)
        else ([], .mem)
termination_by left.toNat
decreasing_by
  have hcop : cop.toNat ≠ 0 := fun h => _hc (UInt16.toNat.inj h)
  rw [UInt16.toNat_sub_of_le _ _ (UInt16.le_iff_toNat_le.mpr _hl)]
  omega

/-- `ip_frag`, with what is in the static buffer and whether there are `pbuf`s. -/
def ipFrag (mem : Mem UInt8) (mtu : UInt16) (rambuf : Bool) (alloc : Nat → Bool) (p : List Pbuf)
    (buf : Mem UInt8) : List (List UInt8) × FragEnd :=
  match p with
  | [] => ([], .never)
  | q :: qs =>
      if rambuf then
        let buf := buf.store 0 ipHlen fun k => mem (q.payload + k)
        let tmp := iphOffset 0 buf
        fragLoop mem mtu (tmp &&& ipMf) alloc (q :: qs) (UInt16.ofNat ipHlen) (tmp &&& ipOffmask) 0
          (q.totLen - UInt16.ofNat ipHlen) buf 0
      else ([], .mem)

end Xell.IpFrag
