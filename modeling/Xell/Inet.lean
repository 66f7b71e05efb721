/-
Checksums and the texts of addresses, from `lwip/core/inet.c`.

The processor has the network's byte order, so `htons` and its relatives change nothing.  A `pbuf`
is a part of the memory, and what `LWIP_CHKSUM` adds up is the list of its bytes; a chain is the
list of its `pbuf`s.  The constants with `UL` are wider than `acc`, which makes no difference to
the bits that are stored.

A text is the list of its bytes up to the zero that ends it, and reading on at its end gives that
zero.
-/
import Xell.Pbuf
import Xell.Vsprintf

namespace Xell.Inet

open Vsprintf (chr text)

/-! ### Checksums -/

/-- Two octets as a word in network order. -/
def word (hi lo : UInt8) : UInt16 := (hi.toUInt16 <<< 8) ||| lo.toUInt16

/-- The loop of `lwip_standard_chksum`, and the octet that remains. -/
def chksumLoop : List UInt8 → UInt32 → UInt32
  | [], acc => acc
  | [x], acc => acc + (x.toUInt16 <<< 8).toUInt32
  | x :: y :: bs, acc => chksumLoop bs (acc + (word x y).toUInt32)

def lwipStandardChksum (data : List UInt8) : UInt16 :=
  let acc := chksumLoop data 0
  let acc := (acc >>> 16) + (acc &&& 0xffff)
  let acc := if (acc &&& (0xffff0000 : UInt32)) ≠ 0 then (acc >>> 16) + (acc &&& 0xffff) else acc
  acc.toUInt16

/-- `while (acc >> 16) acc = (acc & 0xffff) + (acc >> 16);` -/
def foldCarries (acc : UInt32) : UInt32 :=
  if _h : acc >>> 16 = 0 then acc else foldCarries ((acc &&& (0xffff : UInt32)) + (acc >>> 16))
termination_by acc.toNat
decreasing_by
  have hne : (acc >>> 16).toNat ≠ 0 := fun h => _h (UInt32.toNat.inj h)
  have hlow : (acc &&& 0xffff).toNat = acc.toNat % 65536 := by
    rw [UInt32.toNat_and]
    exact Nat.and_two_pow_sub_one_eq_mod acc.toNat 16
  have hhigh : (acc >>> 16).toNat = acc.toNat / 65536 := by
    rw [UInt32.toNat_shiftRight]
    exact Nat.shiftRight_eq_div_pow _ _
  have hlt := acc.toNat_lt
  rw [UInt32.toNat_add, hlow, hhigh, Nat.mod_eq_of_lt (by omega)]
  omega

/-- `((acc & 0xff) << 8) | ((acc & 0xff00) >> 8)`. -/
def swapBytes (acc : UInt32) : UInt32 := ((acc &&& 0xff) <<< 8) ||| ((acc &&& 0xff00) >>> 8)

/-- `acc` and `swapped`. -/
structure Acc where
  acc : UInt32
  swapped : Bool

/-- The loop over the `pbuf`s of a chain; `mix` is what is done to `acc` behind an odd one. -/
def pbufLoop (mix : UInt32 → UInt32) (mem : Mem UInt8) : List Pbuf → Acc → Acc
  | [], s => s
  | q :: qs, s =>
      let acc := foldCarries (s.acc + (lwipStandardChksum (q.bytes mem)).toUInt32)
      if q.len % 2 ≠ 0 then pbufLoop mix mem qs ⟨mix acc, !s.swapped⟩
      else pbufLoop mix mem qs ⟨acc, s.swapped⟩

/-- `(u16_t)~(acc & 0xffffUL)`. -/
def complement (acc : UInt32) : UInt16 := (~~~(acc &&& 0xffff)).toUInt16

def inetChksumPseudo (mem : Mem UInt8) (p : List Pbuf) (src dest : UInt32) (proto : UInt8)
    (protoLen : UInt16) : UInt16 :=
  let s := pbufLoop swapBytes mem p ⟨0, false⟩
  let acc := if s.swapped then swapBytes s.acc else s.acc
  let acc := acc + (src &&& 0xffff)
  let acc := acc + ((src >>> 16) &&& 0xffff)
  let acc := acc + (dest &&& 0xffff)
  let acc := acc + ((dest >>> 16) &&& 0xffff)
  let acc := acc + proto.toUInt16.toUInt32
  let acc := acc + protoLen.toUInt32
  complement (foldCarries acc)

def inetChksum (data : List UInt8) : UInt16 :=
  complement (foldCarries (lwipStandardChksum data).toUInt32)

/-- `inet_chksum_pbuf`.  In `acc & 0x00ffUL << 8` the shift is done first. -/
def inetChksumPbuf (mem : Mem UInt8) (p : List Pbuf) : UInt16 :=
  let mix : UInt32 → UInt32 := fun acc =>
    (acc &&& ((0x00ff : UInt32) <<< 8)) ||| (acc &&& ((0xff00 : UInt32) >>> 8))
  let s := pbufLoop mix mem p ⟨0, false⟩
  complement (if s.swapped then swapBytes s.acc else s.acc)

/-! ### Addresses -/

def inRange (c lo up : UInt8) : Bool := c ≥ lo && c ≤ up

def isascii (c : UInt8) : Bool := inRange c 0x20 0x7f

def isdigit (c : UInt8) : Bool := inRange c (chr '0') (chr '9')

def isxdigit (c : UInt8) : Bool :=
  isdigit c || inRange c (chr 'a') (chr 'f') || inRange c (chr 'A') (chr 'F')

def islower (c : UInt8) : Bool := inRange c (chr 'a') (chr 'z')

/-- The `isspace` of `inet.c`: `\f` is 12 and `\v` is 11. -/
def isspace (c : UInt8) : Bool :=
  c = chr ' ' || c = 12 || c = chr '\n' || c = chr '\r' || c = chr '\t' || c = 11

/-- The inner loop of `inet_aton`: a number, and what comes behind it. -/
def atonNumber (base : UInt32) : List UInt8 → UInt32 → UInt32 × List UInt8
  | [], val => (val, [])
  | c :: cp, val =>
      if isdigit c then atonNumber base cp (val * base + (c - chr '0').toUInt32)
      else if base = 16 && isxdigit c then
        atonNumber base cp ((val <<< 4) |||
          (c + 10 - (if islower c then chr 'a' else chr 'A')).toUInt32)
      else (val, c :: cp)

/-- The base that the beginning of a number tells. -/
def atonBase (cp : List UInt8) : UInt32 × List UInt8 :=
  if cp.headD 0 = chr '0' then
    let cp := cp.tail
    if cp.headD 0 = chr 'x' || cp.headD 0 = chr 'X' then (16, cp.tail) else (8, cp)
  else (10, cp)

theorem atonNumber_length (base : UInt32) (cp : List UInt8) (val : UInt32) :
    (atonNumber base cp val).2.length ≤ cp.length := by
  induction cp generalizing val with
  | nil => exact Nat.le_refl _
  | cons c cp ih =>
      unfold atonNumber
      split
      · exact (ih _).trans (Nat.le_succ _)
      · split
        · exact (ih _).trans (Nat.le_succ _)
        · exact Nat.le_refl _

theorem atonBase_length (cp : List UInt8) : (atonBase cp).2.length ≤ cp.length := by
  unfold atonBase
  by_cases h : cp.headD 0 = chr '0'
  · rw [if_pos h]
    dsimp only
    split <;> simp only [List.length_tail] <;> omega
  · rw [if_neg h]

/-- The outer loop of `inet_aton`: `parts` up to `pp`, the last number, and what comes behind. -/
def atonParts (cp : List UInt8) (parts : List UInt32) : Option (List UInt32 × UInt32 × List UInt8) :=
  if _h : isdigit (cp.headD 0) = false then none
  else
    let r := atonNumber (atonBase cp).1 (atonBase cp).2 0
    if r.2.headD 0 = chr '.' then
      if parts.length ≥ 3 then none else atonParts r.2.tail (parts ++ [r.1])
    else some (parts, r.1, r.2)
termination_by cp.length
decreasing_by
  have h₁ := atonNumber_length (atonBase cp).1 (atonBase cp).2 0
  have h₂ := atonBase_length cp
  have hpos : cp ≠ [] := by
    rintro rfl
    exact _h rfl
  have := List.length_pos_iff.mpr hpos
  rw [List.length_tail]
  omega

/-- `inet_aton`: the address, or nothing where it returns zero. -/
def inetAton (cp : List UInt8) : Option UInt32 :=
  match atonParts cp [] with
  | none => none
  | some (parts, val, rest) =>
      let c := rest.headD 0
      if c ≠ 0 && (!isascii c || !isspace c) then none
      else
        match parts with
        | [] => some val
        | [a] => if val > 0xffffff then none else some (val ||| (a <<< 24))
        | [a, b] => if val > 0xffff then none else some (val ||| ((a <<< 24) ||| (b <<< 16)))
        | [a, b, c] =>
            if val > 0xff then none
            else some (val ||| ((a <<< 24) ||| (b <<< 16) ||| (c <<< 8)))
        | _ => some val

/-- The digits of an octet as `inet_ntoa` fills `inv` with them, the lowest first. -/
def ntoaDigits (x : UInt8) : List UInt8 :=
  let d := chr '0' + x % 10
  if x / 10 = 0 then [d] else d :: ntoaDigits (x / 10)
termination_by x.toNat
decreasing_by
  rename_i h
  have hne : (x / 10).toNat ≠ 0 := fun hz => h (UInt8.toNat.inj hz)
  rw [UInt8.toNat_div] at *
  exact Nat.div_lt_self (by by_contra hx; simp [show x.toNat = 0 by omega] at hne) (by decide)

/-- Octet `n` of an address, in memory order. -/
def octet (addr : UInt32) (n : Nat) : UInt8 := (addr >>> (24 - 8 * UInt32.ofNat n)).toUInt8

/-- `inet_ntoa`: the octets with a dot behind each, and the last dot made a zero. -/
def inetNtoa (addr : UInt32) : List UInt8 :=
  ((List.range 4).flatMap fun n => (ntoaDigits (octet addr n)).reverse ++ [chr '.']).dropLast

end Xell.Inet
