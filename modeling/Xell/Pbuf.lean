/-
Packet buffers, from `lwip/core/pbuf.c`: a chain, its bytes, and `pbuf_header`.

A chain is the list of its `pbuf`s, and what they hold is a part of the memory.  Lengths are
sixteen bits wide and wrap.
-/
import Xell.Lib.Mem

namespace Xell

inductive PbufFlag where
  | ram
  | rom
  | pool
  | ref
deriving DecidableEq

/-- A `struct pbuf`; `start` is where the structure itself ends. -/
structure Pbuf where
  start : Nat
  payload : Nat
  totLen : UInt16
  len : UInt16
  flags : PbufFlag

namespace Pbuf

/-- What lies at `payload`. -/
def bytes (mem : Mem UInt8) (q : Pbuf) : List UInt8 := mem.slice q.payload q.len.toNat

/-- The bytes of a chain. -/
def chain (mem : Mem UInt8) (p : List Pbuf) : List UInt8 := p.flatMap fun q => q.bytes mem

@[simp] theorem bytes_length (mem : Mem UInt8) (q : Pbuf) : (q.bytes mem).length = q.len.toNat := by
  simp [bytes]

@[simp] theorem chain_nil (mem : Mem UInt8) : chain mem [] = [] := rfl

@[simp] theorem chain_cons (mem : Mem UInt8) (q : Pbuf) (qs : List Pbuf) :
    chain mem (q :: qs) = q.bytes mem ++ chain mem qs := rfl

/-- `pbuf_header`: nothing where it returns one.  That a header which is hidden is there is not
tested: `header_size_increment - p->len <= 0` holds for every negative increment. -/
def header (p : Pbuf) (inc : Int16) : Option Pbuf :=
  let moved := { p with
    payload := (p.payload - inc.toInt : Int).toNat
    len := p.len + inc.toUInt16
    totLen := p.totLen + inc.toUInt16 }
  if inc = 0 then some p
  else
    match p.flags with
    | .ram | .pool => if (p.payload - inc.toInt : Int) < p.start then none else some moved
    | .ref | .rom => if inc < 0 && inc.toInt - p.len.toNat ≤ 0 then some moved else none

end Pbuf

end Xell
