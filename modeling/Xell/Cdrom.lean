/-
Looking up a file on a CD, from `cdrom.c`.

`read_directory` walks over a directory in the sector buffer, one record after another, and
takes the next sector when it comes to a zero where the next record would be.  The buffer is
static memory of 2048 bytes, and something lies behind it: the memory here is addressed from the
start of the buffer, and a sector that is read only replaces its first 2048 bytes.  The functions
remember the places they examine.

`lba` and `size` are the 32 bits that the source keeps in an `int`.  Names are C strings: lists
of bytes without the NUL at their end.
-/
import Xell.Lib.Mem

namespace Xell.Cdrom

/-- The entries of `_ctype` that have `_L`: the lower-case letters of Latin-1. -/
def islower (c : UInt8) : Bool := (97 ≤ c && c ≤ 122) || (223 ≤ c && c ≠ 247)

def toupper (c : UInt8) : UInt8 := if islower c then c - 0x20 else c

def sectorSize : Nat := 0x800

/-- What comes of `read_sector` for one sector: whether it says so, and what is in its place
then. -/
abbrev Drive := Nat → Bool × Mem UInt8

/-- `memicmp` of the memory from `a` on with the name from `i` on: whether they are equal, and
the places of the memory that were examined. -/
def memicmp (mem : Mem UInt8) (name : List UInt8) : Nat → Nat → Nat → Bool × List Nat
  | 0, _, _ => (true, [])
  | len + 1, a, i =>
      if toupper (mem a) ≠ toupper (name.getD i 0) then (false, [a])
      else
        let r := memicmp mem name len (a + 1) (i + 1)
        (r.1, a :: r.2)

/-- Four bytes, the highest first. -/
def be32 (mem : Mem UInt8) (a : Nat) : Nat :=
  (mem a).toNat * 2 ^ 24 + (mem (a + 1)).toNat * 2 ^ 16 + (mem (a + 2)).toNat * 2 ^ 8 +
    (mem (a + 3)).toNat

/-- What `read_direntry` gives back: the length of the record, and where its file is, or zeroes
if it is not the one. -/
structure Direntry where
  nrb : Nat
  lba : Nat
  size : Nat
  examined : List Nat

/-- `read_direntry`, on the record at `p`.  An empty name is taken to be the one byte behind
it. -/
def readDirentry (mem : Mem UInt8) (p : Nat) (filename : List UInt8) : Direntry :=
  let nrb := (mem p).toNat
  let lba := be32 mem (p + 6)
  let size := be32 mem (p + 14)
  let nl := (mem (p + 32)).toNat
  let fnl := if filename.length = 0 then filename.length + 1 else filename.length
  let fields := p :: (List.range' (p + 6) 4 ++ List.range' (p + 14) 4 ++ [p + 25, p + 32])
  if nl ≠ fnl then ⟨nrb, 0, 0, fields⟩
  else
    let r := memicmp mem filename nl (p + 33) 0
    if r.1 = false then ⟨nrb, 0, 0, fields ++ r.2⟩ else ⟨nrb, lba, size, fields ++ r.2⟩

/-- What `read_directory` gives back, and the places it examined. -/
structure Lookup where
  ret : Int
  lba : Nat
  size : Nat
  examined : List Nat

/-- The loop of `read_directory`.  It does not look at what `read_sector` says.  `n` bounds the
number of its turns. -/
def readDirectoryLoop (drive : Drive) (filename : List UInt8) :
    Nat → Nat → Int → Nat → Mem UInt8 → Lookup → Option Lookup
  | 0, _, _, _, _, _ => none
  | n + 1, sector, len, ptr, mem, l =>
      if len ≤ 0 then some { l with ret := -2 }
      else
        let e := readDirentry mem ptr filename
        let ptr := ptr + e.nrb
        let l : Lookup := ⟨l.ret, e.lba, e.size, l.examined ++ e.examined⟩
        if e.lba ≠ 0 ∨ e.size ≠ 0 then some { l with ret := 0 }
        else
          let l := { l with examined := l.examined ++ [ptr] }
          if mem ptr = 0 then
            readDirectoryLoop drive filename n (sector + 1) (len - 2048) 0
              (mem.store 0 sectorSize (drive (sector + 1)).2) l
          else readDirectoryLoop drive filename n sector len ptr mem l

/-- `read_directory`, which prints the first 64 bytes of the directory.  `lba` and `size` are
what its caller's variables held before. -/
def readDirectory (drive : Drive) (mem : Mem UInt8) (n sector : Nat) (len : Int)
    (filename : List UInt8) (lba size : Nat) : Option Lookup :=
  if (drive sector).1 = false then some ⟨-1, lba, size, []⟩
  else
    readDirectoryLoop drive filename n sector len 0
      (mem.store 0 sectorSize (drive sector).2) ⟨0, lba, size, List.range 0x40⟩

end Xell.Cdrom
