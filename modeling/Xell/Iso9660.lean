/-
Directories of ISO 9660, as far as a lookup needs them.

This is not translated from the repository.  A directory is an extent of whole sectors.  Each
sector holds records back to back; no record goes over the end of a sector, and what is left of
the sector, which may be nothing, is zero.  A record starts with its length and has the place and
the size of its file, in both byte orders, and the length and the bytes of its identifier.
-/
import Xell.Cdrom

namespace Xell.Cdrom

/-- A directory record. -/
structure Record where
  bytes : List UInt8
  length_eq : bytes.length = (bytes.getD 0 0).toNat
  fits : 33 + (bytes.getD 32 0).toNat ≤ bytes.length

namespace Record

variable (r : Record)

def byte : Mem UInt8 := fun i => r.bytes.getD i 0

/-- The big-endian copies of the place and the size. -/
def lba : Nat := be32 r.byte 6

def size : Nat := be32 r.byte 14

def identifier : List UInt8 := r.byte.slice 33 (r.byte 32).toNat

/-- The record is the one that is looked for under the identifier `key`: the same letters, of
either case, and a file that is somewhere or has some size. -/
def wanted (key : List UInt8) : Bool :=
  r.identifier.map toupper = key.map toupper && (r.lba ≠ 0 || r.size ≠ 0)

end Record

/-- The bytes of the records of a sector. -/
def sectorBytes (rs : List Record) : List UInt8 := rs.flatMap Record.bytes

/-- A directory that starts at `sector`: what each of its sectors holds. -/
structure OnDisc (drive : Drive) (sector : Nat) (dir : List (List Record)) : Prop where
  read : ∀ i < dir.length, (drive (sector + i)).1 = true
  fits : ∀ rs ∈ dir, (sectorBytes rs).length ≤ sectorSize
  holds : ∀ i rs, dir[i]? = some rs → ∀ j < sectorSize,
    (drive (sector + i)).2 j = (sectorBytes rs).getD j 0

/-- The first record, in order, that is looked for. -/
def lookup (dir : List (List Record)) (key : List UInt8) : Option Record :=
  dir.flatten.find? fun r => r.wanted key

/-- What `read_directory` has to give back. -/
structure Answers (dir : List (List Record)) (key : List UInt8) (l : Lookup) : Prop where
  found : ∀ r, lookup dir key = some r → l.ret = 0 ∧ l.lba = r.lba ∧ l.size = r.size
  missing : lookup dir key = none → l.ret = -2

end Xell.Cdrom
