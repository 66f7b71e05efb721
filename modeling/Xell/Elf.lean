/-
Loading an ELF file, from `main.c`.

`load_elf_image` goes over the section headers of a file in memory and puts the sections where
they belong.  It reads the headers from the same memory that it writes to: how many there are,
where they are and what is in them is looked up again in each turn.  The processor is
big-endian, and so are the files that it is given.

What is printed along the way is left out, but not that `printf` has a buffer of 1024 bytes for it.
A line that does not fit there overwrites the stack, and then nothing is known of what follows.
-/
import Xell.Lib.Mem
import Xell.Vsprintf

namespace Xell.Elf

/-! ### Memory -/

/-- `memset` of `string.c`. -/
def memset (s : Nat) (c : UInt8) : Nat → Mem UInt8 → Mem UInt8
  | 0, mem => mem
  | count + 1, mem => memset (s + 1) c count (Function.update mem s c)

/-- `memcpy` of `string.c`. -/
def memcpy (dest src : Nat) : Nat → Mem UInt8 → Mem UInt8
  | 0, mem => mem
  | count + 1, mem => memcpy (dest + 1) (src + 1) count (Function.update mem dest (mem src))

/-- An `Elf32_Half`. -/
def half (mem : Mem UInt8) (a : Nat) : Nat := (mem a).toNat * 2 ^ 8 + (mem (a + 1)).toNat

/-- An `Elf32_Word`, `Elf32_Addr` or `Elf32_Off`. -/
def word (mem : Mem UInt8) (a : Nat) : Nat :=
  (mem a).toNat * 2 ^ 24 + (mem (a + 1)).toNat * 2 ^ 16 + (mem (a + 2)).toNat * 2 ^ 8
    + (mem (a + 3)).toNat

/-! ### Headers -/

/-- `sizeof (Elf32_Ehdr)`. -/
def ehdrSize : Nat := 52

/-- `sizeof (Elf32_Shdr)`. -/
def shdrSize : Nat := 40

def eEntry (mem : Mem UInt8) (addr : Nat) : Nat := word mem (addr + 24)

def eShoff (mem : Mem UInt8) (addr : Nat) : Nat := word mem (addr + 32)

def eShnum (mem : Mem UInt8) (addr : Nat) : Nat := half mem (addr + 48)

def eShstrndx (mem : Mem UInt8) (addr : Nat) : Nat := half mem (addr + 50)

/-- `Elf32_Shdr`, as far as it is read here. -/
structure Shdr where
  shName : Nat
  shType : Nat
  shFlags : Nat
  shAddr : Nat
  shOffset : Nat
  shSize : Nat
  deriving DecidableEq

/-- The section header at `a`. -/
def shdrAt (mem : Mem UInt8) (a : Nat) : Shdr where
  shName := word mem a
  shType := word mem (a + 4)
  shFlags := word mem (a + 8)
  shAddr := word mem (a + 12)
  shOffset := word mem (a + 16)
  shSize := word mem (a + 20)

/-- Section header `i` of the file at `addr`. -/
def shdr (mem : Mem UInt8) (addr i : Nat) : Shdr :=
  shdrAt mem (addr + eShoff mem addr + i * shdrSize)

/-- `SHF_ALLOC`. -/
def shfAlloc : Nat := 2

/-- `SHT_STRTAB`. -/
def shtStrtab : Nat := 3

/-- `SHT_NOBITS`. -/
def shtNobits : Nat := 8

namespace Shdr

/-- Whether the section is loaded at all. -/
def allocated (s : Shdr) : Bool := s.shFlags &&& shfAlloc ≠ 0 && s.shSize ≠ 0

/-- Where it is loaded. -/
def target (s : Shdr) : Nat := 0x8000000000000000 ||| s.shAddr

end Shdr

/-! ### What is printed -/

/-- The size of the buffer of `printf`. -/
def bufferSize : Nat := 1024

/-- `printf`, which works if the text and its zero fit into the buffer. -/
def printf (fmt : List UInt8) (args : List Vsprintf.Arg) : Option Unit := do
  let out ← Vsprintf.vsprintf fmt args
  if out.text.length + 1 ≤ bufferSize then some () else none

/-- The string at `a`.  Of one that is longer than the buffer, no more is needed to tell. -/
def stringAt (mem : Mem UInt8) (a : Nat) : List UInt8 :=
  (mem.slice a bufferSize).takeWhile (· != 0)

def sectionFormat : List UInt8 := Vsprintf.text "0x%08x 0x%08x, %sing %s..."

/-- `strtab`, which is looked up once, before the loop. -/
def strtab (mem : Mem UInt8) (addr : Nat) : Option Nat :=
  let s := shdr mem addr (eShstrndx mem addr)
  if s.shType = shtStrtab then some (addr + s.shOffset) else none

/-- "Clear" or "Load". -/
def Shdr.verb (s : Shdr) : List UInt8 :=
  if s.shType = shtNobits then Vsprintf.text "Clear" else Vsprintf.text "Load"

/-- The line for a section. -/
def printSection (tab : Option Nat) (s : Shdr) (mem : Mem UInt8) : Option Unit :=
  match tab with
  | none => some ()
  | some tab =>
      printf sectionFormat [.word (BitVec.ofNat 64 s.shAddr), .word (BitVec.ofNat 64 s.shSize),
        .str (some s.verb), .str (some (stringAt mem (tab + s.shName)))]

/-! ### The loop -/

/-- One turn of the loop of `load_elf_image`. -/
def loadSection (addr : Nat) (tab : Option Nat) (i : Nat) (mem : Mem UInt8) :
    Option (Mem UInt8) :=
  let s := shdr mem addr i
  if s.allocated = false then some mem
  else do
    printSection tab s mem
    if s.shType = shtNobits then some (memset s.target 0 s.shSize mem)
    else some (memcpy s.target (addr + s.shOffset) s.shSize mem)

theorem eShnum_lt (mem : Mem UInt8) (addr : Nat) : eShnum mem addr < 2 ^ 16 := by
  have hhi := (mem (addr + 48)).toNat_lt
  have hlo := (mem (addr + 48 + 1)).toNat_lt
  unfold eShnum half
  omega

/-- The loop, from section `i` on. -/
def loadSections (addr : Nat) (tab : Option Nat) (i : Nat) (mem : Mem UInt8) :
    Option (Mem UInt8) :=
  if i < eShnum mem addr then
    (loadSection addr tab i mem).bind fun mem' => loadSections addr tab (i + 1) mem'
  else some mem
termination_by 2 ^ 16 - i
decreasing_by
  have := eShnum_lt mem addr
  omega

/-- `load_elf_image`: what it returns, and the memory. -/
def loadElfImage (addr : Nat) (mem : Mem UInt8) : Option (Nat × Mem UInt8) := do
  let mem ← loadSections addr (strtab mem addr) 0 mem
  some (eEntry mem addr, mem)

end Xell.Elf
