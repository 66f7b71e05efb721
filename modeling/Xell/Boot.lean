/-
Booting from a USB stick: `try_boot_fat` and the part of `main` around it.

`execute_elf_at` ends in a jump and `update_xell_flash` in an endless loop, so a file
that was loaded is handed on for good.  What is handed on is the memory at `LOADER_RAW`
and the static `fat_file_size`; what `fat_read` returned is looked at by nobody.
-/
import Xell.Fat

namespace Xell.Boot

open Fat

/-- `LOADER_RAW`. -/
def loaderRaw : Nat := 0x8000000004000000

/-- `LOADER_MAXSIZE`. -/
def loaderMaxsize : Nat := 0x1000000

/-- The path `xenon.elf`. -/
def xenonPath : List UInt8 := [0x78, 0x65, 0x6e, 0x6f, 0x6e, 0x2e, 0x65, 0x6c, 0x66]

/-- The path `/updxell.bin`. -/
def updxellPath : List UInt8 :=
  [0x2f, 0x75, 0x70, 0x64, 0x78, 0x65, 0x6c, 0x6c, 0x2e, 0x62, 0x69, 0x6e]

/-- What is handed on after a load; `opened` is the state `fat_open` left before it. -/
structure Handoff where
  opened : State
  mem : Mem UInt8
  st : State

/-- How the USB part of `main` ends. -/
inductive Booted where
  | executeElfAt (h : Handoff)
  | updateXellFlash (h : Handoff)
  /-- Nothing was found, and `main` goes on to TFTP. -/
  | goesOn (st : State)

/-- `fat_read(LOADER_RAW, LOADER_MAXSIZE)`, its result dropped. -/
def load (v : Volume) (m : Mem UInt8) (s : State) : Handoff :=
  let r := fatRead v loaderRaw loaderMaxsize m s
  { opened := s, mem := r.mem, st := r.st }

def tryBootFat (v : Volume) (fuel : Nat) (filename : List UInt8) (m : Mem UInt8) (s : State) :
    Option Booted :=
  match fatOpen v fuel filename s with
  | none => none
  | some (err, s') => some (if err = 0 then .executeElfAt (load v m s') else .goesOn s')

/-- `main`, from after `fat_init` to before `boot_tftp`. -/
def bootFat (v : Volume) (fuel : Nat) (m : Mem UInt8) (s : State) : Option Booted :=
  match tryBootFat v fuel xenonPath m s with
  | some (.goesOn s') =>
      match fatOpen v fuel updxellPath s' with
      | none => none
      | some (err, s'') => some (if err = 0 then .updateXellFlash (load v m s'') else .goesOn s'')
  | r => r

end Xell.Boot
