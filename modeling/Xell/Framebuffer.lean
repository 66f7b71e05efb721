/-
`xenos_scroll32` on the bytes of the machine.

`Xenos.lean` has the framebuffer as an array of words, in which each copy and each fill of
`xenos_scroll32` is one store.  Here the function is as `xenos.c` has it: a row of tiles is copied
by `memcpy`, byte by byte from the lowest address on, and the background is filled in word by word
with a pointer that goes up until it meets the end.  If it never does, the function gives nothing.

A framebuffer lies in the memory of the machine, so that its size in bytes is an `int`.
-/
import Xell.Elf
import Xell.Lib.Run
import Xell.Lib.Word
import Xell.Xenos

namespace Xell.Xenos

/-- `xenos_fb`, `xenos_width`, `xenos_height` and `xenos_size`. -/
structure Framebuffer where
  fb : Nat
  width : Nat
  height : Nat
  size : Nat

namespace Framebuffer

/-- What a reader of the screen sees at a pixel. -/
def pixel (g : Framebuffer) (mem : Mem UInt8) (x y : Nat) : UInt32 :=
  Word.load mem (g.fb + 4 * base g.width x y)

/-- The copying loop of `xenos_scroll32` from block `l` on.  `bs` is the number of bytes in a row
of tiles. -/
def copyBlocks (g : Framebuffer) (bs lines : Nat) (mem : Mem UInt8) (l : Nat) : Mem UInt8 :=
  if l * 32 < g.height then
    copyBlocks g bs lines (Elf.memcpy (g.fb + bs * (l - lines)) (g.fb + bs * l) bs mem) (l + 1)
  else mem
termination_by g.height - l

/-- One turn of the filling loop, with the pointer at `fb`. -/
def fillTurn (color : UInt32) (last fb : Nat) : Run (Mem UInt8) (Unit ⊕ Nat) := fun mem =>
  if fb ≠ last then Part.some (.inr (fb + 4), Word.store fb color mem)
  else Part.some (.inl (), mem)

def scroll32 (g : Framebuffer) (color : Nat → UInt32) (lines : Nat) : Run (Mem UInt8) Unit :=
  fun mem =>
    let bs := g.width * 32 * 4
    let mem := copyBlocks g bs lines mem lines
    Run.loop (fillTurn (color 0) (g.fb + g.size * 4)) (g.fb + g.size * 4 - bs * lines) mem

end Framebuffer

end Xell.Xenos
