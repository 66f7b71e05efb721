/-
The text console of `xenos.c`.

The framebuffer is a block of 32 bit words laid out in tiles of 32 by 32 pixels, and
`xenos_pset32` computes where in it a pixel lies.  Characters are drawn as 8 by 16 glyphs at
text positions counted from a margin, and the screen scrolls by whole rows of tiles, two text
rows at a time.  The globals of the file are the fields of `Console`.  Sizes and positions are
never negative here and are numbers; a framebuffer has fewer than 2^31 words.

At the end stands the text terminal that the console is to show.
-/
import Xell.Lib.Mem

namespace Xell.Xenos

structure Console where
  fb : Mem UInt32
  width : Nat
  height : Nat
  size : Nat
  cursorX : Nat
  cursorY : Nat
  maxX : Nat
  maxY : Nat
  offsetX : Nat
  offsetY : Nat

/-- `xenos_color`, background and foreground. -/
def xenosColor : Nat → UInt32
  | 0 => 0xD8444E00
  | _ => 0xFF96A300

/-- The place of a pixel in the framebuffer. -/
def base (width x y : Nat) : Nat :=
  ((y >>> 5) * 32 * width + ((x >>> 5) <<< 10)
    + (x &&& 3) + ((y &&& 1) <<< 2) + (((x &&& 31) >>> 2) <<< 3) + (((y &&& 31) >>> 1) <<< 6))
    ^^^ ((y &&& 8) <<< 2)

def pset32 (width : Nat) (fb : Mem UInt32) (x y : Nat) (color : UInt32) : Mem UInt32 :=
  Function.update fb (base width x y) color

/-- What a reader of the screen sees at a pixel. -/
def Console.pixel (s : Console) (x y : Nat) : UInt32 := s.fb (base s.width x y)

section Console

-- `fontdata_8x16` and `xenos_color`: nothing below depends on what they hold.
variable (font : Mem UInt8) (color : Nat → UInt32)

def fontPixel (ch : UInt8) (x y : Nat) : Nat :=
  ((font (ch.toNat * 16 + y)).toNat >>> (7 - x)) &&& 1

/-! ### Drawing -/

/-- The first `n` turns of the inner loop of `xenos_draw_char`, in glyph line `ly`. -/
def drawLine (width x y : Nat) (c : UInt8) (ly : Nat) (fb : Mem UInt32) : Nat → Mem UInt32
  | 0 => fb
  | lx + 1 =>
    pset32 width (drawLine width x y c ly fb lx) (x + lx) (y + ly) (color (fontPixel font c lx ly))

/-- The first `n` turns of its outer loop. -/
def drawLines (width x y : Nat) (c : UInt8) (fb : Mem UInt32) : Nat → Mem UInt32
  | 0 => fb
  | ly + 1 => drawLine font color width x y c ly (drawLines width x y c fb ly) 8

def drawChar (s : Console) (x y : Nat) (c : UInt8) : Console :=
  { s with fb := drawLines font color s.width x y c s.fb 16 }

def clrscr (s : Console) (bgra : UInt32) : Console :=
  { s with fb := s.fb.store 0 s.size fun _ => bgra }

/-! ### Scrolling -/

/-- The copying loop of `xenos_scroll32` from block `l` on.  `bs` is the number of words in a
row of tiles. -/
def scrollBlocks (bs height lines : Nat) (fb : Mem UInt32) (l : Nat) : Mem UInt32 :=
  if l * 32 < height then
    scrollBlocks bs height lines (fb.store (bs * (l - lines)) bs fun i => fb (bs * l + i)) (l + 1)
  else fb
termination_by height - l

def scroll32 (s : Console) (lines : Nat) : Console :=
  let bs := s.width * 32
  let fb := scrollBlocks bs s.height lines s.fb lines
  { s with fb := fb.store (s.size - bs * lines) (bs * lines) fun _ => color 0 }

def newline (s : Console) : Console :=
  let s := { s with cursorX := 0, cursorY := s.cursorY + 1 }
  if s.cursorY ≥ s.maxY then
    let s := scroll32 color s 1
    { s with cursorY := s.cursorY - 2 }
  else s

/-! ### Characters -/

def putchImpl (s : Console) (c : UInt8) : Console :=
  if c = 0x09 then { s with cursorX := ((s.cursorX + 7) >>> 3) <<< 3 }
  else if c = 0x0D then { s with cursorX := 0 }
  else if c = 0x0A then newline color s
  else
    let s := drawChar font color s (s.cursorX * 8 + s.offsetX) (s.cursorY * 16 + s.offsetY) c
    let s := { s with cursorX := s.cursorX + 1 }
    if s.cursorX ≥ s.maxX then newline color s else s

/-- One character after the other. -/
def putChars (s : Console) (cs : List UInt8) : Console := cs.foldl (putchImpl font color) s

/-- The globals as the loader is started, with what happens to be in the video memory. -/
def atBoot (fb : Mem UInt32) : Console :=
  { fb, width := 0, height := 0, size := 0, cursorX := 0, cursorY := 0, maxX := 0, maxY := 0,
    offsetX := 0, offsetY := 0 }

/-- `xenos_init` up to the cleared screen, with the size `ai` gives. -/
def init (s : Console) (aiWidth aiHeight : Nat) : Console :=
  let width := ((aiWidth + 31) >>> 5) <<< 5
  let height := ((aiHeight + 31) >>> 5) <<< 5
  let s := { s with width, height, size := width * height, cursorX := 0, cursorY := 0 }
  let s := if s.height ≤ 576 then { s with offsetX := 50, offsetY := 50 } else s
  let s := { s with cursorX := 0, cursorY := 0, maxX := (aiWidth - s.offsetX * 2) / 8,
                    maxY := (aiHeight - s.offsetY * 2) / 16 }
  clrscr s (color 0)

end Console

/-! ### The text terminal

A sheet of text lines of which those from 0 on are on display: line 0 on top, and the lines
that have scrolled off the top at the negative numbers, the last one at -1.  A cell is blank
until a character is put there. -/

structure Terminal where
  text : Int → Nat → Option UInt8
  row : Nat
  col : Nat

def Terminal.blank : Terminal := { text := fun _ _ => none, row := 0, col := 0 }

/-- Up by two rows, with two blank rows appended below the last of the `rows`. -/
def Terminal.scroll (rows : Nat) (t : Terminal) : Terminal :=
  { t with text := fun r => if r + 2 < rows then t.text (r + 2) else fun _ => none }

def Terminal.newline (rows : Nat) (t : Terminal) : Terminal :=
  if t.row + 1 < rows then { t with row := t.row + 1, col := 0 }
  else { t.scroll rows with row := t.row + 1 - 2, col := 0 }

def Terminal.put (cols rows : Nat) (t : Terminal) (c : UInt8) : Terminal :=
  if c = 0x0D then { t with col := 0 }
  else if c = 0x0A then t.newline rows
  else
    let text := fun r k => if r = (t.row : Int) ∧ k = t.col then some c else t.text r k
    let t := { t with text, col := t.col + 1 }
    if t.col < cols then t else t.newline rows

/-- The terminal after a text. -/
def Terminal.after (cols rows : Nat) (cs : List UInt8) : Terminal :=
  cs.foldl (Terminal.put cols rows) Terminal.blank

/-- A pixel of a cell: of the character's glyph, or of the background. -/
def glyph (font : Mem UInt8) (color : Nat → UInt32) (cell : Option UInt8) (lx ly : Nat) : UInt32 :=
  match cell with
  | none => color 0
  | some c => color (fontPixel font c lx ly)

end Xell.Xenos
