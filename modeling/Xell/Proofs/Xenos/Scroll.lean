/-
Scrolling, byte by byte.

The blocks go to lower addresses than they come from, and `memcpy` goes upwards.  So each byte is
read before it is overwritten, and a copy stores what was there before, whether the two blocks
overlap or not (`memcpy_eq_store`).  The rows of tiles are whole words, and the pointer of the
filling loop is at a word.  What the function does to the bytes of the framebuffer is then what
`scroll32` of `Xenos.lean` does to its words (`scroll32_refines`), and the pixels follow.
-/
import Xell.Framebuffer
import Xell.Proofs.Elf
import Xell.Proofs.Xenos.Layout

namespace Xell.Xenos

open Word (words)

namespace Framebuffer

/-- The framebuffer as the console of `Xenos.lean` has it. -/
def console (g : Framebuffer) (mem : Mem UInt8) : Console :=
  { atBoot (words mem g.fb) with width := g.width, height := g.height, size := g.size }

/-! ### Copying -/

section Copy

variable (g : Framebuffer) (bs lines : Nat)

/-- One block goes up. -/
theorem memcpy_block (mem : Mem UInt8) (l : Nat) :
    Elf.memcpy (g.fb + bs * 4 * (l - lines)) (g.fb + bs * 4 * l) (bs * 4) mem
      = mem.store (g.fb + 4 * (bs * (l - lines))) (4 * bs)
          fun k => mem (g.fb + 4 * (bs * l) + k) := by
  have hdown : bs * (l - lines) ≤ bs * l := Nat.mul_le_mul_left bs (Nat.sub_le l lines)
  rw [show bs * 4 * (l - lines) = 4 * (bs * (l - lines)) by ring,
    show bs * 4 * l = 4 * (bs * l) by ring, Nat.mul_comm bs 4]
  exact Elf.memcpy_eq_store _ _ _ mem (Or.inl (by omega))

/-- The copying loop is that of the words. -/
theorem words_copyBlocks (mem : Mem UInt8) (l : Nat) :
    words (copyBlocks g (bs * 4) lines mem l) g.fb
      = scrollBlocks bs g.height lines (words mem g.fb) l := by
  -- on the lines of the screen that lie below the block
  induction hd : g.height - l using Nat.strongRecOn generalizing mem l with
  | _ d ih =>
      rw [copyBlocks, scrollBlocks]
      by_cases hl : l * 32 < g.height
      · rw [if_pos hl, if_pos hl, memcpy_block, ih (g.height - (l + 1)) (by omega) _ (l + 1) rfl,
          Word.words_copy]
      · rw [if_neg hl, if_neg hl]

/-- All that is written lies in the framebuffer. -/
theorem copyBlocks_inside {m : Nat} (hheight : g.height = 32 * m) (mem : Mem UInt8) (l : Nat) :
    mem.SameOutside (copyBlocks g (bs * 4) lines mem l) g.fb (4 * (bs * m)) := by
  induction hd : g.height - l using Nat.strongRecOn generalizing mem l with
  | _ d ih =>
      rw [copyBlocks]
      by_cases hl : l * 32 < g.height
      · have hend : bs * (l - lines) + bs ≤ bs * m := by
          rw [← Nat.mul_succ]
          exact Nat.mul_le_mul_left bs (by omega)
        rw [if_pos hl, memcpy_block]
        refine Mem.SameOutside.trans ?_ (ih (g.height - (l + 1)) (by omega) _ (l + 1) rfl)
        exact (Mem.sameOutside_store mem _ _ _).mono (by omega) (by omega)
      · rw [if_neg hl]
        exact .refl _ _ _

end Copy

/-! ### Filling -/

/-- The filling loop stores `n` words and ends. -/
theorem fill_words (fb : Nat) (color : UInt32) (n : Nat) :
    ∀ (i : Nat) (mem : Mem UInt8), ∃ mem',
      Run.loop (fillTurn color (fb + 4 * (i + n))) (fb + 4 * i) mem = Part.some ((), mem') ∧
        words mem' fb = (words mem fb).store i n (fun _ => color) ∧
        mem.SameOutside mem' (fb + 4 * i) (4 * n) := by
  induction n with
  | zero =>
      intro i mem
      refine ⟨mem, Run.loop_done ?_, (Mem.store_zero _ _ _).symm, .refl _ _ _⟩
      exact if_neg (not_not.mpr rfl)
  | succ n ih =>
      intro i mem
      obtain ⟨mem', hloop, hwords, hsame⟩ := ih (i + 1) (Word.store (fb + 4 * i) color mem)
      have hturn : fillTurn color (fb + 4 * (i + (n + 1))) (fb + 4 * i) mem
          = Part.some (.inr (fb + 4 * (i + 1)), Word.store (fb + 4 * i) color mem) :=
        if_pos (by omega)
      refine ⟨mem', ?_, ?_, ?_⟩
      · rw [Run.loop_next hturn, ← hloop, Nat.add_assoc i 1 n, Nat.add_comm 1 n]
      · rw [hwords, Word.words_store, Mem.update_eq_store (words mem fb) i fun _ => color,
          Mem.store_append (words mem fb) i 1 n fun _ => color, Nat.add_comm 1 n]
      · refine Mem.SameOutside.trans ?_ (hsame.mono (by omega) (by omega))
        exact (Mem.sameOutside_store mem _ _ _).mono (by omega) (by omega)

/-! ### Scrolling -/

/-- **The function on bytes is that on words**: it ends, the framebuffer is scrolled, and nothing
else has changed. -/
theorem scroll32_refines (color : Nat → UInt32) {g : Framebuffer} {mem : Mem UInt8}
    (h : (g.console mem).Tiled) {lines : Nat} (hlines : 32 * lines ≤ g.height) :
    ∃ mem', g.scroll32 color lines mem = Part.some ((), mem') ∧
      g.console mem' = Xenos.scroll32 color (g.console mem) lines ∧
      mem.SameOutside mem' g.fb (4 * g.size) := by
  obtain ⟨m, hm⟩ : ∃ m, g.height = 32 * m := ⟨g.height / 32, h.blocks.2⟩
  have hsize : g.size = g.width * 32 * m := by
    have hproduct : g.size = g.width * g.height := h.size
    rw [hproduct, hm, Nat.mul_assoc]
  have hfill : g.width * 32 * lines ≤ g.size := by
    rw [hsize]
    exact Nat.mul_le_mul_left _ (by omega)
  have hstart : g.fb + g.size * 4 - g.width * 32 * 4 * lines
      = g.fb + 4 * (g.size - g.width * 32 * lines) := by
    rw [show g.width * 32 * 4 * lines = 4 * (g.width * 32 * lines) by ring]
    omega
  have hlast : g.fb + g.size * 4
      = g.fb + 4 * (g.size - g.width * 32 * lines + g.width * 32 * lines) := by omega
  obtain ⟨mem', hloop, hwords, hsame⟩ := fill_words g.fb (color 0) (g.width * 32 * lines)
    (g.size - g.width * 32 * lines) (copyBlocks g (g.width * 32 * 4) lines mem lines)
  refine ⟨mem', ?_, ?_, ?_⟩
  · unfold scroll32
    dsimp only
    rw [hstart, hlast, hloop]
  · unfold console Xenos.scroll32
    rw [hwords, words_copyBlocks]
    rfl
  · have hcopied := copyBlocks_inside g (g.width * 32) lines hm mem lines
    rw [← hsize] at hcopied
    exact hcopied.trans (hsame.mono (by omega) (by omega))

end Framebuffer

/--
**Scrolling in pixel coordinates.**  On a screen of whole tiles, whatever is in the framebuffer
and wherever it is, `xenos_scroll32` ends, each pixel is the one that was `32 * lines` below it,
and where there was none it has the colour of the background.
-/
theorem scroll32_shifts (color : Nat → UInt32) (fb : Nat) {width height : Nat}
    (hw : width % 32 = 0) (hh : height % 32 = 0) (mem : Mem UInt8) {lines : Nat}
    (hlines : 32 * lines ≤ height) :
    let g : Framebuffer := { fb, width, height, size := width * height }
    ∃ mem', g.scroll32 color lines mem = Part.some ((), mem') ∧
      ∀ x < width, ∀ y < height,
        g.pixel mem' x y
          = if y + 32 * lines < height then g.pixel mem x (y + 32 * lines) else color 0 := by
  intro g
  have htiled : (g.console mem).Tiled := ⟨hw, hh, rfl⟩
  obtain ⟨mem', hrun, hconsole, -⟩ := Framebuffer.scroll32_refines color htiled hlines
  refine ⟨mem', hrun, fun x hx y hy => ?_⟩
  have hpixel := scroll32_pixel color htiled hlines hx hy
  rw [← hconsole] at hpixel
  exact hpixel

/-- At 640x480 by one row of tiles. -/
theorem scroll32_shifts_vga :
    let g : Framebuffer := { fb := 0x9e000000, width := 640, height := 480, size := 640 * 480 }
    ∃ mem', g.scroll32 xenosColor 1 (fun a => UInt8.ofNat a) = Part.some ((), mem') ∧
      g.pixel mem' 3 40 = g.pixel (fun a => UInt8.ofNat a) 3 72 ∧
      g.pixel mem' 639 479 = 0xD8444E00 := by
  intro g
  obtain ⟨mem', hrun, hpixel⟩ := @scroll32_shifts xenosColor 0x9e000000 640 480 rfl rfl
    (fun a => UInt8.ofNat a) 1 (by decide)
  exact ⟨mem', hrun, hpixel 3 (by decide) 40 (by decide), hpixel 639 (by decide) 479 (by decide)⟩

end Xell.Xenos
