/-
The console of `xenos.c` shows a text terminal.

`picture` says which colour a terminal has at each pixel of a screen: line `r` of its sheet fills
the 16 pixel lines from `offsetY + 16 * r` on, for every `r` below the number of rows, so that
the lines scrolled off the top appear in the upper margin.  Every character keeps the screen
equal to that picture (`putchImpl_shows`).  Two facts carry this: scrolling by 32 pixel lines is
scrolling by two text rows wherever the margin ends (`picture_scroll`), and what scrolls in at
the bottom comes from below the text, where nothing is ever drawn.
-/
import Xell.Proofs.Xenos.Layout

namespace Xell.Xenos

/-! ### Screens -/

/-- What `xenos_init` settles and no character changes. -/
structure Screen where
  width : Nat
  height : Nat
  size : Nat
  maxX : Nat
  maxY : Nat
  offsetX : Nat
  offsetY : Nat

def Console.screen (s : Console) : Screen :=
  { width := s.width, height := s.height, size := s.size, maxX := s.maxX, maxY := s.maxY,
    offsetX := s.offsetX, offsetY := s.offsetY }

/-- Whole tiles, with room for the text area, and the area has room to scroll. -/
structure Screen.Fits (g : Screen) : Prop where
  width : g.width % 32 = 0
  height : g.height % 32 = 0
  size : g.size = g.width * g.height
  right : g.offsetX + 8 * g.maxX ≤ g.width
  bottom : g.offsetY + 16 * g.maxY ≤ g.height
  cols : 1 ≤ g.maxX
  rows : 2 ≤ g.maxY

theorem Screen.Fits.tiled {s : Console} (h : s.screen.Fits) : s.Tiled :=
  ⟨h.width, h.height, h.size⟩

section Picture

variable (font : Mem UInt8) (color : Nat → UInt32)

theorem newline_screen (s : Console) : (newline color s).screen = s.screen := by
  unfold newline
  dsimp only
  split
  · rfl
  · rfl

theorem putchImpl_screen (s : Console) (c : UInt8) :
    (putchImpl font color s c).screen = s.screen := by
  unfold putchImpl
  dsimp only
  split
  · rfl
  · split
    · rfl
    · split
      · exact newline_screen color s
      · split
        · exact newline_screen color _
        · rfl

theorem putChars_screen (s : Console) (cs : List UInt8) :
    (putChars font color s cs).screen = s.screen := by
  induction cs generalizing s with
  | nil => rfl
  | cons c cs ih => exact (ih _).trans (putchImpl_screen font color s c)

/-! ### The picture of a terminal -/

/-- Line `r` of the sheet is drawn from pixel line `offsetY + 16 * r` on, in the columns of the
text area. -/
def picture (g : Screen) (t : Terminal) (x y : Nat) : UInt32 :=
  let line : Int := y - g.offsetY
  if (g.offsetX ≤ x ∧ x < g.offsetX + 8 * g.maxX) ∧ line / 16 < g.maxY then
    glyph font color (t.text (line / 16) ((x - g.offsetX) / 8)) ((x - g.offsetX) % 8)
      (line % 16).toNat
  else color 0

theorem picture_blank (g : Screen) (x y : Nat) :
    picture font color g Terminal.blank x y = color 0 := by
  unfold picture
  dsimp only
  split
  · rfl
  · rfl

/-- In a column of the text area, a pixel line of the sheet. -/
theorem picture_column {g : Screen} (t : Terminal) {cx lx y : Nat} (hcx : cx < g.maxX) (hlx : lx < 8)
    (hy : y < g.offsetY + 16 * g.maxY) :
    picture font color g t (g.offsetX + 8 * cx + lx) y
      = glyph font color (t.text (((y : Int) - g.offsetY) / 16) cx) lx
          (((y : Int) - g.offsetY) % 16).toNat := by
  unfold picture
  dsimp only
  rw [if_pos (by omega), show (g.offsetX + 8 * cx + lx - g.offsetX) / 8 = cx by omega,
    show (g.offsetX + 8 * cx + lx - g.offsetX) % 8 = lx by omega]

theorem picture_cell {g : Screen} (t : Terminal) {cx cy lx ly : Nat} (hcx : cx < g.maxX)
    (hcy : cy < g.maxY) (hlx : lx < 8) (hly : ly < 16) :
    picture font color g t (g.offsetX + 8 * cx + lx) (g.offsetY + 16 * cy + ly)
      = glyph font color (t.text cy cx) lx ly := by
  rw [picture_column font color t hcx hlx (by omega),
    show (((g.offsetY + 16 * cy + ly : Nat) : Int) - g.offsetY) / 16 = cy by omega,
    show ((((g.offsetY + 16 * cy + ly : Nat) : Int) - g.offsetY) % 16).toNat = ly by omega]

theorem picture_outside {g : Screen} (t : Terminal) {x y : Nat}
    (h : x < g.offsetX ∨ g.offsetX + 8 * g.maxX ≤ x ∨ g.offsetY + 16 * g.maxY ≤ y) :
    picture font color g t x y = color 0 := by
  unfold picture
  dsimp only
  rw [if_neg (by omega)]

/-- Up by two rows is up by 32 pixel lines, wherever the rows begin. -/
theorem picture_scroll {g : Screen} (hg : g.Fits) (t : Terminal) (x y : Nat) :
    picture font color g (t.scroll g.maxY) x y
      = if y + 32 < g.height then picture font color g t x (y + 32) else color 0 := by
  have hbottom := hg.bottom
  have hrow : (((y + 32 : Nat) : Int) - g.offsetY) / 16 = ((y : Int) - g.offsetY) / 16 + 2 := by
    omega
  have hline : (((y + 32 : Nat) : Int) - g.offsetY) % 16 = ((y : Int) - g.offsetY) % 16 := by
    omega
  unfold picture Terminal.scroll
  dsimp only
  rw [hrow, hline]
  by_cases hin : (g.offsetX ≤ x ∧ x < g.offsetX + 8 * g.maxX)
      ∧ ((y : Int) - g.offsetY) / 16 + 2 < g.maxY
  · rw [if_pos ⟨hin.1, by omega⟩, if_pos (show y + 32 < g.height by omega), if_pos hin,
      if_pos hin.2]
  · rw [if_neg hin, ite_self]
    by_cases hold : (g.offsetX ≤ x ∧ x < g.offsetX + 8 * g.maxX)
        ∧ ((y : Int) - g.offsetY) / 16 < g.maxY
    · rw [if_pos hold, if_neg (fun hr => hin ⟨hold.1, hr⟩)]
      rfl
    · rw [if_neg hold]

/-- A character in a cell is its glyph there. -/
theorem picture_put {g : Screen} (t : Terminal) (c : UInt8) (x y : Nat) (hrow : t.row < g.maxY)
    (hcol : t.col < g.maxX) :
    picture font color g
        { t with text := fun r k => if r = (t.row : Int) ∧ k = t.col then some c else t.text r k }
        x y
      = if (t.col * 8 + g.offsetX ≤ x ∧ x < t.col * 8 + g.offsetX + 8)
            ∧ (t.row * 16 + g.offsetY ≤ y ∧ y < t.row * 16 + g.offsetY + 16)
        then color (fontPixel font c (x - (t.col * 8 + g.offsetX)) (y - (t.row * 16 + g.offsetY)))
        else picture font color g t x y := by
  unfold picture
  dsimp only
  by_cases hcell : (t.col * 8 + g.offsetX ≤ x ∧ x < t.col * 8 + g.offsetX + 8)
      ∧ (t.row * 16 + g.offsetY ≤ y ∧ y < t.row * 16 + g.offsetY + 16)
  · have hr : ((y : Int) - g.offsetY) / 16 = t.row := by omega
    have hk : (x - g.offsetX) / 8 = t.col := by omega
    have hlx : (x - g.offsetX) % 8 = x - (t.col * 8 + g.offsetX) := by omega
    have hly : (((y : Int) - g.offsetY) % 16).toNat = y - (t.row * 16 + g.offsetY) := by omega
    rw [if_pos hcell, if_pos (by omega), if_pos ⟨hr, hk⟩, hlx, hly]
    rfl
  · rw [if_neg hcell]
    by_cases hin : (g.offsetX ≤ x ∧ x < g.offsetX + 8 * g.maxX)
        ∧ ((y : Int) - g.offsetY) / 16 < g.maxY
    · rw [if_pos hin, if_pos hin, if_neg (by omega)]
    · rw [if_neg hin, if_neg hin]

/-! ### One character -/

/-- The screen shows the terminal's text. -/
structure Displays (s : Console) (t : Terminal) : Prop where
  fits : s.screen.Fits
  pixels : ∀ x < s.width, ∀ y < s.height, s.pixel x y = picture font color s.screen t x y

/-- And the cursors agree, inside the grid. -/
structure Shows (s : Console) (t : Terminal) : Prop extends Displays font color s t where
  row : s.cursorY = t.row
  col : s.cursorX = t.col
  rowLt : t.row < s.maxY
  colLt : t.col < s.maxX

variable {font color}
variable {s : Console} {t : Terminal}

/-- Where the cursors are does not show. -/
theorem Displays.moved (h : Displays font color s t) (x y row col : Nat) :
    Displays font color { s with cursorX := x, cursorY := y } { t with row := row, col := col } :=
  ⟨h.fits, h.pixels⟩

theorem newline_shows (h : Displays font color s t) (hrow : s.cursorY = t.row)
    (hlt : t.row < s.maxY) :
    Shows font color (newline color s) (t.newline s.maxY) := by
  have hcols : 0 < s.maxX := h.fits.cols
  have hrows : 2 ≤ s.maxY := h.fits.rows
  unfold newline Terminal.newline
  dsimp only
  by_cases hscroll : t.row + 1 < s.maxY
  · rw [if_neg (by omega), if_pos hscroll]
    exact { h.moved 0 (s.cursorY + 1) (t.row + 1) 0 with
            row := by simp [hrow], col := rfl, rowLt := hscroll, colLt := hcols }
  · rw [if_pos (by omega), if_neg hscroll]
    have hheight : 32 * 1 ≤ s.height := by
      have hbottom : s.offsetY + 16 * s.maxY ≤ s.height := h.fits.bottom
      omega
    refine { fits := h.fits, pixels := ?_, row := by simp [scroll32, hrow], col := rfl,
             rowLt := ?_, colLt := hcols }
    · intro x hx y hy
      refine (scroll32_pixel color h.fits.tiled hheight hx hy).trans ?_
      refine Eq.trans ?_ (picture_scroll font color h.fits t x y).symm
      by_cases hin : y + 32 < s.height
      · rw [if_pos hin, if_pos (show y + 32 < s.screen.height from hin)]
        exact h.pixels x hx (y + 32) hin
      · rw [if_neg hin, if_neg (show ¬ y + 32 < s.screen.height from hin)]
    · show t.row + 1 - 2 < s.maxY
      omega

@[simp] theorem drawChar_cursorX (x y : Nat) (c : UInt8) :
    (drawChar font color s x y c).cursorX = s.cursorX := rfl

@[simp] theorem drawChar_maxX (x y : Nat) (c : UInt8) :
    (drawChar font color s x y c).maxX = s.maxX := rfl

theorem drawChar_displays (h : Shows font color s t) (c : UInt8) :
    Displays font color
      (drawChar font color s (s.cursorX * 8 + s.offsetX) (s.cursorY * 16 + s.offsetY) c)
      { t with text := fun r k => if r = (t.row : Int) ∧ k = t.col then some c else t.text r k } := by
  refine ⟨h.fits, ?_⟩
  intro x hx y hy
  have hright : s.offsetX + 8 * s.maxX ≤ s.width := h.fits.right
  have hcol := h.colLt
  have hglyph : t.col * 8 + s.offsetX + 8 ≤ s.width := by omega
  rw [h.row, h.col]
  refine (drawChar_pixel font color h.fits.tiled c hglyph hx).trans ?_
  rw [h.pixels x hx y hy]
  exact (picture_put font color (g := s.screen) t c x y h.rowLt h.colLt).symm

/-- **A character keeps the screen in step with the terminal.** -/
theorem putchImpl_shows (h : Shows font color s t) {c : UInt8} (htab : c ≠ 0x09) :
    Shows font color (putchImpl font color s c) (t.put s.maxX s.maxY c) := by
  have hcols : 0 < s.maxX := h.fits.cols
  unfold putchImpl Terminal.put
  rw [if_neg htab]
  dsimp only
  by_cases hcr : c = 0x0D
  · rw [if_pos hcr, if_pos hcr]
    exact { h with col := rfl, colLt := hcols }
  · rw [if_neg hcr, if_neg hcr]
    by_cases hlf : c = 0x0A
    · rw [if_pos hlf, if_pos hlf]
      exact newline_shows h.toDisplays h.row h.rowLt
    · rw [if_neg hlf, if_neg hlf]
      have hdraw := (drawChar_displays h c).moved (s.cursorX + 1) s.cursorY t.row (t.col + 1)
      have hcol := h.col
      rw [drawChar_cursorX, drawChar_maxX]
      by_cases hwrap : t.col + 1 < s.maxX
      · rw [if_neg (by omega), if_pos hwrap]
        exact { hdraw with row := h.row, col := congrArg (· + 1) hcol, rowLt := h.rowLt,
                           colLt := hwrap }
      · rw [if_pos (by omega), if_neg hwrap]
        exact newline_shows hdraw h.row h.rowLt

/-! ### A text -/

theorem putChars_shows {cs : List UInt8} (htabs : 0x09 ∉ cs) (h : Shows font color s t) :
    Shows font color (putChars font color s cs) (cs.foldl (Terminal.put s.maxX s.maxY) t) := by
  induction cs generalizing s t with
  | nil => exact h
  | cons c cs ih =>
      rw [List.mem_cons, not_or] at htabs
      have hstep := putchImpl_shows h (Ne.symm htabs.1)
      have hscreen := putchImpl_screen font color s c
      have hmaxX : (putchImpl font color s c).maxX = s.maxX := congrArg Screen.maxX hscreen
      have hmaxY : (putchImpl font color s c).maxY = s.maxY := congrArg Screen.maxY hscreen
      have hrest := ih htabs.2 hstep
      rw [hmaxX, hmaxY] at hrest
      exact hrest

/-! ### The start -/

theorem init_fits (fb : Mem UInt32) {w h : Nat}
    (hw : 2 * (init color (atBoot fb) w h).offsetX + 8 ≤ w)
    (hh : 2 * (init color (atBoot fb) w h).offsetY + 32 ≤ h) :
    (init color (atBoot fb) w h).screen.Fits := by
  unfold init clrscr atBoot at hw hh ⊢
  simp only [Nat.shiftLeft_eq, Nat.shiftRight_eq_div_pow, Nat.reducePow] at hw hh ⊢
  by_cases hsmall : (h + 31) / 32 * 32 ≤ 576
  · simp only [if_pos hsmall] at hw hh ⊢
    constructor <;> simp only [Console.screen] <;> omega
  · simp only [if_neg hsmall] at hw hh ⊢
    constructor <;> simp only [Console.screen] <;> omega

theorem init_shows (fb : Mem UInt32) {w h : Nat}
    (hw : 2 * (init color (atBoot fb) w h).offsetX + 8 ≤ w)
    (hh : 2 * (init color (atBoot fb) w h).offsetY + 32 ≤ h) :
    Shows font color (init color (atBoot fb) w h) Terminal.blank := by
  have hfits := init_fits fb hw hh
  refine { fits := hfits, pixels := ?_, row := rfl, col := rfl,
           rowLt := Nat.lt_of_lt_of_le (by decide) hfits.rows,
           colLt := Nat.lt_of_lt_of_le (by decide) hfits.cols }
  intro x hx y hy
  rw [picture_blank]
  exact clrscr_pixel hfits.tiled hx hy

variable (font color)

theorem console_shows (fb : Mem UInt32) {w h : Nat} {cs : List UInt8}
    (hw : 2 * (init color (atBoot fb) w h).offsetX + 8 ≤ w)
    (hh : 2 * (init color (atBoot fb) w h).offsetY + 32 ≤ h) (htabs : 0x09 ∉ cs) :
    Shows font color (putChars font color (init color (atBoot fb) w h) cs)
      (Terminal.after (init color (atBoot fb) w h).maxX (init color (atBoot fb) w h).maxY cs) :=
  putChars_shows htabs (init_shows fb hw hh)

theorem console_pixel (fb : Mem UInt32) {w h : Nat} {cs : List UInt8}
    (hw : 2 * (init color (atBoot fb) w h).offsetX + 8 ≤ w)
    (hh : 2 * (init color (atBoot fb) w h).offsetY + 32 ≤ h) (htabs : 0x09 ∉ cs) {x y : Nat}
    (hx : x < (init color (atBoot fb) w h).width) (hy : y < (init color (atBoot fb) w h).height) :
    (putChars font color (init color (atBoot fb) w h) cs).pixel x y
      = picture font color (init color (atBoot fb) w h).screen
          (Terminal.after (init color (atBoot fb) w h).maxX (init color (atBoot fb) w h).maxY cs)
          x y := by
  have hshows := console_shows font color fb hw hh htabs
  have hscreen := putChars_screen font color (init color (atBoot fb) w h) cs
  have hwidth := congrArg Screen.width hscreen
  have hheight := congrArg Screen.height hscreen
  rw [← hscreen]
  exact hshows.pixels x (Nat.lt_of_lt_of_eq hx hwidth.symm) y (Nat.lt_of_lt_of_eq hy hheight.symm)

/-- **The console is the terminal.**  The text area shows the terminal's cells, and the cursor is
the terminal's, inside the grid.  To the left and right of the text area and below it the screen
is background; above it, the lines that have scrolled off go on upwards. -/
theorem console_refines_terminal (fb : Mem UInt32) (w h : Nat) (cs : List UInt8)
    (hw : 2 * (init color (atBoot fb) w h).offsetX + 8 ≤ w)
    (hh : 2 * (init color (atBoot fb) w h).offsetY + 32 ≤ h) (htabs : 0x09 ∉ cs) :
    let s₀ := init color (atBoot fb) w h
    let s := putChars font color s₀ cs
    let t := Terminal.after s₀.maxX s₀.maxY cs
    (∀ cx < s₀.maxX, ∀ cy < s₀.maxY, ∀ lx < 8, ∀ ly < 16,
        s.pixel (s₀.offsetX + 8 * cx + lx) (s₀.offsetY + 16 * cy + ly)
          = glyph font color (t.text cy cx) lx ly)
      ∧ (∀ x < s₀.width, ∀ y < s₀.height,
          x < s₀.offsetX ∨ s₀.offsetX + 8 * s₀.maxX ≤ x ∨ s₀.offsetY + 16 * s₀.maxY ≤ y →
            s.pixel x y = color 0)
      ∧ (∀ cx < s₀.maxX, ∀ lx < 8, ∀ y < s₀.offsetY,
          s.pixel (s₀.offsetX + 8 * cx + lx) y
            = glyph font color (t.text (((y : Int) - s₀.offsetY) / 16) cx) lx
                (((y : Int) - s₀.offsetY) % 16).toNat)
      ∧ s.cursorX = t.col ∧ s.cursorY = t.row ∧ s.cursorX < s₀.maxX ∧ s.cursorY < s₀.maxY := by
  intro s₀ s t
  have hfits : s₀.screen.Fits := init_fits fb hw hh
  have hshows : Shows font color s t := console_shows font color fb hw hh htabs
  have hscreen : s.screen = s₀.screen := putChars_screen font color s₀ cs
  have hpixel : ∀ x < s₀.width, ∀ y < s₀.height,
      s.pixel x y = picture font color s₀.screen t x y :=
    fun x hx y hy => console_pixel font color fb hw hh htabs hx hy
  have hright : s₀.offsetX + 8 * s₀.maxX ≤ s₀.width := hfits.right
  have hbottom : s₀.offsetY + 16 * s₀.maxY ≤ s₀.height := hfits.bottom
  refine ⟨?_, ?_, ?_, hshows.col, hshows.row, ?_, ?_⟩
  · intro cx hcx cy hcy lx hlx ly hly
    rw [hpixel _ (by omega) _ (by omega)]
    exact picture_cell font color t hcx hcy hlx hly
  · intro x hx y hy hout
    rw [hpixel x hx y hy]
    exact picture_outside font color t hout
  · intro cx hcx lx hlx y hy
    rw [hpixel _ (by omega) _ (by omega)]
    exact picture_column font color t hcx hlx (Nat.lt_of_lt_of_le hy (Nat.le_add_right _ _))
  · rw [hshows.col]
    exact Nat.lt_of_lt_of_eq hshows.colLt (congrArg Screen.maxX hscreen)
  · rw [hshows.row]
    exact Nat.lt_of_lt_of_eq hshows.rowLt (congrArg Screen.maxY hscreen)

end Picture

/-- The font as far as it is used below: character 0xDB is a solid block. -/
def blockFont : Mem UInt8 := fun i => if i / 16 = 0xDB then 0xFF else 0

/-- At 640x480, twenty-two newlines and as many blocks as a row has, and one more: the row wraps and
goes up by two, and the last block stands at the start of the next row, with the cursor behind it. -/
theorem console_refines_terminal_block :
    let s₀ := init xenosColor (atBoot fun _ => 0) 640 480
    let s := putChars blockFont xenosColor s₀ (List.replicate 22 0x0A ++ List.replicate 68 0xDB)
    s₀.maxX = 67 ∧ s₀.maxY = 23 ∧ s.pixel 578 370 = 0xFF96A300 ∧ s.pixel 50 386 = 0xFF96A300 ∧
      s.pixel 58 386 = 0xD8444E00 ∧ s.cursorX = 1 ∧ s.cursorY = 21 := by
  intro s₀ s
  obtain ⟨hcells, -, -, hcol, hrow, -⟩ := console_refines_terminal blockFont xenosColor (fun _ => 0)
    640 480 (List.replicate 22 0x0A ++ List.replicate 68 0xDB) (by decide) (by decide) (by decide)
  have hwrapped := hcells 66 (by decide) 20 (by decide) 0 (by decide) 0 (by decide)
  have hlast := hcells 0 (by decide) 21 (by decide) 0 (by decide) 0 (by decide)
  have hbehind := hcells 1 (by decide) 21 (by decide) 0 (by decide) 0 (by decide)
  refine ⟨by decide, by decide, hwrapped.trans ?_, hlast.trans ?_, hbehind.trans ?_, hcol.trans ?_,
    hrow.trans ?_⟩
  · decide +kernel
  · decide +kernel
  · decide +kernel
  · decide +kernel
  · decide +kernel

/-- A block at the top of a 640x480 screen, and newlines until it scrolls off: it stands in the
upper margin, outside the text area. -/
theorem margin_keeps_text :
    let s₀ := init xenosColor (atBoot fun _ => 0) 640 480
    let cs := 0xDB :: List.replicate 23 0x0A
    let s := putChars blockFont xenosColor s₀ cs
    2 * s₀.offsetX + 8 ≤ 640 ∧ 2 * s₀.offsetY + 32 ≤ 480 ∧ 0x09 ∉ cs
      ∧ 50 < s₀.width ∧ 20 < s₀.height ∧ 20 < s₀.offsetY ∧ s.pixel 50 20 ≠ xenosColor 0 := by
  intro s₀ cs s
  have hw : 2 * s₀.offsetX + 8 ≤ 640 := by decide
  have hh : 2 * s₀.offsetY + 32 ≤ 480 := by decide
  have htabs : 0x09 ∉ cs := by decide
  refine ⟨hw, hh, htabs, by decide, by decide, by decide, ?_⟩
  have hpixel := console_pixel blockFont xenosColor (fun _ => 0) hw hh htabs
    (show 50 < s₀.width by decide) (show 20 < s₀.height by decide)
  rw [hpixel]
  decide +kernel

end Xell.Xenos
