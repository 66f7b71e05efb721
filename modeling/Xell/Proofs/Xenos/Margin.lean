/-
Where the console of `xenos.c` draws.

`xenos_putch_impl` looks at the right margin after it has drawn a character, and a carriage
return or a newline goes back to the first column.  A tab goes right without a look at the
margin: to the next multiple of 8, which can be past the last column.  It does no harm until a
character is drawn there, so a text stays on the screen exactly if each of its tabs that a
character follows finds a column (`TabsFit`).

Whether a screen is safe whatever the text is a matter of its width alone: the last column has
to be a multiple of 8, so that no tab has to go beyond it.
-/
import Xell.Proofs.Xenos.Console

namespace Xell.Xenos

/-- The characters that are drawn. -/
def isGlyph (c : UInt8) : Bool := c ≠ 0x09 && c ≠ 0x0D && c ≠ 0x0A

/-- The column a tab goes to. -/
def tabStop (x : Nat) : Nat := ((x + 7) >>> 3) <<< 3

theorem tabStop_eq (x : Nat) : tabStop x = (x + 7) / 8 * 8 := by
  unfold tabStop
  rw [Nat.shiftLeft_eq, Nat.shiftRight_eq_div_pow]

/-- Whether the next character that is not a tab is drawn. -/
def nextDrawn : List UInt8 → Bool
  | [] => false
  | c :: cs => if c = 0x09 then nextDrawn cs else isGlyph c

/-- The glyph at a text position is on the screen, with all of its pixels, and these are in the
framebuffer. -/
structure Screen.Inside (g : Screen) (d : Nat × Nat) : Prop where
  col : d.1 < g.maxX
  row : d.2 < g.maxY
  pixels : ∀ lx < 8, ∀ ly < 16,
    let x := d.1 * 8 + g.offsetX + lx
    let y := d.2 * 16 + g.offsetY + ly
    x < g.width ∧ y < g.height ∧ base g.width x y < g.size

theorem Screen.Fits.inside {s : Console} (h : s.screen.Fits) {d : Nat × Nat} (hcol : d.1 < s.maxX)
    (hrow : d.2 < s.maxY) : s.screen.Inside d := by
  refine ⟨hcol, hrow, fun lx hlx ly hly => ?_⟩
  have hright : s.offsetX + 8 * s.maxX ≤ s.width := h.right
  have hbottom : s.offsetY + 16 * s.maxY ≤ s.height := h.bottom
  have hx : d.1 * 8 + s.offsetX + lx < s.width := by omega
  have hy : d.2 * 16 + s.offsetY + ly < s.height := by omega
  exact ⟨hx, hy, h.tiled.base_lt_size hx hy⟩

section Margin

variable (font : Mem UInt8) (color : Nat → UInt32)

/-- The calls of `xenos_draw_char` while a text is put: the cursor at each of them. -/
def drawn (s : Console) : List UInt8 → List (Nat × Nat)
  | [] => []
  | c :: cs =>
      (if isGlyph c then [(s.cursorX, s.cursorY)] else []) ++ drawn (putchImpl font color s c) cs

/-- Every tab that a character follows, other tabs apart, is put where the next multiple of 8 is
a column. -/
def TabsFit (s : Console) : List UInt8 → Prop
  | [] => True
  | c :: cs =>
      (c = 0x09 → nextDrawn cs = true → tabStop s.cursorX < s.maxX) ∧
        TabsFit (putchImpl font color s c) cs

/-! ### The cursor after one character -/

variable {font color} {s : Console} {c : UInt8} {cs : List UInt8}

/-- The calls of `drawn` are those of the model. -/
theorem putchImpl_glyph (h : isGlyph c = true) :
    putchImpl font color s c =
      (let s' := drawChar font color s (s.cursorX * 8 + s.offsetX) (s.cursorY * 16 + s.offsetY) c
       if s.cursorX + 1 ≥ s.maxX then newline color { s' with cursorX := s.cursorX + 1 }
       else { s' with cursorX := s.cursorX + 1 }) := by
  unfold isGlyph at h
  simp only [ne_eq, decide_not, Bool.and_eq_true, Bool.not_eq_eq_eq_not, Bool.not_true,
    decide_eq_false_iff_not] at h
  unfold putchImpl
  rw [if_neg h.1.1, if_neg h.1.2, if_neg h.2]
  rfl

theorem newline_cursorX (s : Console) : (newline color s).cursorX = 0 := by
  unfold newline
  dsimp only
  split
  · rfl
  · rfl

theorem newline_cursorY (hrow : s.cursorY < s.maxY) (hrows : 2 ≤ s.maxY) :
    (newline color s).cursorY < s.maxY := by
  unfold newline
  dsimp only
  split
  · show s.cursorY + 1 - 2 < s.maxY
    omega
  · show s.cursorY + 1 < s.maxY
    omega

theorem putchImpl_tab : putchImpl font color s 0x09 = { s with cursorX := tabStop s.cursorX } := by
  unfold putchImpl
  rw [if_pos rfl]
  rfl

/-- The row stays on the screen. -/
theorem putchImpl_row (hrow : s.cursorY < s.maxY) (hrows : 2 ≤ s.maxY) :
    (putchImpl font color s c).cursorY < s.maxY := by
  unfold putchImpl
  dsimp only
  split
  · exact hrow
  split
  · exact hrow
  split
  · exact newline_cursorY hrow hrows
  split
  · exact newline_cursorY (s := { s with fb := _, cursorX := s.cursorX + 1 }) hrow hrows
  · exact hrow

/-- So does the column, unless a tab is put. -/
theorem putchImpl_col (hcols : 1 ≤ s.maxX) (htab : c ≠ 0x09) :
    (putchImpl font color s c).cursorX < s.maxX := by
  unfold putchImpl
  rw [if_neg htab]
  dsimp only
  split
  · exact hcols
  split
  · rw [newline_cursorX]
    exact hcols
  split
  · rw [newline_cursorX]
    exact hcols
  · rename_i hwrap
    exact Nat.lt_of_not_le hwrap

theorem putchImpl_maxX : (putchImpl font color s c).maxX = s.maxX :=
  congrArg Screen.maxX (putchImpl_screen font color s c)

theorem putchImpl_maxY : (putchImpl font color s c).maxY = s.maxY :=
  congrArg Screen.maxY (putchImpl_screen font color s c)

/-! ### Texts -/

/-- While the tabs fit, every character is drawn on the screen.  Past the last column there is
only a cursor that the next character takes back. -/
theorem drawn_inside (hcols : 1 ≤ s.maxX) (hrows : 2 ≤ s.maxY) (hrow : s.cursorY < s.maxY)
    (hcol : nextDrawn cs = true → s.cursorX < s.maxX) (h : TabsFit font color s cs) :
    ∀ d ∈ drawn font color s cs, d.1 < s.maxX ∧ d.2 < s.maxY := by
  induction cs generalizing s with
  | nil => simp [drawn]
  | cons c cs ih =>
      obtain ⟨htab, hrest⟩ := h
      have hstep : nextDrawn cs = true → (putchImpl font color s c).cursorX < s.maxX := by
        intro hnext
        by_cases hc : c = 0x09
        · subst hc
          rw [putchImpl_tab]
          exact htab rfl hnext
        · exact putchImpl_col hcols hc
      have hlater : ∀ d ∈ drawn font color (putchImpl font color s c) cs,
          d.1 < s.maxX ∧ d.2 < s.maxY := by
        have := ih (s := putchImpl font color s c) (by rwa [putchImpl_maxX])
          (by rwa [putchImpl_maxY]) (by rw [putchImpl_maxY]; exact putchImpl_row hrow hrows)
          (by rwa [putchImpl_maxX]) hrest
        rwa [putchImpl_maxX, putchImpl_maxY] at this
      intro d hd
      rw [drawn, List.mem_append] at hd
      rcases hd with hnow | hd
      · split at hnow
        · rename_i hglyph
          obtain rfl := List.mem_singleton.mp hnow
          refine ⟨hcol ?_, hrow⟩
          unfold nextDrawn
          rw [if_neg (fun hc => by rw [hc] at hglyph; exact absurd hglyph (by decide))]
          exact hglyph
        · simp at hnow
      · exact hlater d hd

/-- A character that tabs lead to is drawn at their column: a second tab does not move on. -/
theorem drawn_next (h8 : s.cursorX % 8 = 0) (hnext : nextDrawn cs = true) :
    (s.cursorX, s.cursorY) ∈ drawn font color s cs := by
  induction cs generalizing s with
  | nil => simp [nextDrawn] at hnext
  | cons c cs ih =>
      unfold nextDrawn at hnext
      rw [drawn, List.mem_append]
      by_cases hc : c = 0x09
      · subst hc
        rw [if_pos rfl] at hnext
        have hstay : tabStop s.cursorX = s.cursorX := by
          rw [tabStop_eq]
          omega
        rw [putchImpl_tab, hstay]
        exact Or.inr (ih h8 hnext)
      · rw [if_neg hc] at hnext
        rw [if_pos hnext]
        exact Or.inl (List.mem_singleton.mpr rfl)

theorem tabsFit_of_drawn (h : ∀ d ∈ drawn font color s cs, d.1 < s.maxX) :
    TabsFit font color s cs := by
  induction cs generalizing s with
  | nil => trivial
  | cons c cs ih =>
      have hlater : ∀ d ∈ drawn font color (putchImpl font color s c) cs, d.1 < s.maxX :=
        fun d hd => h d (by rw [drawn]; exact List.mem_append_right _ hd)
      refine ⟨?_, ih (by rwa [putchImpl_maxX])⟩
      rintro rfl hnext
      rw [putchImpl_tab] at hlater
      refine hlater _ (drawn_next (s := { s with cursorX := tabStop s.cursorX }) ?_ hnext)
      show tabStop s.cursorX % 8 = 0
      rw [tabStop_eq]
      exact Nat.mul_mod_left _ _

/-! ### Screens on which every text fits -/

/-- If the last column is a multiple of 8, no tab goes beyond it. -/
theorem tabsFit_of_width (h8 : s.maxX % 8 = 1) (hrows : 2 ≤ s.maxY) (hrow : s.cursorY < s.maxY)
    (hcol : s.cursorX < s.maxX) : TabsFit font color s cs := by
  induction cs generalizing s with
  | nil => trivial
  | cons c cs ih =>
      have hstop : tabStop s.cursorX < s.maxX := by
        rw [tabStop_eq]
        omega
      refine ⟨fun _ _ => hstop, ih ?_ ?_ ?_ ?_⟩
      · rwa [putchImpl_maxX]
      · rwa [putchImpl_maxY]
      · rw [putchImpl_maxY]
        exact putchImpl_row hrow hrows
      · rw [putchImpl_maxX]
        by_cases hc : c = 0x09
        · subst hc
          rw [putchImpl_tab]
          exact hstop
        · exact putchImpl_col (by omega) hc

/-- Characters up to the last column, a tab and another character. -/
def overhang (n : Nat) : List UInt8 := List.replicate n 0x41 ++ [0x09, 0x41]

theorem overhang_not_fit {n : Nat} (hn : s.cursorX + n + 1 = s.maxX) (h8 : s.maxX % 8 ≠ 1) :
    ¬ TabsFit font color s (overhang n) := by
  induction n generalizing s with
  | zero =>
      rintro ⟨htab, -⟩
      have hstop := htab rfl rfl
      rw [tabStop_eq] at hstop
      omega
  | succ n ih =>
      rintro ⟨-, hrest⟩
      have hstep : (putchImpl font color s 0x41).cursorX = s.cursorX + 1 := by
        rw [putchImpl_glyph (by decide)]
        dsimp only
        rw [if_neg (by omega)]
      refine ih (s := putchImpl font color s 0x41) ?_ ?_ hrest
      · rw [hstep, putchImpl_maxX]
        omega
      · rwa [putchImpl_maxX]

variable (font color)

/--
**When the console draws on the screen.**  A text is drawn inside the text area, and in the
framebuffer, exactly if every tab that a character follows finds a column.  Every text is, exactly
if the last column is a multiple of 8.
-/
theorem drawn_inside_iff (fb : Mem UInt32) (w h : Nat)
    (hw : 2 * (init color (atBoot fb) w h).offsetX + 8 ≤ w)
    (hh : 2 * (init color (atBoot fb) w h).offsetY + 32 ≤ h) :
    let s₀ := init color (atBoot fb) w h
    (∀ cs, (∀ d ∈ drawn font color s₀ cs, s₀.screen.Inside d) ↔ TabsFit font color s₀ cs) ∧
      ((∀ cs, ∀ d ∈ drawn font color s₀ cs, s₀.screen.Inside d) ↔ s₀.maxX % 8 = 1) := by
  intro s₀
  have hfits : s₀.screen.Fits := init_fits fb hw hh
  have hcols : 1 ≤ s₀.maxX := hfits.cols
  have hrows : 2 ≤ s₀.maxY := hfits.rows
  have hrow : s₀.cursorY < s₀.maxY := Nat.lt_of_lt_of_le (by decide : 0 < 2) hrows
  have hcol : s₀.cursorX < s₀.maxX := hcols
  have hiff : ∀ cs, (∀ d ∈ drawn font color s₀ cs, s₀.screen.Inside d) ↔
      TabsFit font color s₀ cs := by
    intro cs
    constructor
    · intro hin
      exact tabsFit_of_drawn fun d hd => (hin d hd).col
    · intro hfit d hd
      obtain ⟨hx, hy⟩ := drawn_inside hcols hrows hrow (fun _ => hcol) hfit d hd
      exact hfits.inside hx hy
  refine ⟨hiff, ⟨fun hall => ?_, fun h8 cs => (hiff cs).mpr (tabsFit_of_width h8 hrows hrow hcol)⟩⟩
  by_contra h8
  have hlast : s₀.cursorX + (s₀.maxX - 1) + 1 = s₀.maxX := by
    show 0 + (s₀.maxX - 1) + 1 = s₀.maxX
    omega
  exact overhang_not_fit hlast h8 ((hiff _).mp (hall _))

end Margin

/-- At 640x480 a tab from the second column, and the character behind it. -/
theorem drawn_inside_vga :
    let s₀ := init xenosColor (atBoot fun _ => 0) 640 480
    s₀.maxX = 67 ∧ ∀ d ∈ drawn blockFont xenosColor s₀ [0x41, 0x09, 0x41], s₀.screen.Inside d := by
  intro s₀
  refine ⟨by decide, ((drawn_inside_iff blockFont xenosColor (fun _ => 0) 640 480 (by decide)
    (by decide)).1 _).mpr ⟨?_, ?_, ?_, trivial⟩⟩
  · decide
  · intro _ _
    decide
  · decide

/-- At 1024x768 a tab from the last column goes off the screen, and in the last row the character
behind it is drawn behind the framebuffer. -/
theorem tab_leaves_screen :
    let s₀ := init xenosColor (atBoot fun _ => 0) 1024 768
    2 * s₀.offsetX + 8 ≤ 1024 ∧ 2 * s₀.offsetY + 32 ≤ 768 ∧
      (128, 47) ∈ drawn blockFont xenosColor s₀ (List.replicate 47 0x0A ++ overhang 127) ∧
      ¬ s₀.screen.Inside (128, 47) ∧ s₀.maxX = 128 ∧
      s₀.size ≤ base s₀.width (128 * 8 + s₀.offsetX) (47 * 16 + s₀.offsetY) := by
  intro s₀
  refine ⟨by decide, by decide, by decide +kernel, fun h => ?_, by decide, by decide⟩
  exact absurd h.col (by decide)

end Xell.Xenos
