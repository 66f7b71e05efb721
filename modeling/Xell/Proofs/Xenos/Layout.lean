/-
The framebuffer of `xenos.c`, read in pixel coordinates.

On a screen that is a whole number of tiles wide, a pixel's place is 1024 times the number of
its tile plus a place inside the tile (`base_tile`), and the place inside the tile tells the
pixel (`untile_place`).  So different pixels of the screen have different places, and a row of
tiles is one block of the framebuffer.  What the drawing and scrolling loops do to the
framebuffer then becomes what they do to the picture: `pset32` changes one pixel, `drawLines` a
rectangle, and `scroll32` moves the picture up by 32 lines for each row of tiles.
-/
import Xell.Xenos

namespace Xell.Xenos

/-! ### Places -/

/-- The place of a pixel inside its tile. -/
def place (x y : Nat) : Nat :=
  (x % 4 + y % 2 * 4 + x / 4 * 8 + y / 2 * 64) ^^^ (y / 8 % 2 * 32)

/-- The pixel at a place of a tile. -/
def untile (p : Nat) : Nat × Nat :=
  let q := p ^^^ (p / 256 % 2 * 32)
  (q / 8 % 8 * 4 + q % 4, p / 64 * 2 + p / 4 % 2)

theorem place_lt {x y : Nat} (hx : x < 32) (hy : y < 32) : place x y < 1024 := by
  unfold place
  exact Nat.xor_lt_two_pow (n := 10) (by omega) (by omega)

theorem untile_place : ∀ y < 32, ∀ x < 32, untile (place x y) = (x, y) := by
  decide +kernel

theorem and_eight (y : Nat) : y &&& 8 = y / 8 % 2 * 8 := by
  have hdiv : (y &&& 8) / 2 ^ 3 = y / 8 % 2 := by
    rw [Nat.and_div_two_pow]
    exact Nat.and_two_pow_sub_one_eq_mod (y / 8) 1
  have hmod : (y &&& 8) % 2 ^ 3 = 0 := by
    rw [Nat.and_mod_two_pow]
    exact Nat.and_zero _
  rw [← Nat.div_add_mod (y &&& 8) (2 ^ 3), hdiv, hmod]
  exact Nat.mul_comm _ _

/-- An exclusive or below bit `n` leaves the rest alone. -/
theorem mul_add_xor (n a : Nat) {b c : Nat} (hb : b < 2 ^ n) (hc : c < 2 ^ n) :
    (2 ^ n * a + b) ^^^ c = 2 ^ n * a + (b ^^^ c) := by
  have hdiv : ((2 ^ n * a + b) ^^^ c) / 2 ^ n = a := by
    rw [Nat.xor_div_two_pow, Nat.div_eq_of_lt hc, Nat.xor_zero,
      Nat.mul_add_div (Nat.two_pow_pos n), Nat.div_eq_of_lt hb, Nat.add_zero]
  have hmod : ((2 ^ n * a + b) ^^^ c) % 2 ^ n = b ^^^ c := by
    rw [Nat.xor_mod_two_pow, Nat.mul_add_mod, Nat.mod_eq_of_lt hb, Nat.mod_eq_of_lt hc]
  rw [← Nat.div_add_mod ((2 ^ n * a + b) ^^^ c) (2 ^ n), hdiv, hmod]

/-- The tile of a pixel, row by row, and its place there. -/
theorem base_tile (k x y : Nat) :
    base (32 * k) x y = 1024 * (y / 32 * k + x / 32) + place (x % 32) (y % 32) := by
  have h3 : x &&& 3 = x % 4 := Nat.and_two_pow_sub_one_eq_mod x 2
  have h1 : y &&& 1 = y % 2 := Nat.and_two_pow_sub_one_eq_mod y 1
  have hx : x &&& 31 = x % 32 := Nat.and_two_pow_sub_one_eq_mod x 5
  have hy : y &&& 31 = y % 32 := Nat.and_two_pow_sub_one_eq_mod y 5
  unfold base place
  rw [h3, h1, hx, hy, and_eight]
  simp only [Nat.shiftLeft_eq, Nat.shiftRight_eq_div_pow, Nat.reducePow]
  have hsum : y / 32 * 32 * (32 * k) + x / 32 * 1024 + x % 4 + y % 2 * 4
        + x % 32 / 4 * 8 + y % 32 / 2 * 64
      = 2 ^ 10 * (y / 32 * k + x / 32)
        + (x % 32 % 4 + y % 32 % 2 * 4 + x % 32 / 4 * 8 + y % 32 / 2 * 64) := by
    have hassoc : y / 32 * 32 * (32 * k) = 1024 * (y / 32 * k) := by ring
    rw [hassoc]
    omega
  rw [hsum, show y / 8 % 2 * 8 * 4 = y % 32 / 8 % 2 * 32 by omega]
  exact mul_add_xor 10 _ (by omega) (by omega)

/-- **Different pixels of the screen have different places.** -/
theorem base_inj {k x y x' y' : Nat} (hx : x < 32 * k) (hx' : x' < 32 * k)
    (h : base (32 * k) x y = base (32 * k) x' y') : x = x' ∧ y = y' := by
  rw [base_tile, base_tile] at h
  have hp := place_lt (Nat.mod_lt x (by decide : 0 < 32)) (Nat.mod_lt y (by decide : 0 < 32))
  have hp' := place_lt (Nat.mod_lt x' (by decide : 0 < 32)) (Nat.mod_lt y' (by decide : 0 < 32))
  have htile : y / 32 * k + x / 32 = y' / 32 * k + x' / 32 := by omega
  have hplace : place (x % 32) (y % 32) = place (x' % 32) (y' % 32) := by omega
  -- inside the tile
  have hin := untile_place (y % 32) (Nat.mod_lt _ (by decide)) (x % 32) (Nat.mod_lt _ (by decide))
  rw [hplace, untile_place _ (Nat.mod_lt _ (by decide)) _ (Nat.mod_lt _ (by decide))] at hin
  obtain ⟨hxin, hyin⟩ := Prod.mk.inj hin
  -- and which tile it is
  have hk : 0 < k := by omega
  have hcol : x / 32 < k := by omega
  have hcol' : x' / 32 < k := by omega
  have hrow : y / 32 = y' / 32 := by
    have hdiv := congrArg (· / k) htile
    simp only [Nat.mul_comm _ k, Nat.mul_add_div hk, Nat.div_eq_of_lt hcol,
      Nat.div_eq_of_lt hcol', Nat.add_zero] at hdiv
    exact hdiv
  rw [hrow] at htile
  omega

/-- The pixels of a row of tiles lie in one block. -/
theorem base_block {k x y : Nat} (hx : x < 32 * k) :
    32 * (32 * k) * (y / 32) ≤ base (32 * k) x y
      ∧ base (32 * k) x y < 32 * (32 * k) * (y / 32 + 1) := by
  rw [base_tile]
  have hp := place_lt (Nat.mod_lt x (by decide : 0 < 32)) (Nat.mod_lt y (by decide : 0 < 32))
  have hrow : 32 * (32 * k) * (y / 32) = 1024 * (y / 32 * k) := by ring
  rw [Nat.mul_succ, hrow]
  omega

/-- `n` rows of tiles further down, a pixel is `n` blocks further on. -/
theorem base_down (k x y n : Nat) :
    base (32 * k) x (y + 32 * n) = base (32 * k) x y + 32 * (32 * k) * n := by
  rw [base_tile, base_tile, Nat.add_mul_div_left y n (by decide), Nat.add_mul_mod_self_left]
  ring

theorem base_lt {k m x y : Nat} (hx : x < 32 * k) (hy : y < 32 * m) :
    base (32 * k) x y < 32 * k * (32 * m) := by
  have hblock := (base_block (y := y) hx).2
  calc base (32 * k) x y < 32 * (32 * k) * (y / 32 + 1) := hblock
    _ ≤ 32 * (32 * k) * m := Nat.mul_le_mul_left _ (by omega)
    _ = 32 * k * (32 * m) := by ring

theorem place_untile : ∀ p < 1024, place (untile p).1 (untile p).2 = p ∧
    (untile p).1 < 32 ∧ (untile p).2 < 32 := by
  decide +kernel

/-- The pixels with places in block `t`. -/
theorem base_surj {k t i : Nat} (hlo : 32 * (32 * k) * t ≤ i) (hhi : i < 32 * (32 * k) * (t + 1)) :
    ∃ x y, x < 32 * k ∧ y / 32 = t ∧ base (32 * k) x y = i := by
  have hblock : 32 * (32 * k) * t = 1024 * (t * k) := by ring
  have hnext : 32 * (32 * k) * (t + 1) = 1024 * (t * k + k) := by ring
  rw [hblock] at hlo
  rw [hnext] at hhi
  obtain ⟨hplace, hx, hy⟩ := place_untile (i % 1024) (Nat.mod_lt _ (by decide))
  -- which tile of the row it is
  obtain ⟨c, hc⟩ : ∃ c, i / 1024 = t * k + c := ⟨i / 1024 - t * k, by omega⟩
  refine ⟨32 * c + (untile (i % 1024)).1, 32 * t + (untile (i % 1024)).2, by omega, by omega, ?_⟩
  rw [base_tile, Nat.mul_add_div (by decide), Nat.mul_add_div (by decide), Nat.mul_add_mod,
    Nat.mul_add_mod, Nat.div_eq_of_lt hx, Nat.div_eq_of_lt hy, Nat.mod_eq_of_lt hx,
    Nat.mod_eq_of_lt hy, hplace, Nat.add_zero, Nat.add_zero, ← hc]
  exact Nat.div_add_mod i 1024

/-- The pixels of a row of tiles fill one block. -/
theorem base_bijOn_row (k t : Nat) :
    Set.BijOn (fun p : Nat × Nat => base (32 * k) p.1 p.2)
      {p | p.1 < 32 * k ∧ p.2 / 32 = t}
      (Set.Ico (32 * (32 * k) * t) (32 * (32 * k) * (t + 1))) := by
  refine ⟨?_, ?_, ?_⟩
  · rintro ⟨x, y⟩ ⟨hx, rfl⟩
    exact base_block hx
  · rintro ⟨x, y⟩ ⟨hx, -⟩ ⟨x', y'⟩ ⟨hx', -⟩ heq
    obtain ⟨rfl, rfl⟩ := base_inj hx hx' heq
    rfl
  · rintro i ⟨hlo, hhi⟩
    obtain ⟨x, y, hx, hy, hbase⟩ := base_surj hlo hhi
    exact ⟨(x, y), ⟨hx, hy⟩, hbase⟩

/--
**The tiled layout is a bijection.**  On a screen of whole tiles the places of the pixels are the
numbers below `width * height`, each once, and those of the rows with `y >> 5 = t` are a block.
-/
theorem layout_bijective {width height : Nat} (hw : 0 < width) (hw' : width % 32 = 0)
    (hh : 0 < height) (hh' : height % 32 = 0) :
    Set.BijOn (fun p : Nat × Nat => base width p.1 p.2)
        {p | p.1 < width ∧ p.2 < height} (Set.Iio (width * height)) ∧
      ∀ t, t * 32 < height →
        Set.BijOn (fun p : Nat × Nat => base width p.1 p.2)
          {p | p.1 < width ∧ p.2 < height ∧ p.2 >>> 5 = t}
          (Set.Ico (t * 32 * width) ((t + 1) * 32 * width)) := by
  obtain ⟨k, rfl⟩ : ∃ k, width = 32 * k := ⟨width / 32, by omega⟩
  obtain ⟨m, rfl⟩ : ∃ m, height = 32 * m := ⟨height / 32, by omega⟩
  refine ⟨⟨?_, ?_, ?_⟩, fun t ht => ?_⟩
  · rintro ⟨x, y⟩ ⟨hx, hy⟩
    exact base_lt hx hy
  · rintro ⟨x, y⟩ ⟨hx, -⟩ ⟨x', y'⟩ ⟨hx', -⟩ heq
    obtain ⟨rfl, rfl⟩ := base_inj hx hx' heq
    rfl
  · intro i hi
    have hi' : i < 32 * k * (32 * m) := hi
    have hblock : 0 < 32 * (32 * k) := by omega
    have hdiv := Nat.div_add_mod i (32 * (32 * k))
    have hmod := Nat.mod_lt i hblock
    obtain ⟨x, y, hx, hy, hbase⟩ := base_surj (k := k) (t := i / (32 * (32 * k)))
      (i := i) (by omega) (by rw [Nat.mul_succ]; omega)
    refine ⟨(x, y), ⟨hx, ?_⟩, hbase⟩
    have hrow : i / (32 * (32 * k)) < m := by
      rw [Nat.div_lt_iff_lt_mul hblock]
      calc i < 32 * k * (32 * m) := hi'
        _ = m * (32 * (32 * k)) := by ring
    show y < 32 * m
    omega
  · have hrow := base_bijOn_row k t
    have hset : {p : Nat × Nat | p.1 < 32 * k ∧ p.2 < 32 * m ∧ p.2 >>> 5 = t}
        = {p | p.1 < 32 * k ∧ p.2 / 32 = t} := by
      ext ⟨x, y⟩
      simp only [Set.mem_ofPred_eq, Nat.shiftRight_eq_div_pow, Nat.reducePow]
      omega
    rw [hset, show t * 32 * (32 * k) = 32 * (32 * k) * t by ring,
      show (t + 1) * 32 * (32 * k) = 32 * (32 * k) * (t + 1) by ring]
    exact hrow

/-- At 640x480, with the exclusive or in the lower right corner. -/
theorem layout_bijective_vga :
    Set.BijOn (fun p : Nat × Nat => base 640 p.1 p.2) {p | p.1 < 640 ∧ p.2 < 480}
      (Set.Iio 307200) ∧ base 640 639 479 = 307167 :=
  ⟨(layout_bijective (by decide : 0 < 640) (by decide) (by decide : 0 < 480) (by decide)).1,
    by decide⟩

/-! ### Drawing -/

/-- `pset32` changes one pixel of the screen. -/
theorem pset32_pixel {k x y x' y' : Nat} (fb : Mem UInt32) (c : UInt32)
    (hx : x < 32 * k) (hx' : x' < 32 * k) :
    pset32 (32 * k) fb x y c (base (32 * k) x' y')
      = if x' = x ∧ y' = y then c else fb (base (32 * k) x' y') := by
  unfold pset32
  by_cases h : x' = x ∧ y' = y
  · obtain ⟨rfl, rfl⟩ := h
    rw [if_pos ⟨rfl, rfl⟩, Function.update_self]
  · rw [if_neg h, Function.update_of_ne]
    intro heq
    exact h (base_inj hx' hx heq)

section Draw

variable (font : Mem UInt8) (color : Nat → UInt32)

/-- A glyph line, as far as it is drawn. -/
theorem drawLine_pixel {k x y x' y' : Nat} (c : UInt8) (ly : Nat) (fb : Mem UInt32) (n : Nat)
    (hx : x + n ≤ 32 * k) (hx' : x' < 32 * k) :
    drawLine font color (32 * k) x y c ly fb n (base (32 * k) x' y')
      = if (x ≤ x' ∧ x' < x + n) ∧ y' = y + ly then color (fontPixel font c (x' - x) ly)
        else fb (base (32 * k) x' y') := by
  induction n with
  | zero => rw [drawLine, if_neg (by omega)]
  | succ n ih =>
      rw [drawLine, pset32_pixel _ _ (by omega) hx', ih (by omega)]
      by_cases hnew : x' = x + n ∧ y' = y + ly
      · rw [if_pos hnew, if_pos (by omega), show x' - x = n by omega]
      · rw [if_neg hnew]
        by_cases hold : (x ≤ x' ∧ x' < x + n) ∧ y' = y + ly
        · rw [if_pos hold, if_pos (by omega)]
        · rw [if_neg hold, if_neg (by omega)]

/-- A glyph, as far as it is drawn: line by line. -/
theorem drawLines_pixel {k x y x' y' : Nat} (c : UInt8) (fb : Mem UInt32) (n : Nat)
    (hx : x + 8 ≤ 32 * k) (hx' : x' < 32 * k) :
    drawLines font color (32 * k) x y c fb n (base (32 * k) x' y')
      = if (x ≤ x' ∧ x' < x + 8) ∧ (y ≤ y' ∧ y' < y + n)
        then color (fontPixel font c (x' - x) (y' - y)) else fb (base (32 * k) x' y') := by
  induction n with
  | zero => rw [drawLines, if_neg (by omega)]
  | succ n ih =>
      rw [drawLines, drawLine_pixel font color c n _ 8 hx hx', ih]
      by_cases hnew : (x ≤ x' ∧ x' < x + 8) ∧ y' = y + n
      · rw [if_pos hnew, if_pos (by omega), show y' - y = n by omega]
      · rw [if_neg hnew]
        by_cases hold : (x ≤ x' ∧ x' < x + 8) ∧ (y ≤ y' ∧ y' < y + n)
        · rw [if_pos hold, if_pos (by omega)]
        · rw [if_neg hold, if_neg (by omega)]

end Draw

/-! ### Screens of whole tiles -/

/-- The screen is a whole number of tiles wide and high. -/
structure Console.Tiled (s : Console) : Prop where
  width : s.width % 32 = 0
  height : s.height % 32 = 0
  size : s.size = s.width * s.height

theorem Console.Tiled.blocks {s : Console} (h : s.Tiled) :
    s.width = 32 * (s.width / 32) ∧ s.height = 32 * (s.height / 32) := by
  have hw := h.width
  have hh := h.height
  omega

theorem Console.Tiled.base_lt_size {s : Console} (h : s.Tiled) {x y : Nat} (hx : x < s.width)
    (hy : y < s.height) : base s.width x y < s.size := by
  obtain ⟨hw, hh⟩ := h.blocks
  rw [h.size, hw, hh]
  exact base_lt (by omega) (by omega)

/-- `drawChar` draws one glyph. -/
theorem drawChar_pixel (font : Mem UInt8) (color : Nat → UInt32) {s : Console} (h : s.Tiled)
    {x y x' y' : Nat} (c : UInt8) (hx : x + 8 ≤ s.width) (hx' : x' < s.width) :
    (drawChar font color s x y c).pixel x' y'
      = if (x ≤ x' ∧ x' < x + 8) ∧ (y ≤ y' ∧ y' < y + 16)
        then color (fontPixel font c (x' - x) (y' - y)) else s.pixel x' y' := by
  unfold drawChar Console.pixel
  dsimp only
  rw [h.blocks.1] at hx hx' ⊢
  exact drawLines_pixel font color c s.fb 16 hx hx'

theorem clrscr_pixel {s : Console} {bgra : UInt32} (h : (clrscr s bgra).Tiled) {x y : Nat}
    (hx : x < (clrscr s bgra).width) (hy : y < (clrscr s bgra).height) :
    (clrscr s bgra).pixel x y = bgra := by
  have hat := Mem.store_at s.fb 0 (fun _ => bgra) (h.base_lt_size hx hy)
  rw [Nat.zero_add] at hat
  exact hat

/-! ### Scrolling -/

/-- The copying loop, with `n` of the blocks copied already: every block still to be copied ends
up `lines` blocks further up, for a copied block is never read again. -/
theorem scrollBlocks_at (bs lines m : Nat) (fb : Mem UInt32) (n i : Nat) :
    scrollBlocks bs (32 * m) lines fb (lines + n) i
      = if bs * n ≤ i ∧ i < bs * (m - lines) then fb (i + bs * lines) else fb i := by
  -- on the number of blocks still to be copied
  induction hd : m - (lines + n) generalizing n fb with
  | zero =>
      have hmul : bs * (m - lines) ≤ bs * n := Nat.mul_le_mul_left bs (by omega)
      rw [scrollBlocks, if_neg (by omega), if_neg (by omega)]
  | succ d ih =>
      have hmul : bs * (n + 1) ≤ bs * (m - lines) := Nat.mul_le_mul_left bs (by omega)
      have hsucc : bs * (n + 1) = bs * n + bs := Nat.mul_succ bs n
      have hsum : bs * (lines + n) = bs * lines + bs * n := Nat.mul_add bs lines n
      rw [scrollBlocks, if_pos (by omega), Nat.add_sub_cancel_left, Nat.add_assoc lines n 1,
        ih _ (n + 1) (by omega)]
      by_cases hlater : bs * (n + 1) ≤ i ∧ i < bs * (m - lines)
      · rw [if_pos hlater, if_pos (by omega), Mem.store_outside _ _ (by omega)]
      · rw [if_neg hlater]
        by_cases hthis : bs * n ≤ i ∧ i < bs * n + bs
        · obtain ⟨j, rfl⟩ := Nat.exists_eq_add_of_le hthis.1
          rw [Mem.store_at _ _ _ (by omega), if_pos (by omega)]
          congr 1
          omega
        · rw [Mem.store_outside _ _ (by omega), if_neg (by omega)]

/-- **Scrolling moves the picture.**  Up by 32 lines for each row of tiles, and background comes
in at the bottom. -/
theorem scroll32_pixel (color : Nat → UInt32) {s : Console} (h : s.Tiled) {lines x y : Nat}
    (hlines : 32 * lines ≤ s.height) (hx : x < s.width) (hy : y < s.height) :
    (scroll32 color s lines).pixel x y
      = if y + 32 * lines < s.height then s.pixel x (y + 32 * lines) else color 0 := by
  obtain ⟨hw, hh⟩ := h.blocks
  have hsize := h.size
  unfold scroll32 Console.pixel
  dsimp only
  generalize s.width / 32 = k at hw
  generalize s.height / 32 = m at hh
  rw [hsize, hw, hh]
  rw [hw] at hx
  have hblock := base_block (y := y) hx
  rw [Nat.mul_comm 32 (32 * k)] at hblock
  have hrest : 32 * k * (32 * m) - 32 * k * 32 * lines = 32 * k * 32 * (m - lines) := by
    rw [← Nat.mul_assoc, Nat.mul_sub]
  have hfull : 32 * k * 32 * (m - lines) + 32 * k * 32 * lines = 32 * k * 32 * m := by
    rw [← Nat.mul_add, Nat.sub_add_cancel (by omega)]
  rw [hrest]
  by_cases hlow : y + 32 * lines < 32 * m
  · have hend : 32 * k * 32 * (y / 32 + 1) ≤ 32 * k * 32 * (m - lines) :=
      Nat.mul_le_mul_left _ (by omega)
    rw [if_pos hlow, Mem.store_outside _ _ (by omega), base_down]
    have hcopy := scrollBlocks_at (32 * k * 32) lines m s.fb 0 (base (32 * k) x y)
    rw [Nat.add_zero, Nat.mul_zero, if_pos (by omega)] at hcopy
    rw [hcopy, Nat.mul_comm 32 (32 * k)]
  · have hstart : 32 * k * 32 * (m - lines) ≤ 32 * k * 32 * (y / 32) :=
      Nat.mul_le_mul_left _ (by omega)
    have hstop : 32 * k * 32 * (y / 32 + 1) ≤ 32 * k * 32 * m :=
      Nat.mul_le_mul_left _ (by omega)
    rw [if_neg hlow]
    obtain ⟨j, hj⟩ := Nat.exists_eq_add_of_le (hstart.trans hblock.1)
    rw [hj, Mem.store_at _ _ _ (by omega)]

end Xell.Xenos
