/-
Formats as lists of directives.

A format is read character by character, with flags, a width, a precision and a qualifier in front
of every conversion.  `Piece` is what its author means: a character, or a directive with all its
parts.  `Piece.run` is what a piece does, and `vsprintf_pieces` says that a format which is written
from pieces does what the pieces do, one after the other.

What makes this true is that no part of a directive can be taken for the next one: a zero is a flag
and no width begins with one, and a conversion is no flag, digit, star, point or qualifier.  A number
in a format has to be an `int`.
-/
import Xell.Proofs.Vsprintf.Number

namespace Xell.Vsprintf

/-! ### Pieces -/

inductive Flag where
  | left
  | plus
  | space
  | special
  | zeropad

def Flag.char : Flag → UInt8
  | .left => chr '-'
  | .plus => chr '+'
  | .space => chr ' '
  | .special => chr '#'
  | .zeropad => chr '0'

def Flag.set (flags : Flags) : Flag → Flags
  | .left => { flags with left := true }
  | .plus => { flags with plus := true }
  | .space => { flags with space := true }
  | .special => { flags with special := true }
  | .zeropad => { flags with zeropad := true }

/-- A width or a precision: a number, or the next argument. -/
inductive Amount where
  | number (n : Nat)
  | star

inductive Qualifier where
  | h
  | l
  | L

def Qualifier.char : Qualifier → UInt8
  | .h => chr 'h'
  | .l => chr 'l'
  | .L => chr 'L'

/-- The digits of a number, the highest first. -/
def decimalText (n : Nat) : List UInt8 := (Nat.toDigits 10 n).map chr

def Amount.text : Amount → List UInt8
  | .number n => decimalText n
  | .star => [chr '*']

/-- A character of a format, or a directive. -/
inductive Piece where
  | char (c : UInt8)
  | directive (flags : List Flag) (width : Option Amount) (precision : Option (Option Amount))
      (qualifier : Option Qualifier) (c : UInt8)

/-- A piece as it stands in a format. -/
def Piece.text : Piece → List UInt8
  | .char c => [c]
  | .directive flags width precision qualifier c =>
      chr '%' :: (flags.map Flag.char ++ ((width.map Amount.text).getD []
        ++ ((precision.map fun p => chr '.' :: (p.map Amount.text).getD []).getD []
          ++ ((qualifier.map fun q => [q.char]).getD [] ++ [c]))))

/-- The characters that are part of a directive, but end none. -/
def inner (c : UInt8) : Bool :=
  c = chr '-' || c = chr '+' || c = chr ' ' || c = chr '#' || isDigit c || c = chr '*' ||
    c = chr '.' || c = chr 'h' || c = chr 'l' || c = chr 'L'

/-- Whether a number is an `int`. -/
def Amount.fits : Amount → Bool
  | .number n => n < 2 ^ 31
  | .star => true

/-- A piece that can be told from what is around it, and does not end the format. -/
def Piece.Ok : Piece → Prop
  | .char c => c ≠ chr '%' ∧ c ≠ 0
  | .directive _ width precision _ c =>
      width ≠ some (.number 0) ∧ width.all Amount.fits = true ∧
        precision.all (·.all Amount.fits) = true ∧ inner c = false ∧ c ≠ 0

/-- The field width, and the flags: a negative one is a flag too. -/
def runWidth (width : Option Amount) (flags : Flags) (args : List Arg) :
    Option (Int × Flags × List Arg) :=
  match width with
  | none => some (-1, flags, args)
  | some (.number n) => some (n, flags, args)
  | some .star => do
      let (v, args) ← vaInt args
      if v.toInt < 0 then some ((-v).toInt, { flags with left := true }, args)
      else some (v.toInt, flags, args)

def runPrecision (precision : Option (Option Amount)) (args : List Arg) : Option (Int × List Arg) :=
  match precision with
  | none => some (-1, args)
  | some none => some (0, args)
  | some (some (.number n)) => some (n, args)
  | some (some .star) => do
      let (v, args) ← vaInt args
      some (max v.toInt 0, args)

/-- What a piece does. -/
def Piece.run (st : List Arg × Out) : Piece → Option (List Arg × Out)
  | .char c => some (st.1, st.2.put [c])
  | .directive flags width precision qualifier c => do
      let (fieldWidth, flags, args) ← runWidth width (flags.foldl Flag.set noFlags) st.1
      let (precision, args) ← runPrecision precision args
      conversion ⟨flags, fieldWidth, precision, qualifier.map Qualifier.char⟩ c args st.2

/-! ### Numbers in a format -/

theorem isDigit_chr : ∀ d < 10, isDigit (chr (Nat.digitChar d)) = true ∧
    (chr (Nat.digitChar d)).toNat = 48 + d := by
  decide

theorem decimalText_of_lt {n : Nat} (h : n < 10) : decimalText n = [chr (Nat.digitChar n)] := by
  unfold decimalText
  rw [Nat.toDigits_of_lt_base h]
  rfl

theorem decimalText_of_le {n : Nat} (h : 10 ≤ n) :
    decimalText n = decimalText (n / 10) ++ [chr (Nat.digitChar (n % 10))] := by
  unfold decimalText
  rw [Nat.toDigits_of_base_le (by decide) h, List.map_append]
  rfl

/-- A number is read digit by digit. -/
theorem skipAtoi_decimalText (n : Nat) : ∀ rest,
    skipAtoi (decimalText n ++ rest) 0 = skipAtoi rest (BitVec.ofNat 32 n) := by
  induction n using Nat.strong_induction_on with
  | _ n ih =>
      intro rest
      have hread : ∀ d < 10, ∀ i : Nat,
          skipAtoi (chr (Nat.digitChar d) :: rest) (BitVec.ofNat 32 i)
            = skipAtoi rest (BitVec.ofNat 32 (i * 10 + d)) := by
        intro d hd i
        obtain ⟨hdigit, hvalue⟩ := isDigit_chr d hd
        rw [skipAtoi, if_pos hdigit, hvalue]
        congr 1
        show BitVec.ofNat 32 i * BitVec.ofNat 32 10 + BitVec.ofNat 32 (48 + d) - BitVec.ofNat 32 48
          = _
        rw [← BitVec.ofNat_mul, ← BitVec.ofNat_add, show i * 10 + (48 + d) = i * 10 + d + 48 by omega,
          BitVec.ofNat_add _ 48, BitVec.add_sub_cancel]
      by_cases hn : n < 10
      · rw [decimalText_of_lt hn, List.singleton_append]
        exact (hread n hn 0).trans (by rw [Nat.zero_mul, Nat.zero_add])
      · rw [decimalText_of_le (by omega), List.append_assoc, ih (n / 10) (by omega),
          List.singleton_append, hread _ (Nat.mod_lt n (by decide))]
        congr 2
        omega

theorem skipAtoi_stop {rest : List UInt8} (h : isDigit (rest.headD 0) = false) (n : BitVec 32) :
    skipAtoi rest n = (n, rest) := by
  cases rest with
  | nil => rfl
  | cons c rest =>
      have hc : isDigit c = false := h
      simp [skipAtoi, hc]

/-- What is read of a number that is an `int`. -/
theorem skipAtoi_number {n : Nat} (hn : n < 2 ^ 31) {rest : List UInt8}
    (h : isDigit (rest.headD 0) = false) :
    ((skipAtoi (decimalText n ++ rest) 0).1.toInt, (skipAtoi (decimalText n ++ rest) 0).2)
      = ((n : Int), rest) := by
  rw [skipAtoi_decimalText, skipAtoi_stop h]
  have hval : (BitVec.ofNat 32 n).toInt = n := by
    have hnat : (BitVec.ofNat 32 n).toNat = n := by
      rw [BitVec.toNat_ofNat]
      exact Nat.mod_eq_of_lt (by omega)
    rw [BitVec.toInt_eq_toNat_of_lt (by omega), hnat]
  rw [hval]

/-- A number begins with a digit, which is zero only for zero. -/
theorem decimalText_head (n : Nat) : ∃ c s, decimalText n = c :: s ∧ isDigit c = true ∧
    (n ≠ 0 → c ≠ chr '0') := by
  induction n using Nat.strong_induction_on with
  | _ n ih =>
      by_cases hn : n < 10
      · refine ⟨chr (Nat.digitChar n), [], decimalText_of_lt hn, (isDigit_chr n hn).1, ?_⟩
        intro h0 hc
        have hvalue := (isDigit_chr n hn).2
        rw [hc] at hvalue
        have : (chr '0').toNat = 48 := rfl
        omega
      · obtain ⟨c, s, heq, hdigit, hne⟩ := ih (n / 10) (by omega)
        refine ⟨c, s ++ [chr (Nat.digitChar (n % 10))], ?_, hdigit, fun _ => hne (by omega)⟩
        rw [decimalText_of_le (by omega), heq]
        rfl

/-! ### The parts of a directive -/

/-- The five flags. -/
def isFlag (c : UInt8) : Bool :=
  c = chr '-' || c = chr '+' || c = chr ' ' || c = chr '#' || c = chr '0'

theorem readFlags_text {rest : List UInt8} (h : isFlag (rest.headD 0) = false) (fs : List Flag) :
    ∀ flags, readFlags (fs.map Flag.char ++ rest) flags = (fs.foldl Flag.set flags, rest) := by
  induction fs with
  | nil =>
      intro flags
      cases rest with
      | nil => rfl
      | cons c rest =>
          have hc : isFlag c = false := h
          simp only [isFlag, Bool.or_eq_false_iff, decide_eq_false_iff_not] at hc
          obtain ⟨⟨⟨⟨h₁, h₂⟩, h₃⟩, h₄⟩, h₅⟩ := hc
          simp [readFlags, h₁, h₂, h₃, h₄, h₅]
  | cons f fs ih =>
      intro flags
      rw [List.map_cons, List.cons_append, List.foldl_cons]
      have hstep : readFlags (f.char :: (fs.map Flag.char ++ rest)) flags
          = readFlags (fs.map Flag.char ++ rest) (f.set flags) := by
        cases f <;> rfl
      rw [hstep, ih]

theorem readWidth_text {width : Option Amount} {rest : List UInt8}
    (hfits : width.all Amount.fits = true) (hdigit : isDigit (rest.headD 0) = false)
    (hstar : rest.headD 0 ≠ chr '*') (flags : Flags) (args : List Arg) :
    readWidth ((width.map Amount.text).getD [] ++ rest) flags args
      = (runWidth width flags args).map fun q => (q.1, q.2.1, rest, q.2.2) := by
  match width with
  | none =>
      show readWidth rest flags args = _
      rw [readWidth, if_neg (ne_true_of_eq_false hdigit), if_neg hstar]
      rfl
  | some (.number n) =>
      obtain ⟨c, s, heq, hc, -⟩ := decimalText_head n
      have hhead : isDigit ((decimalText n ++ rest).headD 0) = true := by
        rw [heq]
        exact hc
      have hskip := Prod.mk.inj (skipAtoi_number (of_decide_eq_true hfits) hdigit)
      show readWidth (decimalText n ++ rest) flags args = _
      rw [readWidth, if_pos hhead, hskip.1, hskip.2]
      rfl
  | some .star =>
      have hdig : isDigit (chr '*') = false := by decide
      simp only [Option.map_some, Option.getD_some, Amount.text, List.singleton_append, readWidth,
        List.headD_cons, hdig, Bool.false_eq_true, if_false, if_true, List.tail_cons, runWidth]
      cases vaInt args with
      | none => rfl
      | some q =>
          show (if q.1.toInt < 0 then _ else _) = Option.map _ (if q.1.toInt < 0 then _ else _)
          split <;> rfl

theorem readPrecision_text {precision : Option (Option Amount)} {rest : List UInt8}
    (hfits : precision.all (·.all Amount.fits) = true) (hpoint : rest.headD 0 ≠ chr '.')
    (hdigit : isDigit (rest.headD 0) = false)
    (hstar : rest.headD 0 ≠ chr '*') (args : List Arg) :
    readPrecision ((precision.map fun p => chr '.' :: (p.map Amount.text).getD []).getD [] ++ rest)
      args = (runPrecision precision args).map fun q => (q.1, rest, q.2) := by
  match precision with
  | none =>
      show readPrecision rest args = _
      rw [readPrecision, if_neg hpoint]
      rfl
  | some none =>
      show readPrecision (chr '.' :: rest) args = _
      rw [readPrecision, List.headD_cons, if_pos rfl, List.tail_cons]
      dsimp only
      rw [if_neg (ne_true_of_eq_false hdigit), if_neg hstar]
      rfl
  | some (some (.number n)) =>
      obtain ⟨c, s, heq, hc, -⟩ := decimalText_head n
      have hhead : isDigit ((decimalText n ++ rest).headD 0) = true := by
        rw [heq]
        exact hc
      have hskip := Prod.mk.inj (skipAtoi_number (of_decide_eq_true hfits) hdigit)
      show readPrecision (chr '.' :: (decimalText n ++ rest)) args = _
      rw [readPrecision, List.headD_cons, if_pos rfl, List.tail_cons]
      dsimp only
      rw [if_pos hhead, hskip.1, hskip.2, max_eq_left (Int.natCast_nonneg n)]
      rfl
  | some (some .star) =>
      have hdig : isDigit (chr '*') = false := by decide
      simp only [Option.map_some, Option.getD_some, Amount.text, List.cons_append,
        List.nil_append, readPrecision, List.headD_cons, hdig, Bool.false_eq_true, if_false, if_true,
        List.tail_cons, runPrecision]
      cases vaInt args with
      | none => rfl
      | some q => rfl

theorem readQualifier_text {qualifier : Option Qualifier} {rest : List UInt8}
    (h : rest.headD 0 ≠ chr 'h' ∧ rest.headD 0 ≠ chr 'l' ∧ rest.headD 0 ≠ chr 'L') :
    readQualifier ((qualifier.map fun q => [q.char]).getD [] ++ rest)
      = (qualifier.map Qualifier.char, rest) := by
  match qualifier with
  | none =>
      show readQualifier rest = _
      rw [readQualifier, if_neg (by tauto)]
      rfl
  | some .h => rfl
  | some .l => rfl
  | some .L => rfl

/-! ### Whole formats -/

theorem inner_eq_false {c : UInt8} (h : inner c = false) : isFlag c = false ∧ isDigit c = false ∧
    c ≠ chr '*' ∧ c ≠ chr '.' ∧ c ≠ chr 'h' ∧ c ≠ chr 'l' ∧ c ≠ chr 'L' := by
  simp only [inner, Bool.or_eq_false_iff, decide_eq_false_iff_not] at h
  obtain ⟨⟨⟨⟨⟨⟨⟨⟨⟨h₁, h₂⟩, h₃⟩, h₄⟩, h₅⟩, h₆⟩, h₇⟩, h₈⟩, h₉⟩, h₁₀⟩ := h
  have hzero : c ≠ chr '0' := by
    rintro rfl
    exact absurd h₅ (by decide)
  simp [isFlag, h₁, h₂, h₃, h₄, hzero, h₅, h₆, h₇, h₈, h₉, h₁₀]

/-- A directive is read as it was written. -/
theorem directive_text {flags : List Flag} {width : Option Amount}
    {precision : Option (Option Amount)} {qualifier : Option Qualifier} {c : UInt8}
    (hok : (Piece.directive flags width precision qualifier c).Ok) (rest : List UInt8)
    (args : List Arg) (out : Out) :
    directive ((Piece.directive flags width precision qualifier c).text.tail ++ rest) args out
      = ((Piece.directive flags width precision qualifier c).run (args, out)).map (rest, ·) := by
  obtain ⟨hwidth, hwfits, hpfits, hc, -⟩ := hok
  obtain ⟨hflag, hdigit, hstar, hpoint, hh, hl, hL⟩ := inner_eq_false hc
  -- the first character of what is left when the parts in front were read
  have hq : ∃ x s, (qualifier.map fun q => [q.char]).getD [] ++ c :: rest = x :: s ∧
      isFlag x = false ∧ isDigit x = false ∧ x ≠ chr '*' ∧ x ≠ chr '.' := by
    match qualifier with
    | none => exact ⟨c, rest, rfl, hflag, hdigit, hstar, hpoint⟩
    | some q => exact ⟨q.char, c :: rest, rfl, by cases q <;> decide⟩
  obtain ⟨x, s, hqs, hxflag, hxdigit, hxstar, hxpoint⟩ := hq
  have hp : ∃ y t, (precision.map fun p => chr '.' :: (p.map Amount.text).getD []).getD []
      ++ ((qualifier.map fun q => [q.char]).getD [] ++ c :: rest) = y :: t ∧
      isFlag y = false ∧ isDigit y = false ∧ y ≠ chr '*' := by
    match precision with
    | none => exact ⟨x, s, hqs, hxflag, hxdigit, hxstar⟩
    | some p => exact ⟨chr '.', _, rfl, by decide⟩
  obtain ⟨y, t, hpt, hyflag, hydigit, hystar⟩ := hp
  have hw : ∃ z u, (width.map Amount.text).getD [] ++ (y :: t) = z :: u ∧ isFlag z = false := by
    match width with
    | none => exact ⟨y, t, rfl, hyflag⟩
    | some .star => exact ⟨chr '*', _, rfl, by decide⟩
    | some (.number n) =>
        obtain ⟨z, u, heq, hz, hne⟩ := decimalText_head n
        have hz0 := hne fun h0 => hwidth (by rw [h0])
        refine ⟨z, u ++ y :: t, ?_, ?_⟩
        · show decimalText n ++ y :: t = _
          rw [heq]
          rfl
        · simp only [isFlag, Bool.or_eq_false_iff, decide_eq_false_iff_not]
          refine ⟨⟨⟨⟨?_, ?_⟩, ?_⟩, ?_⟩, hz0⟩ <;> rintro rfl <;> exact absurd hz (by decide)
  obtain ⟨z, u, hwu, hzflag⟩ := hw
  have htext : (Piece.directive flags width precision qualifier c).text.tail ++ rest
      = flags.map Flag.char ++ ((width.map Amount.text).getD []
        ++ ((precision.map fun p => chr '.' :: (p.map Amount.text).getD []).getD []
          ++ ((qualifier.map fun q => [q.char]).getD [] ++ c :: rest))) := by
    simp [Piece.text]
  rw [htext]
  unfold directive Piece.run
  rw [readFlags_text (by rw [hpt, hwu]; exact hzflag)]
  dsimp only
  rw [readWidth_text hwfits (by rw [hpt]; exact hydigit) (by rw [hpt]; exact hystar)]
  cases runWidth width (flags.foldl Flag.set noFlags) args with
  | none => rfl
  | some q =>
      obtain ⟨w, flags', args'⟩ := q
      dsimp only [Option.map_some, Option.bind_eq_bind, Option.bind_some]
      rw [readPrecision_text hpfits (by rw [hqs]; exact hxpoint) (by rw [hqs]; exact hxdigit)
        (by rw [hqs]; exact hxstar)]
      cases runPrecision precision args' with
      | none => rfl
      | some q =>
          obtain ⟨p, args''⟩ := q
          dsimp only [Option.map_some, Option.bind_some]
          have hqual : readQualifier ((qualifier.map fun q => [q.char]).getD [] ++ c :: rest)
              = (qualifier.map Qualifier.char, c :: rest) := readQualifier_text ⟨hh, hl, hL⟩
          rw [hqual]
          rfl

/-- The format that pieces make. -/
def format (ps : List Piece) : List UInt8 := ps.flatMap Piece.text

theorem loop_format (ps : List Piece) : (∀ p ∈ ps, p.Ok) → ∀ {fuel : Nat}, (format ps).length ≤ fuel →
    ∀ st : List Arg × Out, vsprintfLoop fuel (format ps) st.1 st.2
      = (ps.foldlM Piece.run st).map (·.2) := by
  induction ps with
  | nil =>
      intro _ fuel _ st
      cases fuel <;> rfl
  | cons p ps ih =>
      intro hok fuel hfuel st
      have hps : ∀ q ∈ ps, q.Ok := fun q hq => hok q (List.mem_cons_of_mem p hq)
      have hp := hok p (by simp)
      have hformat : format (p :: ps) = p.text ++ format ps := rfl
      rw [hformat] at hfuel ⊢
      rw [List.foldlM_cons]
      match p, hp with
      | .char c, hc =>
          have hc' : c ≠ chr '%' := hc.1
          obtain ⟨fuel, rfl⟩ : ∃ f, fuel = f + 1 := ⟨fuel - 1, by
            simp only [Piece.text, List.singleton_append, List.length_cons] at hfuel
            omega⟩
          simp only [Piece.text, List.singleton_append, List.length_cons] at hfuel ⊢
          rw [vsprintfLoop, if_pos hc']
          exact ih hps (by omega) (st.1, st.2.put [c])
      | .directive flags width precision qualifier c, hd =>
          have htext : (Piece.directive flags width precision qualifier c).text
              = chr '%' :: (Piece.directive flags width precision qualifier c).text.tail := rfl
          obtain ⟨fuel, rfl⟩ : ∃ f, fuel = f + 1 := ⟨fuel - 1, by
            rw [htext, List.cons_append, List.length_cons] at hfuel
            omega⟩
          rw [htext, List.cons_append] at hfuel ⊢
          rw [List.length_cons, List.length_append] at hfuel
          rw [vsprintfLoop, if_neg (by simp), directive_text hd]
          cases (Piece.directive flags width precision qualifier c).run (st.1, st.2) with
          | none => rfl
          | some st' => exact ih hps (by omega) st'

/-- **A format does what the pieces do that it was written from**, one after the other: every
directive is read with its parts, and takes its arguments in order. -/
theorem vsprintf_format (ps : List Piece) (hok : ∀ p ∈ ps, p.Ok) (args : List Arg) :
    vsprintf (format ps) args = (ps.foldlM Piece.run (args, ⟨[], []⟩)).map (·.2) :=
  loop_format ps hok (le_refl _) (args, ⟨[], []⟩)

theorem vsprintf_format_name : vsprintf
    (format [.directive [.left] (some (.number 5)) none none (chr 'd'), .char (chr '|'),
      .directive [] none (some (some .star)) none (chr 's')])
    [.word 42, .word 2, .str (some (text "xell"))] = some ⟨text "42   |xe", []⟩ := by
  rw [vsprintf_format _ (by simp [Piece.Ok]; decide)]
  rfl

/-! ### The fuses -/

def fusePieces : List Piece :=
  (text "fuseset ").map .char ++ [.directive [.zeropad] (some (.number 2)) none none (chr 'd')]
    ++ (text ": ").map .char
    ++ [.directive [.zeropad] (some (.number 16)) none (some .l) (chr 'x'), .char (chr '\n')]

/-- The flags of both directives. -/
def zeropad : Flags := { noFlags with zeropad := true }

/-- The number of a fuse, as it is printed. -/
def fuseIndex (i : Nat) : List UInt8 :=
  numberText (((BitVec.ofNat 64 i).setWidth 32).signExtend 64) 10 2 (-1) { zeropad with sign := true }

/-- The fuse itself. -/
def fuseValue (fuse : BitVec 64) : List UInt8 := numberText fuse 16 16 (-1) zeropad

def fuseLine (i : Nat) (fuse : BitVec 64) : List UInt8 :=
  text "fuseset " ++ fuseIndex i ++ text ": " ++ fuseValue fuse ++ [chr '\n']

theorem foldlM_chars (s : List UInt8) : ∀ st : List Arg × Out,
    (s.map Piece.char).foldlM Piece.run st = some (st.1, st.2.put s) := by
  induction s with
  | nil =>
      intro st
      simp [Out.put]
  | cons c s ih =>
      intro st
      rw [List.map_cons, List.foldlM_cons]
      show (s.map Piece.char).foldlM Piece.run (st.1, st.2.put [c]) = _
      rw [ih]
      simp [Out.put]

/-- One line of the dump. -/
theorem sprintf_fuse (i : Nat) (fuse : BitVec 64) :
    sprintf fuseFormat [.word (BitVec.ofNat 64 i), .word fuse] = some (fuseLine i fuse) := by
  have hformat : fuseFormat = format fusePieces := by decide +kernel
  have hok : ∀ p ∈ fusePieces, p.Ok := by simp [fusePieces, Piece.Ok, text]; decide
  have hindex : ∀ out args, Piece.run (.word (BitVec.ofNat 64 i) :: args, out)
      (.directive [.zeropad] (some (.number 2)) none none (chr 'd'))
      = some (args, out.put (fuseIndex i)) := fun _ _ => rfl
  have hvalue : ∀ out args, Piece.run (.word fuse :: args, out)
      (.directive [.zeropad] (some (.number 16)) none (some .l) (chr 'x'))
      = some (args, out.put (fuseValue fuse)) := fun _ _ => rfl
  have hend : ∀ st, Piece.run st (.char (chr '\n')) = some (st.1, st.2.put [chr '\n']) := fun _ => rfl
  unfold sprintf vsprintf
  rw [hformat, loop_format fusePieces hok (le_refl _) (_, ⟨[], []⟩)]
  unfold fusePieces
  simp only [List.foldlM_append, foldlM_chars, List.foldlM_cons, List.foldlM_nil, hindex, hvalue,
    hend, Option.bind_eq_bind, Option.bind_some, Option.pure_def, Option.map_some, Out.put,
    List.nil_append, fuseLine]

theorem fuseIndex_length : ∀ i < 12, (fuseIndex i).length = 2 := by decide +kernel

/-- A number in hexadecimal, filled up with zeros, takes the digits it is given. -/
theorem zeropad_length {num : BitVec 64} {n : Nat} (hn : 0 < n) (hnum : num.toNat < 16 ^ n) :
    (numberText num 16 n (-1) zeropad).length = n := by
  have hsign : numberSign num zeropad = ([], num) := rfl
  have hprefix : numberPrefix 16 zeropad = [] := rfl
  have hbody : (body num 16 zeropad).length ≤ n := by
    show (tmpDigits num 16 false).reverse.length ≤ n
    rw [List.length_reverse]
    exact tmpDigits_length_le (by decide) hn hnum false
  have hz : zeros num 16 (-1) zeropad = 0 := by simp [zeros]
  rw [numberText_length, hsign, hprefix]
  simp only [hz, List.length_nil]
  omega

/-- A fuse is sixteen digits. -/
theorem fuseValue_eq (fuse : BitVec 64) : ∃ k, fuseValue fuse
    = List.replicate k (chr '0') ++ (tmpDigits fuse 16 false).reverse ∧
      (fuseValue fuse).length = 16 := by
  have hsign : numberSign fuse zeropad = ([], fuse) := rfl
  have hprefix : numberPrefix 16 zeropad = [] := rfl
  have hbody : body fuse 16 zeropad = (tmpDigits fuse 16 false).reverse := rfl
  refine ⟨gap fuse 16 16 (-1) zeropad + zeros fuse 16 (-1) zeropad, ?_, ?_⟩
  · unfold fuseValue
    rw [numberText_eq, hsign, hprefix, hbody]
    simp [zeropad, noFlags, ← List.replicate_append_replicate]
  · exact zeropad_length (by decide) (fuse.isLt.trans_le (by norm_num))

theorem fuseLine_length {i : Nat} (hi : i < 12) (fuse : BitVec 64) : (fuseLine i fuse).length = 29 := by
  obtain ⟨-, -, hvalue⟩ := fuseValue_eq fuse
  have hindex := fuseIndex_length i hi
  have h₁ : (text "fuseset ").length = 8 := by decide
  have h₂ : (text ": ").length = 2 := by decide
  unfold fuseLine
  simp only [List.length_append, List.length_singleton, hvalue, hindex, h₁, h₂]

/-- A line is printable: it has no `%` and no zero. -/
theorem fuseLine_plain {i : Nat} (hi : i < 12) (fuse : BitVec 64) :
    ∀ c ∈ fuseLine i fuse, c ≠ chr '%' ∧ c ≠ 0 := by
  have htext : ∀ c ∈ text "fuseset " ++ text ": " ++ [chr '\n'], c ≠ chr '%' ∧ c ≠ 0 := by
    decide +kernel
  have hindex : ∀ i < 12, ∀ c ∈ fuseIndex i, c ≠ chr '%' ∧ c ≠ 0 := by decide +kernel
  have hdigit : ∀ d < 16, (digits false).getD d 0 ≠ chr '%' ∧ (digits false).getD d 0 ≠ 0 := by
    decide +kernel
  obtain ⟨k, hvalue, -⟩ := fuseValue_eq fuse
  obtain ⟨ds, hds, -, hlt, -⟩ := tmpDigits_reverse (show 2 ≤ 16 by decide) fuse false
  intro c hc
  unfold fuseLine at hc
  rw [hvalue, hds] at hc
  simp only [List.mem_append, List.mem_replicate, List.mem_map, List.mem_singleton] at hc
  rcases hc with (((hc | hc) | hc) | ⟨-, rfl⟩ | ⟨d, hd, rfl⟩) | rfl
  · exact htext c (by simp [hc])
  · exact hindex i hi c hc
  · exact htext c (by simp [hc])
  · decide
  · exact hdigit d (hlt d hd)
  · exact htext _ (by simp)

/-- The value in a line is read back. -/
theorem fuseLine_read {i : Nat} (hi : i < 12) (fuse : BitVec 64) (rest : List UInt8) :
    (simpleStrtoul ((fuseLine i fuse ++ rest).drop 12) 16).1 = fuse := by
  obtain ⟨k, hvalue, -⟩ := fuseValue_eq fuse
  have hfront : (text "fuseset " ++ fuseIndex i ++ text ": ").length = 12 := by
    have hindex := fuseIndex_length i hi
    have h₁ : (text "fuseset ").length = 8 := by decide
    have h₂ : (text ": ").length = 2 := by decide
    simp only [List.length_append, hindex, h₁, h₂]
  have hline : fuseLine i fuse ++ rest = (text "fuseset " ++ fuseIndex i ++ text ": ")
      ++ (fuseValue fuse ++ (chr '\n' :: rest)) := by simp [fuseLine]
  rw [hline, List.drop_left' hfront, hvalue]
  have hstops : Stops (chr '\n' :: rest) :=
    ⟨show isxdigit (chr '\n') = false by decide, show chr '\n' ≠ chr 'x' by decide⟩
  exact simpleStrtoul_prefix (show 2 ≤ 16 by decide) (by decide) fuse noFlags k hstops

theorem fusesLoop_eq (fuses : List (BitVec 64)) : ∀ {i : Nat}, i + fuses.length ≤ 12 →
    ∃ dump, fusesLoop i fuses = some dump ∧ dump.length = 29 * fuses.length ∧
      (∀ c ∈ dump, c ≠ chr '%' ∧ c ≠ 0) ∧
      ∀ j < fuses.length, (simpleStrtoul (dump.drop (29 * j + 12)) 16).1 = fuses.getD j 0 := by
  induction fuses with
  | nil => intro i _; exact ⟨[], rfl, rfl, by simp, by simp⟩
  | cons fuse fuses ih =>
      intro i hi
      rw [List.length_cons] at hi
      obtain ⟨dump, hloop, hlen, hplain, hread⟩ := ih (i := i + 1) (by omega)
      have hline := fuseLine_length (show i < 12 by omega) fuse
      refine ⟨fuseLine i fuse ++ dump, ?_, ?_, ?_, ?_⟩
      · rw [fusesLoop, sprintf_fuse, hloop]
        rfl
      · rw [List.length_append, hline, hlen, List.length_cons]
        omega
      · intro c hc
        rcases List.mem_append.mp hc with hc | hc
        · exact fuseLine_plain (by omega) fuse c hc
        · exact hplain c hc
      · intro j hj
        cases j with
        | zero => exact fuseLine_read (by omega) fuse dump
        | succ j =>
            rw [show 29 * (j + 1) + 12 = (fuseLine i fuse).length + (29 * j + 12) by omega,
              List.drop_append]
            simp only [Nat.le_add_right, List.drop_eq_nil_of_le, List.nil_append,
              Nat.add_sub_cancel_left]
            exact hread j (by simpa using hj)

/-- **Whatever the fuses are, the dump of all twelve fits into `FUSES` with its zero, can be printed
as a format, and every fuse can be read from it.** -/
theorem fuses_dump (fuses : List (BitVec 64)) (h : fuses.length = 12) :
    ∃ dump, fusesLoop 0 fuses = some dump ∧ dump.length + 1 ≤ 350 ∧
      vsprintf dump [] = some ⟨dump, []⟩ ∧ (∀ c ∈ dump, c ≠ 0) ∧
      ∀ j < 12, (simpleStrtoul (dump.drop (29 * j + 12)) 16).1 = fuses.getD j 0 := by
  obtain ⟨dump, hloop, hlen, hplain, hread⟩ := fusesLoop_eq fuses (i := 0) (by omega)
  refine ⟨dump, hloop, by omega, ?_, fun c hc => (hplain c hc).2, fun j hj => hread j (by omega)⟩
  -- without a `%` a format is a list of characters
  have hformat : dump = format (dump.map .char) := by simp [format, List.flatMap_map, Piece.text]
  have hrun := loop_format (dump.map .char) (fun p hp => by
    obtain ⟨c, hc, rfl⟩ := List.mem_map.mp hp
    exact hplain c hc) (le_refl _) ([], ⟨[], []⟩)
  rw [← hformat, foldlM_chars] at hrun
  unfold vsprintf
  rw [hrun]
  simp [Out.put]

/-- Twelve fuses. -/
def twelveFuses : List (BitVec 64) := (List.range 12).map fun i => 0x0f0f0f0f0f0f0ff0 + BitVec.ofNat 64 i

theorem fuses_dump_twelve : ∃ dump, fusesLoop 0 twelveFuses = some dump ∧ dump.length + 1 ≤ 350 ∧
    (simpleStrtoul (dump.drop (29 * 7 + 12)) 16).1 = 0x0f0f0f0f0f0f0ff7 := by
  obtain ⟨dump, hloop, hlen, -, -, hread⟩ := fuses_dump twelveFuses rfl
  exact ⟨dump, hloop, hlen, hread 7 (by decide)⟩

end Xell.Vsprintf
