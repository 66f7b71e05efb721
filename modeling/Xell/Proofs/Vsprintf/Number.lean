/-
Numbers that are written and read back.

`number` writes blanks, a sign, a prefix, zeros and digits, and `simple_strtoul` reads a prefix and
digits.  It skips no blanks, takes no `+`, and knows `0x` but not `0X`.  `numberText_eq` lays out
what is written, and `strtoulLoop_digits` says what the digits are read as, so that it can be said
exactly when a number is read back as it was.
-/
import Xell.Vsprintf

namespace Xell.Vsprintf

variable {num : BitVec 64} {base : Nat} {size precision : Int} {type : Flags}

/-! ### Digits -/

/-- The digits of a number as they stand in `tmp`. -/
def tmpDigits (num : BitVec 64) (base : Nat) (large : Bool) : List UInt8 :=
  if num = 0 then [chr '0'] else tmpLoop (digits large) base 64 num.toNat

theorem tmpLoop_eq (ds : List UInt8) (hb : 2 ≤ base) (fuel : Nat) : ∀ {n : Nat}, n < 2 ^ fuel →
    tmpLoop ds base fuel n = (Nat.digits base n).map fun d => ds.getD d 0 := by
  induction fuel with
  | zero =>
      intro n hn
      obtain rfl : n = 0 := by omega
      simp [tmpLoop]
  | succ fuel ih =>
      intro n hn
      by_cases h0 : n = 0
      · subst h0
        simp [tmpLoop]
      · have hdiv : n / base < 2 ^ fuel := by
          have hle : n / base ≤ n / 2 := Nat.div_le_div_left hb (by decide)
          rw [Nat.pow_succ] at hn
          omega
        rw [Nat.digits_def' (by omega : 1 < base) (by omega : 0 < n), List.map_cons, ← ih hdiv,
          tmpLoop, if_neg h0]

/-- The digits, the highest first, and what they stand for. -/
theorem tmpDigits_reverse (hb : 2 ≤ base) (num : BitVec 64) (large : Bool) :
    ∃ ds : List Nat, (tmpDigits num base large).reverse = ds.map (fun d => (digits large).getD d 0) ∧
      ds ≠ [] ∧ (∀ d ∈ ds, d < base) ∧ ds.foldl (fun r d => r * base + d) 0 = num.toNat := by
  unfold tmpDigits
  by_cases h0 : num = 0
  · subst h0
    refine ⟨[0], ?_, by simp, by simp; omega, by simp⟩
    cases large <;> rfl
  · have hne : num.toNat ≠ 0 := fun hz => h0 (BitVec.eq_of_toNat_eq hz)
    refine ⟨(Nat.digits base num.toNat).reverse, ?_, ?_, ?_, ?_⟩
    · rw [if_neg h0, tmpLoop_eq _ hb 64 num.isLt, List.map_reverse]
    · simpa using Nat.digits_ne_nil_iff_ne_zero.mpr hne
    · intro d hd
      exact Nat.digits_lt_base (by omega) (List.mem_reverse.mp hd)
    · have hfold := Nat.ofDigits_eq_foldr base (Nat.digits base num.toNat)
      rw [Nat.ofDigits_digits] at hfold
      rw [List.foldl_reverse]
      refine Eq.trans ?_ hfold.symm
      congr 1
      funext d r
      rw [Nat.cast_id, Nat.mul_comm, Nat.add_comm]

theorem tmpDigits_length_le (hb : 2 ≤ base) {k : Nat} (hk : 0 < k) (hnum : num.toNat < base ^ k)
    (large : Bool) : (tmpDigits num base large).length ≤ k := by
  unfold tmpDigits
  split
  · exact hk
  · rw [tmpLoop_eq _ hb 64 num.isLt, List.length_map]
    exact (Nat.digits_length_le_iff hb _).mpr hnum

theorem digit_read : ∀ d < 16, ∀ large : Bool, isxdigit ((digits large).getD d 0) = true ∧
    digitValue ((digits large).getD d 0) = BitVec.ofNat 64 d := by
  decide

/-- **Digits are read as the number that they stand for**, up to what is no digit. -/
theorem strtoulLoop_digits (hb : base ≤ 16) (large : Bool) {rest : List UInt8}
    (hrest : isxdigit (rest.headD 0) = false) (ds : List Nat) : (∀ d ∈ ds, d < base) → ∀ r,
    strtoulLoop (BitVec.ofNat 32 base) (ds.map (fun d => (digits large).getD d 0) ++ rest)
      (BitVec.ofNat 64 r)
      = (BitVec.ofNat 64 (ds.foldl (fun r d => r * base + d) r), rest) := by
  have hbase : (BitVec.ofNat 32 base).setWidth 64 = BitVec.ofNat 64 base := by
    apply BitVec.eq_of_toNat_eq
    rw [BitVec.toNat_setWidth, BitVec.toNat_ofNat, BitVec.toNat_ofNat]
    omega
  induction ds with
  | nil =>
      intro _ r
      cases rest with
      | nil => rfl
      | cons c rest =>
          have hc : isxdigit c = false := hrest
          simp [strtoulLoop, hc]
  | cons d ds ih =>
      intro hds r
      have hd : d < base := hds d (by simp)
      obtain ⟨hx, hv⟩ := digit_read d (by omega) large
      have hlt : BitVec.ofNat 64 d < BitVec.ofNat 64 base := by
        rw [BitVec.lt_def, BitVec.toNat_ofNat, BitVec.toNat_ofNat]
        omega
      rw [List.map_cons, List.cons_append, strtoulLoop, hx, hv, hbase]
      simp only [Bool.true_and, hlt, decide_true, if_true, List.foldl_cons]
      rw [← BitVec.ofNat_mul, ← BitVec.ofNat_add]
      exact ih (fun x hx => hds x (List.mem_cons_of_mem d hx)) _

/-! ### The layout -/

/-- The digits of a number without its sign. -/
def body (num : BitVec 64) (base : Nat) (type : Flags) : List UInt8 :=
  (tmpDigits (numberSign num type).2 base type.large).reverse

/-- How many zeros the precision asks for. -/
def zeros (num : BitVec 64) (base : Nat) (precision : Int) (type : Flags) : Nat :=
  precision.toNat - (body num base type).length

/-- How much of the field is left. -/
def gap (num : BitVec 64) (base : Nat) (size precision : Int) (type : Flags) : Nat :=
  size.toNat - ((numberSign num type).1.length + (numberPrefix base type).length
    + zeros num base precision type + (body num base type).length)

theorem pad_fst_of_neg {n : Int} (h : n ≤ 0) (c : UInt8) : (pad n c).1 = [] := by
  simp [pad, h]

theorem numberFill_eq (size : Int) (type : Flags) (front back : List UInt8) :
    numberFill size type front back =
      if type.left then front ++ back ++ List.replicate size.toNat (chr ' ')
      else if type.zeropad then front ++ List.replicate size.toNat (chr '0') ++ back
      else List.replicate size.toNat (chr ' ') ++ front ++ back := by
  -- once the field is filled, `size` is below zero
  have hspent : ∀ c d, (pad (pad size c).2 d).1 = [] := fun c d =>
    pad_fst_of_neg (show (if 0 < size then 0 else size) - 1 ≤ 0 by split <;> omega) d
  have hspent' : ∀ c d d', (pad (pad (pad size c).2 d).2 d').1 = [] := fun c d d' =>
    pad_fst_of_neg (show (if 0 < (pad size c).2 then 0 else (pad size c).2) - 1 ≤ 0 by
      split <;> omega) d'
  unfold numberFill
  cases type.left with
  | true => simp [pad]
  | false =>
      cases type.zeropad with
      | true =>
          simp only [Bool.true_or, if_true, Bool.false_eq_true, if_false, List.nil_append, hspent,
            List.append_nil]
          rfl
      | false =>
          simp only [Bool.false_or, Bool.false_eq_true, if_false, hspent, hspent', List.append_nil]
          rfl

/-- **What `number` writes**: on the left, with zeros, or on the right of the field. -/
theorem numberText_eq (num : BitVec 64) (base : Nat) (size precision : Int) (type : Flags) :
    numberText num base size precision type =
      let front := (numberSign num type).1 ++ numberPrefix base type
      let back := List.replicate (zeros num base precision type) (chr '0') ++ body num base type
      let w := gap num base size precision type
      if type.left then front ++ back ++ List.replicate w (chr ' ')
      else if type.zeropad then front ++ List.replicate w (chr '0') ++ back
      else List.replicate w (chr ' ') ++ front ++ back := by
  have hlen : (body num base type).length = (tmpDigits (numberSign num type).2 base type.large).length :=
    List.length_reverse
  generalize hn : (tmpDigits (numberSign num type).2 base type.large).length = n at hlen
  have hzeros : ((if precision < n then (n : Int) else precision) - n).toNat
      = zeros num base precision type := by
    unfold zeros
    rw [hlen]
    split <;> omega
  have hgap : (size - (numberSign num type).1.length - (numberPrefix base type).length
      - (if precision < n then (n : Int) else precision)).toNat = gap num base size precision type := by
    unfold gap zeros
    rw [hlen]
    split <;> omega
  have hfill : numberText num base size precision type
      = numberFill (size - (numberSign num type).1.length - (numberPrefix base type).length
          - (if precision < n then (n : Int) else precision))
        (if type.left then { type with zeropad := false } else type)
        ((numberSign num type).1 ++ numberPrefix base type)
        (List.replicate ((if precision < n then (n : Int) else precision) - n).toNat (chr '0')
          ++ body num base type) := by
    rw [← hn]
    unfold numberText
    cases type.left <;> rfl
  rw [hfill, hzeros, numberFill_eq, hgap]
  cases hleft : type.left <;> simp [hleft]

/-- **A field is as wide as was asked for, unless the number needs more.** -/
theorem numberText_length (num : BitVec 64) (base : Nat) (size precision : Int) (type : Flags) :
    (numberText num base size precision type).length = max size.toNat
      ((numberSign num type).1.length + (numberPrefix base type).length
        + zeros num base precision type + (body num base type).length) := by
  rw [numberText_eq]
  dsimp only
  split
  · simp only [List.length_append, List.length_replicate]
    unfold gap
    omega
  · split <;>
    · simp only [List.length_append, List.length_replicate]
      unfold gap
      omega

/-! ### Reading back -/

theorem digit_ne_x : ∀ d < 16, ∀ large : Bool, (digits large).getD d 0 ≠ chr 'x' := by
  decide

theorem digit_eq_zero : ∀ d < 16, ∀ large : Bool, (digits large).getD d 0 = chr '0' → d = 0 := by
  decide

/-- What a number ends at: no digit, and no `x`. -/
def Stops (rest : List UInt8) : Prop := isxdigit (rest.headD 0) = false ∧ rest.headD 0 ≠ chr 'x'

theorem stops_blanks (t : Nat) : Stops (List.replicate t (chr ' ')) := by
  cases t with
  | zero => exact ⟨by decide, by decide⟩
  | succ t => exact ⟨show isxdigit (chr ' ') = false by decide, show chr ' ' ≠ chr 'x' by decide⟩

section Read

variable (hb : 2 ≤ base) (hb16 : base ≤ 16)

include hb hb16

theorem ofNat_base_ne_zero : BitVec.ofNat 32 base ≠ 0 := by
  intro h0
  have := congrArg BitVec.toNat h0
  rw [BitVec.toNat_ofNat] at this
  have hz : (0 : BitVec 32).toNat = 0 := rfl
  omega

/-- Digits are read as they are, also behind a zero. -/
theorem simpleStrtoul_digits (large : Bool) (ds : List Nat) (hds : ∀ d ∈ ds, d < base)
    {rest : List UInt8} (hrest : Stops rest) :
    (simpleStrtoul (ds.map (fun d => (digits large).getD d 0) ++ rest) (BitVec.ofNat 32 base)).1
      = BitVec.ofNat 64 (ds.foldl (fun r d => r * base + d) 0) := by
  have hloop := fun ds' hds' => strtoulLoop_digits hb16 large hrest.1 ds' hds' 0
  have h0 := ofNat_base_ne_zero hb hb16
  unfold simpleStrtoul strtoulBase
  cases ds with
  | nil =>
      have hhead : rest.headD 0 ≠ chr '0' := by
        intro hz
        have hd := hrest.1
        rw [hz] at hd
        exact absurd hd (by decide)
      rw [List.map_nil, List.nil_append, if_neg hhead]
      dsimp only
      rw [if_neg h0]
      exact congrArg Prod.fst (hloop [] (by simp))
  | cons d ds =>
      have hd : d < base := hds d (by simp)
      have hds' : ∀ x ∈ ds, x < base := fun x hx => hds x (List.mem_cons_of_mem d hx)
      rw [List.map_cons, List.cons_append]
      by_cases hzero : (digits large).getD d 0 = chr '0'
      · -- the zero is skipped, and what follows is no `x`
        obtain rfl := digit_eq_zero d (by omega) large hzero
        have hx : (ds.map (fun d => (digits large).getD d 0) ++ rest).headD 0 ≠ chr 'x' := by
          cases ds with
          | nil => exact hrest.2
          | cons d' ds => exact digit_ne_x d' (by have := hds' d' (by simp); omega) large
        simp only [List.headD_cons, hzero, if_true, List.tail_cons, hx, decide_false,
          Bool.false_and, Bool.false_eq_true, if_false, h0, List.foldl_cons]
        rw [Nat.zero_mul]
        exact congrArg Prod.fst (hloop ds hds')
      · simp only [List.headD_cons, hzero, if_false, h0]
        exact congrArg Prod.fst (hloop (d :: ds) hds)

omit hb hb16 in
/-- What begins with neither is read as zero. -/
theorem simpleStrtoul_other {c : UInt8} (hc : isxdigit c = false) (s : List UInt8) (b : BitVec 32) :
    (simpleStrtoul (c :: s) b).1 = 0 := by
  have h0 : c ≠ chr '0' := by
    rintro rfl
    exact absurd hc (by decide)
  unfold simpleStrtoul strtoulBase
  simp [h0, strtoulLoop, hc]

omit hb hb16 in
/-- `0X` is read as the zero. -/
theorem simpleStrtoul_upper (s : List UInt8) (b : BitVec 32) :
    (simpleStrtoul (chr '0' :: chr 'X' :: s) b).1 = 0 := by
  have hx : chr 'X' ≠ chr 'x' := by decide
  have hd : isxdigit (chr 'X') = false := by decide
  unfold simpleStrtoul strtoulBase
  simp [hx, strtoulLoop, hd]

omit hb hb16 in
theorem simpleStrtoul_lower (large : Bool) (ds : List Nat) (hne : ds ≠ []) (hds : ∀ d ∈ ds, d < 16)
    {rest : List UInt8} (hrest : Stops rest) (b : BitVec 32) :
    (simpleStrtoul (chr '0' :: chr 'x' :: (ds.map (fun d => (digits large).getD d 0) ++ rest)) b).1
      = BitVec.ofNat 64 (ds.foldl (fun r d => r * 16 + d) 0) := by
  have hloop := strtoulLoop_digits (le_refl 16) large hrest.1 ds hds 0
  obtain ⟨d, ds, rfl⟩ := List.exists_cons_of_ne_nil hne
  obtain ⟨hx, -⟩ := digit_read d (hds d (by simp)) large
  unfold simpleStrtoul strtoulBase
  simp only [List.headD_cons, if_true, List.tail_cons, List.map_cons, List.cons_append,
    List.getD_cons_succ, List.getD_cons_zero, hx, decide_true, Bool.true_and]
  exact congrArg Prod.fst hloop

/-- A number with its prefix, and zeros in front of it. -/
theorem simpleStrtoul_prefix (num : BitVec 64) (type : Flags) (k : Nat) {rest : List UInt8}
    (hrest : Stops rest) : (simpleStrtoul (numberPrefix base type ++ (List.replicate k (chr '0')
        ++ (tmpDigits num base type.large).reverse) ++ rest)
      (BitVec.ofNat 32 base)).1 = if type.special ∧ type.large ∧ base = 16 then 0 else num := by
  obtain ⟨ds, heq, hne, hlt, hfold⟩ := tmpDigits_reverse hb num type.large
  have hzero : (digits type.large).getD 0 0 = chr '0' := by cases type.large <;> rfl
  -- the zeros are digits like the others, and do not count
  have hdigits : ∀ k, List.replicate k (chr '0') ++ (tmpDigits num base type.large).reverse
      = (List.replicate k 0 ++ ds).map fun d => (digits type.large).getD d 0 := by
    intro k
    rw [List.map_append, List.map_replicate, hzero, heq]
  have hvalue : ∀ k, (List.replicate k 0 ++ ds).foldl (fun r d => r * base + d) 0 = num.toNat := by
    intro k
    have hz : (List.replicate k 0).foldl (fun r d => r * base + d) 0 = 0 := by
      induction k with
      | zero => rfl
      | succ k ih => rw [List.replicate_succ, List.foldl_cons, Nat.zero_mul]; exact ih
    rw [List.foldl_append, hz, hfold]
  have hall : ∀ k, ∀ d ∈ List.replicate k 0 ++ ds, d < base := by
    intro k d hd
    rcases List.mem_append.mp hd with hd | hd
    · have := List.eq_of_mem_replicate hd
      omega
    · exact hlt d hd
  have hplain : ∀ k, (simpleStrtoul (List.replicate k (chr '0')
      ++ (tmpDigits num base type.large).reverse ++ rest) (BitVec.ofNat 32 base)).1 = num := by
    intro k
    rw [hdigits, simpleStrtoul_digits hb hb16 type.large _ (hall k) hrest, hvalue, BitVec.ofNat_toNat,
      BitVec.setWidth_eq]
  by_cases hspecial : type.special = true
  · by_cases h8 : base = 8
    · rw [if_neg (by omega)]
      have hpre : numberPrefix base type = List.replicate 1 (chr '0') := by
        simp [numberPrefix, hspecial, h8]
      rw [hpre, ← List.append_assoc, List.replicate_append_replicate]
      exact hplain (1 + k)
    · by_cases h16 : base = 16
      · have hpre : numberPrefix base type = [chr '0', (digits type.large).getD 33 0] := by
          simp [numberPrefix, hspecial, h16]
        rw [hpre]
        cases hlarge : type.large with
        | true =>
            rw [if_pos ⟨hspecial, rfl, h16⟩]
            exact simpleStrtoul_upper _ _
        | false =>
            rw [if_neg (by simp)]
            have hlower := simpleStrtoul_lower type.large (List.replicate k 0 ++ ds) (by simp [hne])
              (fun d hd => by have := hall k d hd; omega) hrest (BitVec.ofNat 32 base)
            rw [← hdigits, ← h16, hvalue, BitVec.ofNat_toNat, BitVec.setWidth_eq, hlarge] at hlower
            exact hlower
      · rw [if_neg (by simp [h16])]
        have hpre : numberPrefix base type = [] := by simp [numberPrefix, h8, h16]
        rw [hpre]
        exact hplain k
  · rw [if_neg (by simp [hspecial])]
    have hpre : numberPrefix base type = [] := by simp [numberPrefix, hspecial]
    rw [hpre]
    exact hplain k

end Read

/-- What can be read back: no blanks in front, and no `0X`. -/
def Readable (num : BitVec 64) (base : Nat) (size precision : Int) (type : Flags) : Prop :=
  (type.left ∨ type.zeropad ∨ gap num base size precision type = 0) ∧
    ¬(type.special ∧ type.large ∧ base = 16)

/-- A text is a number with its sign, prefix and zeros, or begins with a blank. -/
theorem numberText_cases (num : BitVec 64) (base : Nat) (size precision : Int) (type : Flags) :
    ((type.left ∨ type.zeropad ∨ gap num base size precision type = 0) ∧
      ∃ k t, numberText num base size precision type = (numberSign num type).1
        ++ (numberPrefix base type ++ (List.replicate k (chr '0') ++ body num base type)
          ++ List.replicate t (chr ' '))) ∨
    (¬(type.left ∨ type.zeropad ∨ gap num base size precision type = 0) ∧
      ∃ s, numberText num base size precision type = chr ' ' :: s) := by
  rw [numberText_eq]
  dsimp only
  cases hleft : type.left with
  | true =>
      refine Or.inl ⟨by simp, zeros num base precision type, gap num base size precision type, ?_⟩
      simp
  | false =>
      cases hzp : type.zeropad with
      | true =>
          refine Or.inl ⟨by simp,
            gap num base size precision type + zeros num base precision type, 0, ?_⟩
          simp [← List.replicate_append_replicate]
      | false =>
          cases hgap : gap num base size precision type with
          | zero =>
              refine Or.inl ⟨by simp, zeros num base precision type, 0, ?_⟩
              simp
          | succ w =>
              refine Or.inr ⟨by simp, List.replicate w (chr ' ') ++ ((numberSign num type).1
                ++ (numberPrefix base type ++ (List.replicate (zeros num base precision type) (chr '0')
                  ++ body num base type))), ?_⟩
              simp [List.replicate_succ]

/-- **A number without a sign is read back as it was just if no blanks stand in front of it, and it
was not written with `0X`**, unless it is zero. -/
theorem simpleStrtoul_numberText (num : BitVec 64) (size precision : Int) (type : Flags)
    (hb : 2 ≤ base) (hb16 : base ≤ 16) (hsign : type.sign = false) :
    (simpleStrtoul (numberText num base size precision type) (BitVec.ofNat 32 base)).1 = num ↔
      num = 0 ∨ Readable num base size precision type := by
  have hnone : numberSign num type = ([], num) := by simp [numberSign, hsign]
  unfold Readable
  rcases numberText_cases num base size precision type with ⟨hblank, k, t, heq⟩ | ⟨hblank, s, heq⟩
  · have hbody : body num base type = (tmpDigits num base type.large).reverse := by
      unfold body
      rw [hnone]
    rw [heq, hnone, List.nil_append, hbody, simpleStrtoul_prefix hb hb16 _ _ _ (stops_blanks t)]
    split
    · rename_i hupper
      simp only [hupper, and_self, not_true_eq_false, and_false, or_false]
      exact eq_comm
    · rename_i hlower
      simp only [hblank, hlower, not_false_eq_true, and_self, or_true]
  · rw [heq, simpleStrtoul_other (by decide)]
    simp only [hblank, false_and, or_false]
    exact eq_comm

theorem simpleStrtoul_numberText_zeropad :
    (simpleStrtoul (numberText 0xdead 16 16 (-1) { noFlags with zeropad := true })
      (BitVec.ofNat 32 16)).1 = 0xdead :=
  (simpleStrtoul_numberText 0xdead 16 (-1) { noFlags with zeropad := true } (by decide) (by decide)
    rfl).mpr (Or.inr ⟨by decide, by decide⟩)

/-! ### With a sign -/

theorem digit_ne_minus : ∀ d < 16, ∀ large : Bool, (digits large).getD d 0 ≠ chr '-' := by
  decide

theorem headD_ne_minus {s : List UInt8} (h : ∀ c ∈ s, c ≠ chr '-') : s.headD 0 ≠ chr '-' := by
  cases s with
  | nil => decide
  | cons c s => exact h c (by simp)

/-- Nothing but the sign is a minus. -/
theorem ne_minus_of_mem (hb : 2 ≤ base) (hb16 : base ≤ 16) (num : BitVec 64) (type : Flags) (k t : Nat)
    {c : UInt8} (hc : c ∈ numberPrefix base type ++ (List.replicate k (chr '0')
      ++ (tmpDigits num base type.large).reverse) ++ List.replicate t (chr ' ')) : c ≠ chr '-' := by
  obtain ⟨ds, heq, -, hlt, -⟩ := tmpDigits_reverse hb num type.large
  rw [heq] at hc
  simp only [List.mem_append, List.mem_replicate, List.mem_map] at hc
  rcases hc with (hc | ⟨-, rfl⟩ | ⟨d, hd, rfl⟩) | ⟨-, rfl⟩
  · have hx : ∀ large : Bool, (digits large).getD 33 0 ≠ chr '-' := by decide
    unfold numberPrefix at hc
    split at hc
    · split at hc
      · rw [List.mem_singleton.mp hc]
        decide
      · split at hc
        · rcases List.mem_pair.mp hc with rfl | rfl
          · decide
          · exact hx type.large
        · cases hc
    · cases hc
  · decide
  · exact digit_ne_minus d (by have := hlt d hd; omega) type.large
  · decide

/-- **A number with a sign is read back as it was just if it is readable, and it is negative or was
not marked as positive**, unless it is zero. -/
theorem simpleStrtol_numberText (num : BitVec 64) (size precision : Int) (type : Flags)
    (hb : 2 ≤ base) (hb16 : base ≤ 16) (hsign : type.sign = true) :
    (simpleStrtol (numberText num base size precision type) (BitVec.ofNat 32 base)).1 = num ↔
      num = 0 ∨ Readable num base size precision type ∧
        (num.toInt < 0 ∨ type.plus = false ∧ type.space = false) := by
  unfold Readable
  rcases numberText_cases num base size precision type with ⟨hblank, k, t, heq⟩ | ⟨hblank, s, heq⟩
  · have hread := simpleStrtoul_prefix hb hb16 (numberSign num type).2 type k (stops_blanks t)
    have hbody : body num base type = (tmpDigits (numberSign num type).2 base type.large).reverse :=
      rfl
    rw [← hbody] at hread
    rw [heq]
    by_cases hneg : num.toInt < 0
    · have hminus : numberSign num type = ([chr '-'], -num) := by simp [numberSign, hsign, hneg]
      unfold simpleStrtol
      rw [hminus] at hread ⊢
      simp only [List.singleton_append, List.headD_cons, if_true, List.tail_cons, hread]
      split
      · rename_i hupper
        simp only [hupper, and_self, not_true_eq_false, and_false, false_and, or_false]
        exact eq_comm
      · rename_i hlower
        simp only [BitVec.neg_neg, hblank, hlower, hneg, not_false_eq_true, true_or, and_self, or_true]
    · by_cases hplain : type.plus = false ∧ type.space = false
      · have hnone : numberSign num type = ([], num) := by
          simp [numberSign, hsign, hneg, hplain.1, hplain.2]
        rw [hnone] at hread ⊢
        have hhead := headD_ne_minus fun c hc => ne_minus_of_mem hb hb16 num type k t hc
        rw [show (tmpDigits num base type.large).reverse = body num base type by rw [hbody, hnone]]
          at hhead
        unfold simpleStrtol
        rw [List.nil_append, if_neg hhead, hread]
        split
        · rename_i hupper
          simp only [hupper, and_self, not_true_eq_false, and_false, false_and, or_false]
          exact eq_comm
        · rename_i hlower
          simp only [hblank, hlower, hplain, not_false_eq_true, and_self, or_true]
      · obtain ⟨c, hc, hcd, hcm⟩ : ∃ c, numberSign num type = ([c], num) ∧ isxdigit c = false ∧
            c ≠ chr '-' := by
          cases hplus : type.plus with
          | true => exact ⟨chr '+', by simp [numberSign, hsign, hneg, hplus], by decide, by decide⟩
          | false =>
              have hspace : type.space = true := by simpa [hplus] using hplain
              exact ⟨chr ' ', by simp [numberSign, hsign, hneg, hplus, hspace], by decide, by decide⟩
        rw [hc]
        unfold simpleStrtol
        rw [List.singleton_append, List.headD_cons, if_neg hcm, simpleStrtoul_other hcd]
        simp only [hneg, hplain, or_self, and_false, or_false]
        exact eq_comm
  · rw [heq]
    unfold simpleStrtol
    rw [List.headD_cons, if_neg (by decide), simpleStrtoul_other (by decide)]
    simp only [hblank, false_and, or_false]
    exact eq_comm

theorem simpleStrtol_numberText_min :
    (simpleStrtol (numberText (BitVec.intMin 64) 10 (-1) (-1) { noFlags with sign := true })
      (BitVec.ofNat 32 10)).1 = BitVec.intMin 64 :=
  (simpleStrtol_numberText (BitVec.intMin 64) (-1) (-1) { noFlags with sign := true } (by decide)
    (by decide) rfl).mpr (Or.inr ⟨⟨Or.inr (Or.inr (by decide)), by decide⟩, Or.inl (by decide)⟩)

end Xell.Vsprintf
