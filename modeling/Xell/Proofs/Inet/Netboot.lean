/-
The server that a reply names is the one that is asked.

An option is found behind others that are no padding.  Four bytes of it are printed as an address,
and `inet_aton` reads an address back as `inet_ntoa` or `sprintf` wrote it.  A name that is copied is
a text only if `mem_malloc` left a zero behind it.
-/
import Xell.Netboot
import Xell.Proofs.Inet.Chksum
import Xell.Proofs.Vsprintf.Format

namespace Xell

open Vsprintf (chr text Arg)

/-! ### Octets -/

namespace Inet

/-- An octet in digits, as `inet_ntoa` writes it. -/
def octetText (x : UInt8) : List UInt8 := (ntoaDigits x).reverse

/-- What the digits stand for. -/
def digitsValue (base : UInt32) (ds : List UInt8) (val : UInt32) : UInt32 :=
  ds.foldl (fun val c => val * base + (c - chr '0').toUInt32) val

/-- A fact about octets, number by number. -/
theorem octet_of_toNat (P : UInt8 → Prop) (h : ∀ n < 256, P (UInt8.ofNat n)) (x : UInt8) : P x := by
  have hx := h x.toNat x.toNat_lt
  rwa [UInt8.ofNat_toNat] at hx

theorem octetText_digits (x : UInt8) : (octetText x).all isdigit = true ∧
    digitsValue 10 (octetText x) 0 = x.toUInt32 := by
  refine octet_of_toNat (fun x => (octetText x).all isdigit = true ∧
    digitsValue 10 (octetText x) 0 = x.toUInt32) ?_ x
  decide +kernel

theorem octetText_head {x : UInt8} (hx : x ≠ 0) : (octetText x).headD 0 ≠ chr '0' := by
  refine octet_of_toNat (fun x => x ≠ 0 → (octetText x).headD 0 ≠ chr '0') ?_ x hx
  decide +kernel

theorem octetText_length (x : UInt8) : 0 < (octetText x).length ∧ (octetText x).length ≤ 3 := by
  refine octet_of_toNat (fun x => 0 < (octetText x).length ∧ (octetText x).length ≤ 3) ?_ x
  decide +kernel

theorem atonNumber_digits (base : UInt32) (ds rest : List UInt8) (val : UInt32)
    (hds : ds.all isdigit = true) :
    atonNumber base (ds ++ rest) val = atonNumber base rest (digitsValue base ds val) := by
  induction ds generalizing val with
  | nil => rfl
  | cons c ds ih =>
      simp only [List.all_cons, Bool.and_eq_true] at hds
      rw [List.cons_append, atonNumber, if_pos hds.1, ih _ hds.2]
      rfl

/-- What a number ends at. -/
def NumberEnd (rest : List UInt8) : Prop := rest = [] ∨ rest.headD 0 = chr '.'

theorem NumberEnd.head {rest : List UInt8} (h : NumberEnd rest) :
    rest.headD 0 = 0 ∨ rest.headD 0 = chr '.' := by
  rcases h with rfl | h
  · exact Or.inl rfl
  · exact Or.inr h

theorem atonNumber_end {base : UInt32} (hbase : base ≠ 16) {rest : List UInt8} (h : NumberEnd rest)
    (val : UInt32) : atonNumber base rest val = (val, rest) := by
  cases rest with
  | nil => rfl
  | cons c rest =>
      have hc : c = chr '.' := h.resolve_left (by simp)
      have hdigit : isdigit (chr '.') = false := by decide
      rw [atonNumber, hc, hdigit]
      simp [hbase]

/-- One octet is read as it was written. -/
theorem atonNumber_octet (x : UInt8) {rest : List UInt8} (h : NumberEnd rest) :
    isdigit ((octetText x ++ rest).headD 0) = true ∧
      atonNumber (atonBase (octetText x ++ rest)).1 (atonBase (octetText x ++ rest)).2 0
        = (x.toUInt32, rest) := by
  obtain ⟨hdigits, hvalue⟩ := octetText_digits x
  by_cases hx : x = 0
  · -- a zero is read as the beginning of an octal number
    subst hx
    have hzero : octetText 0 = [chr '0'] := by decide +kernel
    have hbase : atonBase (octetText 0 ++ rest) = (8, rest) := by
      have hno : ¬(rest.headD 0 = chr 'x' ∨ rest.headD 0 = chr 'X') := by
        rcases h.head with hh | hh <;> rw [hh] <;> decide
      unfold atonBase
      simp only [hzero, List.singleton_append, List.headD_cons, if_true, List.tail_cons,
        Bool.or_eq_true, decide_eq_true_eq, if_neg hno]
    have hend := atonNumber_end (show (8 : UInt32) ≠ 16 by decide) h 0
    have hdigit : isdigit (chr '0') = true := by decide
    rw [hbase]
    refine ⟨?_, hend⟩
    rw [hzero]
    exact hdigit
  · have hne := octetText_head hx
    have hlen := (octetText_length x).1
    obtain ⟨c, ds, hcons⟩ := List.exists_cons_of_length_pos hlen
    rw [hcons] at hne hdigits hvalue ⊢
    have hbase : atonBase (c :: ds ++ rest) = (10, c :: ds ++ rest) := by
      unfold atonBase
      exact if_neg hne
    rw [hbase]
    refine ⟨?_, ?_⟩
    · rw [List.all_cons, Bool.and_eq_true] at hdigits
      exact hdigits.1
    · rw [atonNumber_digits 10 _ _ _ hdigits, hvalue]
      exact atonNumber_end (show (10 : UInt32) ≠ 16 by decide) h _

/-! ### Addresses -/

/-- Four octets with dots between them. -/
def dotted (a b c d : UInt8) : List UInt8 :=
  octetText a ++ chr '.' :: (octetText b ++ chr '.' :: (octetText c ++ chr '.' :: octetText d))

/-- The address with these octets. -/
def ofOctets (a b c d : UInt8) : UInt32 :=
  d.toUInt32 ||| ((a.toUInt32 <<< 24) ||| (b.toUInt32 <<< 16) ||| (c.toUInt32 <<< 8))

theorem dotted_length (a b c d : UInt8) : (dotted a b c d).length ≤ 15 := by
  have ha := (octetText_length a).2
  have hb := (octetText_length b).2
  have hc := (octetText_length c).2
  have hd := (octetText_length d).2
  unfold dotted
  simp only [List.length_append, List.length_cons]
  omega

/-- Four octets are read as their address. -/
theorem inetAton_dotted (a b c d : UInt8) : inetAton (dotted a b c d) = some (ofOctets a b c d) := by
  have hdot : ∀ rest, NumberEnd (chr '.' :: rest) := fun _ => Or.inr rfl
  have hstep : ∀ (x : UInt8) (rest : List UInt8) (parts : List UInt32), parts.length < 3 →
      atonParts (octetText x ++ chr '.' :: rest) parts = atonParts rest (parts ++ [x.toUInt32]) := by
    intro x rest parts hparts
    obtain ⟨hdigit, hnumber⟩ := atonNumber_octet x (hdot rest)
    rw [atonParts, dif_neg (by rw [hdigit]; decide), hnumber]
    simp only [List.headD_cons, if_true, ge_iff_le, if_neg (Nat.not_le.mpr hparts), List.tail_cons]
  have hlast : atonParts (octetText d) [a.toUInt32, b.toUInt32, c.toUInt32]
      = some ([a.toUInt32, b.toUInt32, c.toUInt32], d.toUInt32, []) := by
    obtain ⟨hdigit, hnumber⟩ := atonNumber_octet d (Or.inl rfl : NumberEnd [])
    rw [List.append_nil] at hdigit hnumber
    rw [atonParts, dif_neg (by rw [hdigit]; decide), hnumber]
    rfl
  have hparts : atonParts (dotted a b c d) []
      = some ([a.toUInt32, b.toUInt32, c.toUInt32], d.toUInt32, []) := by
    unfold dotted
    rw [hstep a _ [] (by simp), hstep b _ _ (by simp), hstep c _ _ (by simp)]
    exact hlast
  have hsmall : ¬d.toUInt32 > 0xff := by
    have hlt := d.toNat_lt
    rw [gt_iff_lt, UInt32.lt_iff_toNat_lt, UInt8.toNat_toUInt32]
    show ¬255 < d.toNat
    omega
  unfold inetAton
  rw [hparts]
  simp only [List.headD_nil, ne_eq, not_true_eq_false, decide_false, Bool.false_and,
    Bool.false_eq_true, if_false, if_neg hsmall]
  rfl

theorem inetNtoa_eq (addr : UInt32) :
    inetNtoa addr = dotted (octet addr 0) (octet addr 1) (octet addr 2) (octet addr 3) := by
  have hrange : List.range 4 = [0, 1, 2, 3] := rfl
  unfold inetNtoa
  rw [hrange]
  show (octetText (octet addr 0) ++ [chr '.'] ++ (octetText (octet addr 1) ++ [chr '.'] ++
    (octetText (octet addr 2) ++ [chr '.'] ++ (octetText (octet addr 3) ++ [chr '.'] ++ [])))).dropLast = _
  unfold dotted
  simp only [List.append_nil, ← List.append_assoc, List.dropLast_concat]
  simp

theorem octet_toNat (addr : UInt32) {n : Nat} (hn : n < 4) :
    (octet addr n).toNat = addr.toNat / 2 ^ (24 - 8 * n) % 256 := by
  unfold octet
  rw [UInt32.toNat_toUInt8, UInt32.toNat_shiftRight, Nat.shiftRight_eq_div_pow]
  interval_cases n <;> rfl

theorem ofOctets_toNat (a b c d : UInt8) :
    (ofOctets a b c d).toNat = 2 ^ 24 * a.toNat + 2 ^ 16 * b.toNat + 2 ^ 8 * c.toNat + d.toNat := by
  have ha := a.toNat_lt
  have hb := b.toNat_lt
  have hc := c.toNat_lt
  have hd := d.toNat_lt
  have hshift : ∀ (x : UInt8) (k : UInt32), k.toNat ≤ 24 →
      (x.toUInt32 <<< k).toNat = 2 ^ k.toNat * x.toNat := by
    intro x k hk
    have hx := x.toNat_lt
    have hpow : 2 ^ k.toNat ≤ 2 ^ 24 := Nat.pow_le_pow_right (by omega) hk
    have hmul : 2 ^ k.toNat * x.toNat < 2 ^ 32 := by
      calc 2 ^ k.toNat * x.toNat ≤ 2 ^ 24 * x.toNat := Nat.mul_le_mul_right _ hpow
        _ < 2 ^ 32 := by omega
    rw [UInt32.toNat_shiftLeft, UInt8.toNat_toUInt32, Nat.mod_eq_of_lt (show k.toNat < 32 by omega),
      Nat.shiftLeft_eq, Nat.mul_comm, Nat.mod_eq_of_lt hmul]
  have h24 := hshift a 24 (by decide)
  have h16 := hshift b 16 (by decide)
  have h8 := hshift c 8 (by decide)
  have hab : 2 ^ 24 * a.toNat ||| 2 ^ 16 * b.toNat = 2 ^ 24 * a.toNat + 2 ^ 16 * b.toNat :=
    (Nat.two_pow_add_eq_or_of_lt (by omega) _).symm
  have habc : 2 ^ 24 * a.toNat + 2 ^ 16 * b.toNat ||| 2 ^ 8 * c.toNat
      = 2 ^ 24 * a.toNat + 2 ^ 16 * b.toNat + 2 ^ 8 * c.toNat := by
    rw [show 2 ^ 24 * a.toNat + 2 ^ 16 * b.toNat = 2 ^ 16 * (2 ^ 8 * a.toNat + b.toNat) by omega]
    exact (Nat.two_pow_add_eq_or_of_lt (by omega) _).symm
  have hall : 2 ^ 24 * a.toNat + 2 ^ 16 * b.toNat + 2 ^ 8 * c.toNat ||| d.toNat
      = 2 ^ 24 * a.toNat + 2 ^ 16 * b.toNat + 2 ^ 8 * c.toNat + d.toNat := by
    rw [show 2 ^ 24 * a.toNat + 2 ^ 16 * b.toNat + 2 ^ 8 * c.toNat
      = 2 ^ 8 * (2 ^ 16 * a.toNat + 2 ^ 8 * b.toNat + c.toNat) by omega]
    exact (Nat.two_pow_add_eq_or_of_lt (by omega) _).symm
  unfold ofOctets
  rw [UInt32.or_comm, UInt32.toNat_or, UInt32.toNat_or, UInt32.toNat_or, h24, h16, h8,
    UInt8.toNat_toUInt32]
  simp only [show UInt32.toNat 24 = 24 from rfl, show UInt32.toNat 16 = 16 from rfl,
    show UInt32.toNat 8 = 8 from rfl]
  rw [hab, habc, hall]

theorem ofOctets_octet (addr : UInt32) :
    ofOctets (octet addr 0) (octet addr 1) (octet addr 2) (octet addr 3) = addr := by
  have hlt := addr.toNat_lt
  apply UInt32.toNat.inj
  rw [ofOctets_toNat, octet_toNat addr (by omega), octet_toNat addr (by omega),
    octet_toNat addr (by omega), octet_toNat addr (by omega)]
  omega

/-- An address is read back. -/
theorem inetAton_inetNtoa (addr : UInt32) : inetAton (inetNtoa addr) = some addr := by
  rw [inetNtoa_eq, inetAton_dotted, ofOctets_octet]

end Inet

/-! ### Options -/

namespace Netboot

open Inet Vsprintf

variable {options block : Mem UInt8} {optionType : UInt8} {len : Nat}
  {os : List (UInt8 × List UInt8)}

/-- Options as they stand in a message, without padding. -/
def encode (os : List (UInt8 × List UInt8)) : List UInt8 :=
  os.flatMap fun o => o.1 :: UInt8.ofNat o.2.length :: o.2

/-- They do not end the options, are in no other field, and their lengths can be written. -/
def Plain (os : List (UInt8 × List UInt8)) : Prop :=
  ∀ o ∈ os, o.1 ≠ dhcpOptionEnd ∧ o.1 ≠ dhcpOptionOverload ∧ o.2.length < 256

/-- An option lies at `options`. -/
structure IsOption (options : Mem UInt8) (o : UInt8 × List UInt8) : Prop where
  type : options 0 = o.1
  len : (options 1).toNat = o.2.length
  value : options.slice 2 o.2.length = o.2

/-- The loop finds the first option that has the type. -/
theorem optionsLoop_encode (optionType overload : UInt8) (hos : Plain os) {offset : Nat}
    (hfit : offset + (encode os).length < len)
    (hread : options.slice offset (encode os ++ [dhcpOptionEnd]).length = encode os ++ [dhcpOptionEnd]) :
    (os.find? (fun o => o.1 = optionType) = none →
      optionsLoop optionType options len offset overload = (none, overload)) ∧
    ∀ o, os.find? (fun o => o.1 = optionType) = some o →
      ∃ k, optionsLoop optionType options len offset overload = (some k, overload) ∧
        IsOption (fun i => options (k + i)) o := by
  induction os generalizing offset with
  | nil =>
      have hend : options offset = dhcpOptionEnd := by simpa [encode, Mem.slice_one] using hread
      refine ⟨fun _ => ?_, fun o ho => by simp at ho⟩
      rw [optionsLoop, dif_pos (by omega), if_pos hend]
  | cons o os ih =>
      obtain ⟨hne, hno, hlt⟩ := hos o List.mem_cons_self
      have hcons : encode (o :: os) = o.1 :: UInt8.ofNat o.2.length :: (o.2 ++ encode os) := rfl
      have hlen : (encode (o :: os)).length = 2 + o.2.length + (encode os).length := by
        rw [hcons]
        simp only [List.length_cons, List.length_append]
        omega
      have hcount : (encode (o :: os) ++ [dhcpOptionEnd]).length
          = 1 + (1 + (o.2.length + (encode os ++ [dhcpOptionEnd]).length)) := by
        simp only [List.length_append, hlen, List.length_singleton]
        omega
      rw [hcount, Mem.slice_add, Mem.slice_add, Mem.slice_add, hcons, Mem.slice_one, Mem.slice_one] at hread
      simp only [List.cons_append, List.nil_append, List.append_assoc, List.cons.injEq] at hread
      obtain ⟨htype, hlength, hvalues⟩ := hread
      obtain ⟨hvalue, hrest⟩ := List.append_inj hvalues (Mem.slice_length _ _ _)
      have hlength' : (options (offset + 1)).toNat = o.2.length := by
        rw [hlength, UInt8.toNat_ofNat', Nat.mod_eq_of_lt hlt]
      rw [optionsLoop, dif_pos (by omega), htype, if_neg hne, if_neg hno]
      by_cases hfound : o.1 = optionType
      · rw [if_pos hfound, List.find?_cons_of_pos (by simpa using hfound)]
        refine ⟨fun h => by simp at h, fun o' ho' => ?_⟩
        obtain rfl := Option.some.inj ho'
        refine ⟨offset, rfl, htype, hlength', Eq.trans ?_ hvalue⟩
        refine List.map_congr_left fun i _ => ?_
        show options (offset + (2 + i)) = options (offset + 1 + 1 + i)
        congr 1
        omega
      · rw [if_neg hfound, List.find?_cons_of_neg (by simpa using hfound), hlength']
        have hnext : offset + 1 + (1 + o.2.length) = offset + 1 + 1 + o.2.length := by omega
        rw [hnext]
        exact ih (fun o' ho' => hos o' (List.mem_cons_of_mem _ ho')) (by omega) hrest

/-- A reply whose options are these. -/
structure Carries (r : Reply) (os : List (UInt8 × List UInt8)) : Prop where
  plain : Plain os
  fits : (encode os).length < r.optionsInLen
  read : r.optionsIn.slice 0 (encode os ++ [dhcpOptionEnd]).length = encode os ++ [dhcpOptionEnd]

variable {r : Reply}

theorem dhcpGetOptionPtr_none (h : Carries r os)
    (hfind : os.find? (fun o => o.1 = optionType) = none) : dhcpGetOptionPtr r optionType = none := by
  have hfit := h.fits
  obtain ⟨hnone, -⟩ := optionsLoop_encode optionType 0 h.plain
    (show 0 + _ < r.optionsInLen by omega) h.read
  unfold dhcpGetOptionPtr
  rw [hnone hfind]
  rfl

theorem dhcpGetOptionPtr_some {o : UInt8 × List UInt8} (h : Carries r os)
    (hfind : os.find? (fun o => o.1 = optionType) = some o) :
    ∃ option, dhcpGetOptionPtr r optionType = some option ∧ IsOption option o := by
  have hfit := h.fits
  obtain ⟨-, hsome⟩ := optionsLoop_encode optionType 0 h.plain
    (show 0 + _ < r.optionsInLen by omega) h.read
  obtain ⟨k, hloop, hoption⟩ := hsome o hfind
  refine ⟨_, ?_, hoption⟩
  unfold dhcpGetOptionPtr
  rw [hloop]

/-! ### The server -/

def addressPieces : List Piece :=
  let octet : Piece := .directive [] none none none (chr 'u')
  [octet, .char (chr '.'), octet, .char (chr '.'), octet, .char (chr '.'), octet]

/-- An octet as `%u` writes it. -/
theorem numberText_octet (x : UInt8) :
    numberText (((BitVec.ofNat 64 x.toNat).setWidth 32).setWidth 64) 10 (-1) (-1) noFlags
      = octetText x := by
  refine octet_of_toNat (fun x => numberText (((BitVec.ofNat 64 x.toNat).setWidth 32).setWidth 64) 10
    (-1) (-1) noFlags = octetText x) ?_ x
  decide +kernel

theorem sprintf_octets (a b c d : UInt8) :
    sprintf addressFormat [.word (BitVec.ofNat 64 a.toNat), .word (BitVec.ofNat 64 b.toNat),
      .word (BitVec.ofNat 64 c.toNat), .word (BitVec.ofNat 64 d.toNat)] = some (dotted a b c d) := by
  have hformat : addressFormat = format addressPieces := by decide +kernel
  have hok : ∀ p ∈ addressPieces, p.Ok := by
    simp [addressPieces, Piece.Ok]
    decide
  have hoctet : ∀ (x : UInt8) out args, Piece.run (.word (BitVec.ofNat 64 x.toNat) :: args, out)
      (.directive [] none none none (chr 'u')) = some (args, out.put (octetText x)) := by
    intro x out args
    rw [← numberText_octet]
    rfl
  have hdot : ∀ st, Piece.run st (.char (chr '.')) = some (st.1, st.2.put [chr '.']) := fun _ => rfl
  unfold sprintf vsprintf
  rw [hformat, loop_format addressPieces hok (le_refl _) (_, ⟨[], []⟩)]
  unfold addressPieces
  simp only [List.foldlM_cons, List.foldlM_nil, hoctet, hdot, Option.bind_eq_bind, Option.bind_some,
    Option.pure_def, Option.map_some, Out.put, List.nil_append, dotted]
  simp

theorem serverAddress_dotted (a b c d : UInt8) :
    serverAddress (dotted a b c d) = ofOctets a b c d := by
  have hne : dotted a b c d ≠ [] := by simp [dotted]
  unfold serverAddress
  rw [if_neg hne, inetAton_dotted]
  rfl

/-- **The server is asked that the reply names by its address**, and a fixed one if it names none.
The name fits into the block of sixteen bytes that is there for it. -/
theorem bootServerName_asked (h : Carries r os) (block : Mem UInt8) :
    (∀ a b c d, os.find? (fun o => o.1 = dhcpOptionTftpServername)
        = some (dhcpOptionTftpServername, [a, b, c, d]) →
      ∃ name, networkBootServerName r block = some name ∧ name.length < 16 ∧
        ∀ file pcb its s, bootTftp name file pcb its s
          = Tftp.bootTftp (ofOctets a b c d) file pcb its s) ∧
    (os.find? (fun o => o.1 = dhcpOptionTftpServername) = none →
      ∃ name, networkBootServerName r block = some name ∧
        ∀ file pcb its s, bootTftp name file pcb its s
          = Tftp.bootTftp (ofOctets 10 0 120 78) file pcb its s) := by
  constructor
  · intro a b c d hfind
    obtain ⟨option, hoption, hread⟩ := dhcpGetOptionPtr_some h hfind
    have hlen : option 1 = 4 := UInt8.toNat.inj hread.len
    have hvalue : [option 2, option 3, option 4, option 5] = [a, b, c, d] := hread.value
    simp only [List.cons.injEq, and_true] at hvalue
    obtain ⟨ha, hb, hc, hd⟩ := hvalue
    have hname : networkBootServerName r block = some (dotted a b c d) := by
      unfold networkBootServerName
      rw [hoption]
      show bootServerName option block = _
      unfold bootServerName
      rw [if_pos hlen, ha, hb, hc, hd, sprintf_octets]
    refine ⟨_, hname, Nat.lt_succ_of_le (dotted_length a b c d), fun file pcb its s => ?_⟩
    unfold bootTftp
    rw [serverAddress_dotted]
  · intro hfind
    have hdefault : text "10.0.120.78" = dotted 10 0 120 78 := by decide +kernel
    have hname : networkBootServerName r block = some (dotted 10 0 120 78) := by
      unfold networkBootServerName
      rw [dhcpGetOptionPtr_none h hfind]
      exact congrArg some hdefault
    refine ⟨_, hname, fun file pcb its s => ?_⟩
    unfold bootTftp
    rw [serverAddress_dotted]

/-! ### Names that are copied -/

/-- What has no zero is copied as it is. -/
theorem strncpyLoop_eq {src : Mem UInt8} {n : Nat} (hsrc : ∀ i < n, src i ≠ 0) (count i : Nat)
    (hcount : i + count = n) (dest : Mem UInt8) :
    strncpyLoop src count i dest = dest.store i count fun k => src (i + k) := by
  induction count generalizing i dest with
  | zero => rw [strncpyLoop, Mem.store_zero]
  | succ count ih =>
      have hone : Function.update dest i (src i) = dest.store i 1 fun k => src (i + k) :=
        Mem.update_eq_store dest i fun k => src (i + k)
      rw [strncpyLoop, if_neg (hsrc i (by omega)), ih (i + 1) (by omega), hone]
      have hrest := Mem.store_rest dest i i src (show 1 ≤ count + 1 by omega)
      rwa [Nat.add_sub_cancel] at hrest

/-- The block is read as the name if there is a zero behind it, and not as a text otherwise. -/
theorem copyOption_eq {option : Mem UInt8} {o : UInt8 × List UInt8} (h : IsOption option o)
    (hzero : ∀ c ∈ o.2, c ≠ 0) (block : Mem UInt8) :
    copyOption option block = if block o.2.length = 0 then some o.2 else none := by
  set v := o.2 with hv
  have hsrc : ∀ i < v.length, option (2 + i) ≠ 0 := by
    intro i hi
    have hmem : option (2 + i) ∈ option.slice 2 v.length :=
      List.mem_map.mpr ⟨i, List.mem_range.mpr hi, rfl⟩
    rw [h.value] at hmem
    exact hzero _ hmem
  have hcopy : (strncpyLoop (fun k => option (2 + k)) v.length 0 block).slice 0 (v.length + 1)
      = v ++ [block v.length] := by
    rw [strncpyLoop_eq hsrc v.length 0 (by omega), Mem.slice_add, Mem.slice_store, Mem.slice_one,
      Nat.zero_add, Mem.store_outside _ _ (by omega)]
    congr 1
    simpa [Mem.slice] using h.value
  have hfree : (0 : UInt8) ∉ v := fun hmem => hzero 0 hmem rfl
  unfold copyOption cstring
  simp only [h.len, ← hv, hcopy]
  by_cases hb : block v.length = 0
  · rw [if_pos (by simp [hb]), if_pos hb, hb]
    congr 1
    rw [List.takeWhile_append_of_pos (by simpa using hzero)]
    simp
  · rw [if_neg (by simp [hfree, Ne.symm hb]), if_neg hb]

/-- **The file that the reply names is asked for exactly if `mem_malloc` left a zero behind the
name**, and what is read runs out of the block otherwise. -/
theorem bootFileName_terminated {v : List UInt8} (h : Carries r os)
    (hfind : os.find? (fun o => o.1 = dhcpOptionBootfile) = some (dhcpOptionBootfile, v))
    (hzero : ∀ c ∈ v, c ≠ 0) (block : Mem UInt8) :
    networkBootFileName r block = if block v.length = 0 then some v else none := by
  obtain ⟨option, hoption, hread⟩ := dhcpGetOptionPtr_some h hfind
  unfold networkBootFileName
  rw [hoption]
  exact copyOption_eq hread hzero block

/-! ### URLs -/

theorem ne_colon_of_mem {x c : UInt8} (hc : c ∈ octetText x) : c ≠ chr ':' := by
  rintro rfl
  have hdigit := List.all_eq_true.mp (octetText_digits x).1 _ hc
  exact absurd hdigit (by decide)

theorem dotted_no_colon (a b c d : UInt8) : ∀ x ∈ dotted a b c d, x ≠ chr ':' := by
  intro x hx
  have hdot : chr '.' ≠ chr ':' := by decide
  unfold dotted at hx
  simp only [List.mem_append, List.mem_cons] at hx
  rcases hx with hx | rfl | hx | rfl | hx | rfl | hx
  · exact ne_colon_of_mem hx
  · exact hdot
  · exact ne_colon_of_mem hx
  · exact hdot
  · exact ne_colon_of_mem hx
  · exact hdot
  · exact ne_colon_of_mem hx

/-- **A URL with an address as `inet_ntoa` writes it** asks that address for the path. -/
theorem bootTftpUrl_asked (addr : UInt32) (path : List UInt8) (pcb : Bool) (its : List Tftp.Iteration)
    (s : Tftp.Statics) : bootTftpUrl (inetNtoa addr ++ chr ':' :: path) pcb its s
      = Tftp.bootTftp addr path pcb its s := by
  have hlen := dotted_length (octet addr 0) (octet addr 1) (octet addr 2) (octet addr 3)
  have hfree := dotted_no_colon (octet addr 0) (octet addr 1) (octet addr 2) (octet addr 3)
  have haddr := serverAddress_dotted (octet addr 0) (octet addr 1) (octet addr 2) (octet addr 3)
  rw [ofOctets_octet, ← inetNtoa_eq] at haddr
  rw [← inetNtoa_eq] at hlen hfree
  have hcut : cutUrl (inetNtoa addr ++ chr ':' :: path) = (inetNtoa addr, path) := by
    unfold cutUrl
    rw [if_pos (by simp), List.takeWhile_append_of_pos (by simpa using hfree),
      List.dropWhile_append_of_pos (by simpa using hfree), List.takeWhile_cons_of_neg (by simp),
      List.dropWhile_cons_of_neg (by simp), List.append_nil,
      List.take_of_length_le (show (inetNtoa addr).length ≤ 19 by omega)]
    rfl
  unfold bootTftpUrl bootTftp
  rw [hcut, haddr]

/-! A lease time, a server with its address, and a file. -/

def leaseOptions : List (UInt8 × List UInt8) :=
  [(51, [0, 0, 14, 16]), (66, [192, 168, 1, 20]), (67, text "/xenon")]

def leaseReply : Reply where
  optionsIn := fun k => (encode leaseOptions ++ [dhcpOptionEnd]).getD k 0
  optionsInLen := 60
  sname := fun _ => 0

theorem lease_carries : Carries leaseReply leaseOptions :=
  ⟨by unfold Plain; decide +kernel, by decide +kernel, by decide +kernel⟩

theorem bootServerName_asked_lease : ∃ name, networkBootServerName leaseReply (fun _ => 0) = some name ∧
    name.length < 16 ∧ ∀ file pcb its s, bootTftp name file pcb its s
      = Tftp.bootTftp (ofOctets 192 168 1 20) file pcb its s :=
  (bootServerName_asked lease_carries _).1 192 168 1 20 (by decide +kernel)

theorem bootFileName_terminated_lease : networkBootFileName leaseReply (fun _ => 0xaa) = none ∧
    networkBootFileName leaseReply (fun _ => 0) = some (text "/xenon") := by
  have hzero : ∀ c ∈ text "/xenon", c ≠ 0 := by decide +kernel
  exact ⟨(bootFileName_terminated lease_carries (by decide +kernel) hzero _).trans (if_neg (by decide +kernel)),
    (bootFileName_terminated lease_carries (by decide +kernel) hzero _).trans (if_pos rfl)⟩

end Netboot

end Xell
