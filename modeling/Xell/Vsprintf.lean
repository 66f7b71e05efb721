/-
Formatted output and the reading of numbers, from `vsprintf.c` and `ctype.c`.

A string is the list of its bytes, without the zero that ends it.  `vsprintf` writes one byte after
the other, so what it has written is a list too, and the arguments are taken from a list as
`va_arg` takes them.  A call that takes an argument which is not there, or of the wrong kind, gives
nothing.

`long` is 64 bits.  A width or a precision is read as an `int`, and is an integer from then on.
-/
import Mathlib.Tactic

namespace Xell.Vsprintf

/-- The bytes of a string constant. -/
def text (s : String) : List UInt8 := s.toList.map fun c => UInt8.ofNat c.toNat

/-- A character constant. -/
def chr (c : Char) : UInt8 := UInt8.ofNat c.toNat

/-! ### ctype -/

def ctypeU : UInt8 := 0x01

def ctypeL : UInt8 := 0x02

def ctypeD : UInt8 := 0x04

def ctypeC : UInt8 := 0x08

def ctypeP : UInt8 := 0x10

def ctypeS : UInt8 := 0x20

def ctypeX : UInt8 := 0x40

def ctypeSP : UInt8 := 0x80

/-- `_ctype`. -/
def ctype : List UInt8 :=
  List.replicate 9 ctypeC ++ List.replicate 5 (ctypeC ||| ctypeS) ++ List.replicate 18 ctypeC
  ++ [ctypeS ||| ctypeSP] ++ List.replicate 15 ctypeP
  ++ List.replicate 10 ctypeD ++ List.replicate 7 ctypeP
  ++ List.replicate 6 (ctypeU ||| ctypeX) ++ List.replicate 20 ctypeU ++ List.replicate 6 ctypeP
  ++ List.replicate 6 (ctypeL ||| ctypeX) ++ List.replicate 20 ctypeL ++ List.replicate 4 ctypeP
  ++ [ctypeC] ++ List.replicate 32 0
  ++ [ctypeS ||| ctypeSP] ++ List.replicate 31 ctypeP
  ++ List.replicate 23 ctypeU ++ [ctypeP] ++ List.replicate 7 ctypeU
  ++ List.replicate 24 ctypeL ++ [ctypeP] ++ List.replicate 8 ctypeL

/-- `__ismask`, with the bits that are asked for. -/
def ismask (c bits : UInt8) : Bool := ctype.getD c.toNat 0 &&& bits ≠ 0

def isdigit (c : UInt8) : Bool := ismask c ctypeD

def islower (c : UInt8) : Bool := ismask c ctypeL

def isxdigit (c : UInt8) : Bool := ismask c (ctypeD ||| ctypeX)

def toupper (c : UInt8) : UInt8 := if islower c then c - (chr 'a' - chr 'A') else c

/-! ### Numbers that are read -/

/-- What a digit stands for. -/
def digitValue (c : UInt8) : BitVec 64 :=
  if isdigit c then BitVec.ofNat 64 c.toNat - 48
  else BitVec.ofNat 64 (if islower c then toupper c else c).toNat - 65 + 10

/-- The loop of `simple_strtoul`. -/
def strtoulLoop (base : BitVec 32) : List UInt8 → BitVec 64 → BitVec 64 × List UInt8
  | [], result => (result, [])
  | c :: cp, result =>
      if isxdigit c && digitValue c < base.setWidth 64 then
        strtoulLoop base cp (result * base.setWidth 64 + digitValue c)
      else (result, c :: cp)

/-- The beginning of it, which looks for `0x`. -/
def strtoulBase (cp : List UInt8) (base : BitVec 32) : List UInt8 × BitVec 32 :=
  if cp.headD 0 = chr '0' then
    let cp := cp.tail
    if cp.headD 0 = chr 'x' && isxdigit (cp.getD 1 0) then (cp.tail, 16)
    else (cp, if base = 0 then 8 else base)
  else (cp, base)

/-- `simple_strtoul`: the number, and what comes behind it. -/
def simpleStrtoul (cp : List UInt8) (base : BitVec 32) : BitVec 64 × List UInt8 :=
  let (cp, base) := strtoulBase cp base
  strtoulLoop (if base = 0 then 10 else base) cp 0

def simpleStrtol (cp : List UInt8) (base : BitVec 32) : BitVec 64 × List UInt8 :=
  if cp.headD 0 = chr '-' then
    let (result, cp) := simpleStrtoul cp.tail base
    (-result, cp)
  else simpleStrtoul cp base

/-! ### Numbers that are written -/

/-- The bits of `type`. -/
structure Flags where
  zeropad : Bool
  sign : Bool
  plus : Bool
  space : Bool
  left : Bool
  special : Bool
  large : Bool
deriving DecidableEq

/-- `flags = 0`. -/
def noFlags : Flags := ⟨false, false, false, false, false, false, false⟩

/-- `digits`. -/
def digits (large : Bool) : List UInt8 :=
  if large then text "0123456789ABCDEFGHIJKLMNOPQRSTUVWXYZ"
  else text "0123456789abcdefghijklmnopqrstuvwxyz"

/-- The loop that fills `tmp`, the lowest digit first.  It has no more turns than `num` has bits. -/
def tmpLoop (ds : List UInt8) (base : Nat) : Nat → Nat → List UInt8
  | 0, _ => []
  | fuel + 1, num =>
      if num = 0 then [] else ds.getD (num % base) 0 :: tmpLoop ds base fuel (num / base)

/-- `while (size-- > 0) *str++ = c`: what is written, and `size` behind it. -/
def pad (size : Int) (c : UInt8) : List UInt8 × Int :=
  (List.replicate size.toNat c, (if 0 < size then 0 else size) - 1)

/-- The sign that is written, and the number without it. -/
def numberSign (num : BitVec 64) (type : Flags) : List UInt8 × BitVec 64 :=
  if type.sign then
    if num.toInt < 0 then ([chr '-'], -num)
    else if type.plus then ([chr '+'], num)
    else if type.space then ([chr ' '], num)
    else ([], num)
  else ([], num)

/-- What `SPECIAL` writes in front of a number. -/
def numberPrefix (base : Nat) (type : Flags) : List UInt8 :=
  if type.special then
    if base = 8 then [chr '0']
    else if base = 16 then [chr '0', (digits type.large).getD 33 0]
    else []
  else []

/-- The field is filled up with blanks in front, zeros in the middle, or blanks at the end. -/
def numberFill (size : Int) (type : Flags) (front back : List UInt8) : List UInt8 :=
  let (blanks, size) := if type.zeropad || type.left then ([], size) else pad size (chr ' ')
  let (fill, size) :=
    if type.left then ([], size) else pad size (if type.zeropad then chr '0' else chr ' ')
  blanks ++ front ++ fill ++ back ++ (pad size (chr ' ')).1

/-- `number`, for a base that it takes. -/
def numberText (num : BitVec 64) (base : Nat) (size precision : Int) (type : Flags) : List UInt8 :=
  let type := if type.left then { type with zeropad := false } else type
  let (sign, num) := numberSign num type
  let special := numberPrefix base type
  let tmp :=
    if num = 0 then [chr '0'] else tmpLoop (digits type.large) base 64 num.toNat
  let precision := if precision < tmp.length then (tmp.length : Int) else precision
  numberFill (size - sign.length - special.length - precision) type (sign ++ special)
    (List.replicate (precision - tmp.length).toNat (chr '0') ++ tmp.reverse)

def number (num : BitVec 64) (base : Nat) (size precision : Int) (type : Flags) :
    Option (List UInt8) :=
  if base < 2 ∨ 36 < base then none else some (numberText num base size precision type)

/-! ### Formats -/

/-- An argument: a word, or the string that it points to. -/
inductive Arg where
  | word (v : BitVec 64)
  | str (s : Option (List UInt8))

/-- `va_arg`, for a number or a pointer that is not followed. -/
def vaWord : List Arg → Option (BitVec 64 × List Arg)
  | .word v :: args => some (v, args)
  | _ => none

/-- `va_arg(args, int)`. -/
def vaInt (args : List Arg) : Option (BitVec 32 × List Arg) :=
  (vaWord args).map fun q => (q.1.setWidth 32, q.2)

/-- `va_arg(args, char *)`. -/
def vaStr : List Arg → Option (Option (List UInt8) × List Arg)
  | .str s :: args => some (s, args)
  | _ => none

/-- `is_digit`. -/
def isDigit (c : UInt8) : Bool := chr '0' ≤ c && c ≤ chr '9'

/-- `skip_atoi`.  Its counter is an `int`. -/
def skipAtoi : List UInt8 → BitVec 32 → BitVec 32 × List UInt8
  | [], i => (i, [])
  | c :: s, i =>
      if isDigit c then skipAtoi s (i * 10 + BitVec.ofNat 32 c.toNat - 48) else (i, c :: s)

/-- The flags that a directive begins with. -/
def readFlags : List UInt8 → Flags → Flags × List UInt8
  | [], flags => (flags, [])
  | c :: fmt, flags =>
      if c = chr '-' then readFlags fmt { flags with left := true }
      else if c = chr '+' then readFlags fmt { flags with plus := true }
      else if c = chr ' ' then readFlags fmt { flags with space := true }
      else if c = chr '#' then readFlags fmt { flags with special := true }
      else if c = chr '0' then readFlags fmt { flags with zeropad := true }
      else (flags, c :: fmt)

/-- The variables of a directive. -/
structure Directive where
  flags : Flags
  fieldWidth : Int
  precision : Int
  qualifier : Option UInt8

/-- The field width. -/
def readWidth (fmt : List UInt8) (flags : Flags) (args : List Arg) :
    Option (Int × Flags × List UInt8 × List Arg) :=
  if isDigit (fmt.headD 0) then
    some ((skipAtoi fmt 0).1.toInt, flags, (skipAtoi fmt 0).2, args)
  else if fmt.headD 0 = chr '*' then do
    let (width, args) ← vaInt args
    if width.toInt < 0 then some ((-width).toInt, { flags with left := true }, fmt.tail, args)
    else some (width.toInt, flags, fmt.tail, args)
  else some (-1, flags, fmt, args)

/-- The precision. -/
def readPrecision (fmt : List UInt8) (args : List Arg) : Option (Int × List UInt8 × List Arg) :=
  if fmt.headD 0 = chr '.' then
    let fmt := fmt.tail
    if isDigit (fmt.headD 0) then
      some (max (skipAtoi fmt 0).1.toInt 0, (skipAtoi fmt 0).2, args)
    else if fmt.headD 0 = chr '*' then do
      let (precision, args) ← vaInt args
      some (max precision.toInt 0, fmt.tail, args)
    else some (0, fmt, args)
  else some (-1, fmt, args)

def readQualifier (fmt : List UInt8) : Option UInt8 × List UInt8 :=
  if fmt.headD 0 = chr 'h' ∨ fmt.headD 0 = chr 'l' ∨ fmt.headD 0 = chr 'L' then
    (some (fmt.headD 0), fmt.tail)
  else (none, fmt)

/-- What was written: the text, and for `%n` the addresses, how many bytes, and the length. -/
structure Out where
  text : List UInt8
  counts : List (BitVec 64 × Nat × Nat)

def Out.put (out : Out) (s : List UInt8) : Out := { out with text := out.text ++ s }

/-- `%c`. -/
def convChar (d : Directive) (c : UInt8) : List UInt8 :=
  let (before, width) :=
    if d.flags.left then ([], d.fieldWidth) else pad (d.fieldWidth - 1) (chr ' ')
  before ++ [c] ++ (pad (width - 1) (chr ' ')).1

/-- `%s`. -/
def convStr (d : Directive) (s : Option (List UInt8)) : List UInt8 :=
  let s := s.getD (text "<NULL>")
  let len := if d.precision < 0 then s.length else min s.length d.precision.toNat
  let (before, width) :=
    if d.flags.left then ([], d.fieldWidth - len) else pad (d.fieldWidth - len) (chr ' ')
  before ++ s.take len ++ (pad width (chr ' ')).1

/-- The number that an integer conversion takes. -/
def convArg (d : Directive) (flags : Flags) (args : List Arg) : Option (BitVec 64 × List Arg) :=
  if d.qualifier = some (chr 'l') then vaWord args
  else do
    let (v, args) ← vaInt args
    if d.qualifier = some (chr 'h') then
      if flags.sign then some ((v.setWidth 16).signExtend 64, args)
      else some ((v.setWidth 16).setWidth 64, args)
    else if flags.sign then some (v.signExtend 64, args)
    else some (v.setWidth 64, args)

/-- An integer conversion. -/
def convNumber (d : Directive) (base : Nat) (flags : Flags) (args : List Arg) (out : Out) :
    Option (List Arg × Out) := do
  let (num, args) ← convArg d flags args
  let str ← number num base d.fieldWidth d.precision flags
  some (args, out.put str)

/-- `%p`. -/
def convPointer (d : Directive) (args : List Arg) (out : Out) : Option (List Arg × Out) := do
  let (p, args) ← vaWord args
  let width := if d.fieldWidth = -1 then 16 else d.fieldWidth
  let flags := if d.fieldWidth = -1 then { d.flags with zeropad := true } else d.flags
  let str ← number p 16 width d.precision flags
  some (args, out.put str)

/-- The conversion that a directive ends with.  What is none is written as it is. -/
def conversion (d : Directive) (c : UInt8) (args : List Arg) (out : Out) :
    Option (List Arg × Out) :=
  if c = chr 'c' then
    (vaInt args).map fun q => (q.2, out.put (convChar d (UInt8.ofNat q.1.toNat)))
  else if c = chr 's' then (vaStr args).map fun q => (q.2, out.put (convStr d q.1))
  else if c = chr 'p' then convPointer d args out
  else if c = chr 'n' then
    let bytes := if d.qualifier = some (chr 'l') then 8 else 4
    (vaWord args).map fun q =>
      (q.2, { out with counts := out.counts ++ [(q.1, bytes, out.text.length)] })
  else if c = chr '%' then some (args, out.put [chr '%'])
  else if c = chr 'o' then convNumber d 8 d.flags args out
  else if c = chr 'X' then convNumber d 16 { d.flags with large := true } args out
  else if c = chr 'x' then convNumber d 16 d.flags args out
  else if c = chr 'd' ∨ c = chr 'i' then convNumber d 10 { d.flags with sign := true } args out
  else if c = chr 'u' then convNumber d 10 d.flags args out
  else some (args, out.put [chr '%', c])

/-- The same at the end of a format, where there is none. -/
def convert (d : Directive) (args : List Arg) (out : Out) :
    List UInt8 → Option (List UInt8 × List Arg × Out)
  | [] => some ([], args, out.put [chr '%'])
  | c :: fmt => (conversion d c args out).map (fmt, ·)

/-- What comes behind a `%`. -/
def directive (fmt : List UInt8) (args : List Arg) (out : Out) :
    Option (List UInt8 × List Arg × Out) := do
  let (flags, fmt) := readFlags fmt noFlags
  let (fieldWidth, flags, fmt, args) ← readWidth fmt flags args
  let (precision, fmt, args) ← readPrecision fmt args
  let (qualifier, fmt) := readQualifier fmt
  convert ⟨flags, fieldWidth, precision, qualifier⟩ args out fmt

/-- The loop of `vsprintf`.  It has no more turns than the format has characters. -/
def vsprintfLoop : Nat → List UInt8 → List Arg → Out → Option Out
  | _, [], _, out => some out
  | 0, _ :: _, _, _ => none
  | fuel + 1, c :: fmt, args, out =>
      if c ≠ chr '%' then vsprintfLoop fuel fmt args (out.put [c])
      else do
        let (fmt, args, out) ← directive fmt args out
        vsprintfLoop fuel fmt args out

def vsprintf (fmt : List UInt8) (args : List Arg) : Option Out :=
  vsprintfLoop fmt.length fmt args ⟨[], []⟩

/-- `sprintf`: the string it leaves.  It returns the length. -/
def sprintf (fmt : List UInt8) (args : List Arg) : Option (List UInt8) :=
  (vsprintf fmt args).map (·.text)

/-! ### The fuses -/

def fuseFormat : List UInt8 := text "fuseset %02d: %016lx\n"

/-- The loop of `main` that fills `FUSES`, from the fuse `i` on. -/
def fusesLoop : Nat → List (BitVec 64) → Option (List UInt8)
  | _, [] => some []
  | i, fuse :: fuses => do
      let line ← sprintf fuseFormat [.word (BitVec.ofNat 64 i), .word fuse]
      let rest ← fusesLoop (i + 1) fuses
      some (line ++ rest)

end Xell.Vsprintf
