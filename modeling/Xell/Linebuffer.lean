/-
The line buffer of `httpd.c` as the array it is.

`Httpd.lean` keeps the collected line as a list.  In the source it is an array of 257 bytes in
the middle of `http_state`, and the parser walks over it with pointers, cuts it with NULs and
measures it with `strlen`.  Here the functions that do so are written on the memory around the
array, addressed from its start, so that -1 and 257 are places too; they remember every place
that they read or write.

A loop that looks for a NUL has no other end.  `n` bounds its turns, and `none` stands for
running on.
-/
import Xell.Httpd

namespace Xell.Httpd

/-- `linebuffer` with what lies around it, and `linebuffer_ptr`.  `touched` is not in the source
and collects the places that were read or written. -/
structure Linebuffer where
  mem : Int → UInt8
  ptr : Int
  touched : List Int

def Linebuffer.read (i : Int) (b : Linebuffer) : Linebuffer :=
  { b with touched := b.touched ++ [i] }

def Linebuffer.write (i : Int) (c : UInt8) (b : Linebuffer) : Linebuffer :=
  { b with mem := Function.update b.mem i c, touched := b.touched ++ [i] }

/-! ### The parser -/

/-- `httpd_receive_char`: whether a line is complete. -/
def receiveCharAt (c : UInt8) (b : Linebuffer) : Bool × Linebuffer :=
  if c = 0x0d then (false, b)
  else
    let b := if b.ptr < maxLinesize then { b.write b.ptr c with ptr := b.ptr + 1 } else b
    if c = 0x0a then (true, { b.write b.ptr 0 with ptr := 0 }) else (false, b)

/-- The two loops of `httpd_receive_request`: go to the first blank, put a NUL there and stop
behind it, or stop at the NUL. -/
def blankLoop : Nat → Int → Linebuffer → Option (Int × Linebuffer)
  | 0, _, _ => none
  | n + 1, p, b =>
      let b := b.read p
      if b.mem p = 0 then some (p, b)
      else if b.mem p = 0x20 then some (p + 1, b.write p 0)
      else blankLoop n (p + 1) b

/-- `strncmp` of the C string at `p` with a literal that is as long as the count: whether they
are equal. -/
def strncmpAt : List UInt8 → Int → Linebuffer → Bool × Linebuffer
  | [], _, b => (true, b)
  | t :: ts, p, b =>
      let b := b.read p
      if b.mem p ≠ t then (false, b)
      else if b.mem p = 0 then (true, b)
      else strncmpAt ts (p + 1) b

/-- `(!*path) || (!*version) || strncmp(version, "HTTP/1.", 7)` -/
def badRequestAt (path version : Int) (b : Linebuffer) : Bool × Linebuffer :=
  let b := b.read path
  if b.mem path = 0 then (true, b)
  else
    let b := b.read version
    if b.mem version = 0 then (true, b)
    else
      let r := strncmpAt (bytes "HTTP/1.") version b
      (!r.1, r.2)

/-- `httpd_receive_request`: at the end of a line, where its path starts and whether it is a bad
request.  The method starts where the line does. -/
def receiveRequestAt (c : UInt8) (b : Linebuffer) : Option (Option (Int × Bool) × Linebuffer) :=
  match receiveCharAt c b with
  | (false, b) => some (none, b)
  | (true, b) =>
      (blankLoop (maxLinesize + 1) 0 b).bind fun path =>
        (blankLoop (maxLinesize + 1) path.1 path.2).map fun version =>
          let r := badRequestAt path.1 version.1 version.2
          (some (path.1, r.1), r.2)

/-- The loop of `httpd_receive_header`, to what follows the colon and at most one blank. -/
def colonLoop : Nat → Int → Linebuffer → Option (Int × Linebuffer)
  | 0, _, _ => none
  | n + 1, p, b =>
      let b := b.read p
      if b.mem p = 0 then some (p, b)
      else if b.mem p = 0x3a then
        let b := (b.write p 0).read (p + 1)
        some (if b.mem (p + 1) = 0x20 then p + 2 else p + 1, b)
      else colonLoop n (p + 1) b

def strlenAt : Nat → Int → Linebuffer → Option (Nat × Linebuffer)
  | 0, _, _ => none
  | n + 1, p, b =>
      let b := b.read p
      if b.mem p = 0 then some (0, b)
      else (strlenAt n (p + 1) b).map fun r => (r.1 + 1, r.2)

/-- The newline at the end of a header's value becomes a NUL. -/
def trimAt (val : Int) (b : Linebuffer) : Option Linebuffer :=
  (strlenAt (maxLinesize + 1) val b).bind fun r =>
    let b := r.2.read (val + r.1 - 1)
    if b.mem (val + r.1 - 1) = 0x0a then
      (strlenAt (maxLinesize + 1) val b).map fun r => r.2.write (val + r.1 - 1) 0
    else some b

/-- `httpd_receive_header`: whether this was the empty line. -/
def receiveHeaderAt (c : UInt8) (b : Linebuffer) : Option (Bool × Linebuffer) :=
  match receiveCharAt c b with
  | (false, b) => some (false, b)
  | (true, b) =>
      let b := b.read 0
      if b.mem 0 = 0x0a then some (true, b)
      else
        (colonLoop (maxLinesize + 1) 0 b).bind fun val =>
          (trimAt val.1 val.2).map fun b => (false, b)

/-! ### The client's bytes -/

/-- What the parser is made of: `state_client` and the line buffer. -/
structure LineParser where
  client : ClientState
  buffer : Linebuffer

/-- A byte in `httpd_receive`. -/
def LineParser.byte (c : UInt8) (s : LineParser) : Option LineParser :=
  match s.client with
  | .request =>
      (receiveRequestAt c s.buffer).map fun r => ⟨if r.1.isSome then .header else .request, r.2⟩
  | .header =>
      (receiveHeaderAt c s.buffer).map fun r => ⟨if r.1 then .data else .header, r.2⟩
  | .data => some s
  | .idle => some s

def LineParser.run : List UInt8 → LineParser → Option LineParser
  | [], s => some s
  | c :: cs, s => (s.byte c).bind (LineParser.run cs)

/-- `httpd_init`, which clears the line buffer's pointer and not the line buffer. -/
def LineParser.init (mem : Int → UInt8) : LineParser := ⟨.request, ⟨mem, 0, []⟩⟩

/-- The places touched so far are inside of the array, and so is the next one. -/
structure Linebuffer.Inside (b : Linebuffer) : Prop where
  touched : ∀ i ∈ b.touched, 0 ≤ i ∧ i ≤ maxLinesize
  ptr : 0 ≤ b.ptr ∧ b.ptr ≤ maxLinesize

end Xell.Httpd
