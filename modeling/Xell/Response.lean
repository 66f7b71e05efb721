/-
What the HTTP server is for: a request has one response.

This is the response as a text, without rings, callbacks or resuming.  Which one it is
depends on the request line alone, and it is the status line, the handler's own header
lines, the `Server` line, an empty line and the body.
-/
import Xell.Httpd

namespace Xell.Httpd

/-! ### Bodies -/

theorem closing_ge {f : VfsEntry} {n e q : Nat} (h : closing f n e = some q) : e ≤ q := by
  induction n generalizing e with
  | zero => simp [closing] at h
  | succ n ih =>
      unfold closing at h
      split at h
      · injection h with h
        exact Nat.le_of_eq h
      · exact Nat.le_of_succ_le (ih h)

/-- A file with primitives from position `e` on: the text as it stands, and every primitive
replaced.  It ends with the file; a primitive that is not closed there goes on behind it. -/
def dhtml (f : VfsEntry) (e : Nat) : List UInt8 :=
  if e = f.len ∨ f.mapped ≤ e then []
  else if f.data e = 0x25 then
    match _hq : closing f (f.mapped - (e + 1)) (e + 1) with
    | none => []
    | some q => dynamicText (q - (e + 1)) ++ dhtml f (q + 1)
  else f.data e :: dhtml f (e + 1)
termination_by f.mapped - e
decreasing_by
  · have := closing_ge _hq
    omega
  · omega

/-- The `%` of the file from position `e` on come in pairs. -/
def Paired (f : VfsEntry) (e : Nat) : Prop :=
  e ≤ f.len ∧ Even ((f.data.slice e (f.len - e)).count 0x25)

/-! ### The response -/

/-- A header line. -/
def fieldLine (field : List UInt8 × List UInt8) : List UInt8 :=
  field.1 ++ bytes ": " ++ field.2 ++ bytes "\r\n"

structure Response where
  handler : Handler
  code : Nat
  fields : List (List UInt8 × List UInt8)
  body : List UInt8

def statusLine (code : Nat) : List UInt8 :=
  bytes "HTTP/1.0 " ++ codeText code ++ getDescr code ++ bytes "\r\n"

def Response.text (r : Response) : List UInt8 :=
  statusLine r.code ++ r.fields.flatMap fieldLine ++ bytes "Server: yahd v1.0\r\n" ++
    bytes "\r\n" ++ r.body

/-- The header lines of a file; a file with primitives has no known length. -/
def vfsFields (f : VfsEntry) : List (List UInt8 × List UInt8) :=
  if f.flags &&& 1 = 0 then
    [(bytes "Content-Type", f.mimeType), (bytes "Content-Length", decimal f.len)]
  else [(bytes "Content-Type", f.mimeType)]

def memFields (len : Nat) : List (List UInt8 × List UInt8) :=
  [(bytes "Content-Type", bytes "application/binary"), (bytes "Content-Length", decimal len)]

def vfsBody (f : VfsEntry) (ptr : Nat) : List UInt8 :=
  if f.flags &&& 1 = 0 then f.data.slice ptr (f.len - ptr) else dhtml f ptr

def memResponse (site : Site) : Response where
  handler := .mem
  code := 200
  fields := memFields (512 * 1024 * 1024)
  body := site.memory.slice 0 (512 * 1024 * 1024)

def vfsResponse (f : VfsEntry) : Response where
  handler := .vfs
  code := 200
  fields := vfsFields f
  body := vfsBody f 0

/-- The response of a handler that serves a fixed text. -/
def staticResponse (handler : Handler) (code : Nat) (body : List UInt8) : Response where
  handler := handler
  code := code
  fields := []
  body := body

/-- The file that a request names, if it names one. -/
def requestedFile (site : Site) (method path : List UInt8) : Option VfsEntry :=
  if method = bytes "GET" then
    searchFile site (if path = bytes "/" then bytes "/index.dhtml" else path)
  else none

/-- The response to a request with this method and path, or to one that is none. -/
def route (site : Site) (method path : List UInt8) (bad : Bool) : Response :=
  if method = bytes "GET" ∧ path = bytes "/MEM" then memResponse site
  else if method = bytes "GET" ∧ path = bytes "/FUSE" then staticResponse .fuses 200 site.fuses
  else match requestedFile site method path with
    | some f => vfsResponse f
    | none => if bad then staticResponse .err400 400 text400 else staticResponse .err404 404 text404

/-- A line as the server sees it: without its `\r`, and no longer than the line buffer. -/
def lineSeen (line : List UInt8) : List UInt8 :=
  (line.filter (· ≠ 0x0d)).take maxLinesize

/-- The response to a request line, which is given without the newline at its end. -/
def respond (site : Site) (line : List UInt8) : Response :=
  let r := splitRequest (lineSeen (line ++ [0x0a]))
  let bad := badRequest r.2.1 r.2.2
  route site r.1 (if bad then [] else r.2.1) bad

/-! ### What a client sends -/

/-- A request line, header lines and an empty line.  The lines are given without their
newlines; no header line is empty or starts with a NUL. -/
structure Stream where
  request : List UInt8
  headers : List (List UInt8)
  blank : List UInt8
  request_line : 0x0a ∉ request
  header_line : ∀ l ∈ headers, 0x0a ∉ l
  header_start : ∀ l ∈ headers, ∃ c, (l.filter (· ≠ 0x0d)).head? = some c ∧ c ≠ 0
  blank_line : ∀ c ∈ blank, c = 0x0d

/-- The header lines and the empty line. -/
def Stream.tail (s : Stream) : List UInt8 :=
  (s.headers.flatMap fun l => l ++ [0x0a]) ++ (s.blank ++ [0x0a])

def Stream.bytes (s : Stream) : List UInt8 := s.request ++ [0x0a] ++ s.tail

end Xell.Httpd
