/-
The HTTP server of `httpd.c`, as it is built for the console (without `UNIX`).

A connection is an `http_state` and the callbacks lwIP makes with it.  The client's bytes
are taken one at a time, by a parser whose only memory is the line buffer.  What is sent
goes through a ring of 4096 bytes: `httpd_handle_server` puts into it as much of the
response as there is room for and is entered again whenever a callback comes by, and
`send_data` hands a contiguous piece of the ring to TCP.

A function that would follow a null pointer, or read behind the memory that is there,
gives `none`.  The texts are C strings: lists of bytes without the NUL at their end.
-/
import Xell.Lib.Ring

namespace Xell.Httpd

/-- The bytes of a string literal. -/
def bytes (s : String) : List UInt8 := s.toList.map fun c => UInt8.ofNat c.toNat

/-- What `sprintf` makes of `"%d"`. -/
def decimal (n : Nat) : List UInt8 := (Nat.toDigits 10 n).map fun c => UInt8.ofNat c.toNat

def maxLinesize : Nat := 256

def sendbufferLen : Nat := 4096

/-! ### What is served -/

/-- A file of the table that the build makes out of a directory.  `mapped` bytes can be read
from `data` on, and the file is the first `len` of them. -/
structure VfsEntry where
  filename : List UInt8
  data : Mem UInt8
  len : Nat
  mimeType : List UInt8
  flags : Nat
  mapped : Nat
  len_le : len ≤ mapped

/-- The entries of the table `http_handler`. -/
inductive Handler where
  | mem
  | fuses
  | vfs
  | err400
  | err404
  deriving DecidableEq

/-- What the handlers read, and whether `mem_malloc` finds the memory that a handler's
`process_request` asks for. -/
structure Site where
  memory : Mem UInt8
  fuses : List UInt8
  vfs : List VfsEntry
  malloc : Handler → Bool

def searchFile (site : Site) (filename : List UInt8) : Option VfsEntry :=
  site.vfs.find? fun f => filename = f.filename

/-! ### The state of a connection -/

/-- The `HTTPD_SERVER_*` states. -/
inductive ServerState where
  | idle
  | response
  | header
  | data
  | close
  deriving DecidableEq

/-- The `HTTPD_CLIENT_*` states. -/
inductive ClientState where
  | request
  | header
  | data
  | idle
  deriving DecidableEq

/-- What `response_priv` points to: one of the three `response_*_priv_s`. -/
inductive Priv where
  | static (data : List UInt8) (ptr len : Nat)
  | vfs (f : VfsEntry) (ptr hdrState : Nat)
  | mem (base len ptr hdrState : Nat)

/-- `http_state`.  `linebuffer` holds the bytes before `linebuffer_ptr`; `written` is not in
the source and collects every byte that was ever put into the ring. -/
structure HttpState where
  stateServer : ServerState
  stateClient : ClientState
  code : Nat
  codeDescr : Option (List UInt8)
  linebuffer : List UInt8
  sendbuffer : Mem UInt8
  sendbufferRead : Nat
  sendbufferWrite : Nat
  stdHeaderState : Nat
  retries : Nat
  handler : Option Handler
  responsePriv : Option Priv
  written : List UInt8

/-! ### The ring -/

def availableSendbuffer (h : HttpState) : Nat :=
  let available : Int := h.sendbufferRead - h.sendbufferWrite
  let available := if available ≤ 0 then available + sendbufferLen else available
  if available < 10 then 0 else (available - 10).toNat

/-- `httpd_put_sendbuffer`, which trusts its caller to have asked for the room.
`httpd_put_sendbuffer_string` is the same on a C string. -/
def putSendbuffer (data : List UInt8) (h : HttpState) : HttpState :=
  let available := sendbufferLen - h.sendbufferWrite
  let byte := fun i => data.getD i 0
  let h' :=
    if data.length ≤ available then
      { h with
        sendbuffer := h.sendbuffer.store h.sendbufferWrite data.length byte
        sendbufferWrite := h.sendbufferWrite + data.length }
    else
      { h with
        sendbuffer :=
          (h.sendbuffer.store h.sendbufferWrite available byte).store 0
            (data.length - available) fun i => byte (available + i)
        sendbufferWrite := data.length - available }
  { h' with
    sendbufferWrite := if h'.sendbufferWrite = sendbufferLen then 0 else h'.sendbufferWrite
    written := h.written ++ data }

/-! ### Handlers: taking the request -/

/-- `response_static_process_request`, which does not report that memory ran out. -/
def responseStaticProcessRequest (text : List UInt8) (malloc : Bool) (h : HttpState) : HttpState :=
  { h with responsePriv := if malloc then some (.static text 0 text.length) else none }

def responseMemProcessRequest (malloc : Bool) (method url : List UInt8) (h : HttpState) :
    Bool × HttpState :=
  if method ≠ bytes "GET" then (false, h)
  else if url ≠ bytes "/MEM" then (false, h)
  else if malloc = false then (false, { h with responsePriv := none })
  else (true, { h with responsePriv := some (.mem 0 (512 * 1024 * 1024) 0 0), code := 200 })

def responseFusesProcessRequest (fuses : List UInt8) (malloc : Bool) (method url : List UInt8)
    (h : HttpState) : Bool × HttpState :=
  if method ≠ bytes "GET" then (false, h)
  else if url ≠ bytes "/FUSE" then (false, h)
  else (true, responseStaticProcessRequest fuses malloc { h with code := 200 })

def responseVfsProcessRequest (site : Site) (malloc : Bool) (method url : List UInt8)
    (h : HttpState) : Bool × HttpState :=
  if method ≠ bytes "GET" then (false, h)
  else
    match searchFile site (if url = bytes "/" then bytes "/index.dhtml" else url) with
    | none => (false, h)
    | some f =>
        if malloc = false then (false, { h with responsePriv := none })
        else (true, { h with responsePriv := some (.vfs f 0 0), code := 200 })

def text400 : List UInt8 :=
  bytes "<http><head><title>400</title></head>\r\n<body>400 - BAD REQUEST</body></html>\r\n"

def text404 : List UInt8 :=
  bytes "<http><head><title>404</title></head>\r\n<body>404 - Document not found</body></html>\r\n"

def responseErr400ProcessRequest (malloc : Bool) (h : HttpState) : Bool × HttpState :=
  if h.code ≠ 400 then (false, h)
  else (true, responseStaticProcessRequest text400 malloc h)

def responseErr404ProcessRequest (malloc : Bool) (h : HttpState) : Bool × HttpState :=
  (true, responseStaticProcessRequest text404 malloc { h with code := 404 })

def processRequest (site : Site) (method url : List UInt8) (h : HttpState) :
    Handler → Bool × HttpState
  | .mem => responseMemProcessRequest (site.malloc .mem) method url h
  | .fuses => responseFusesProcessRequest site.fuses (site.malloc .fuses) method url h
  | .vfs => responseVfsProcessRequest site (site.malloc .vfs) method url h
  | .err400 => responseErr400ProcessRequest (site.malloc .err400) h
  | .err404 => responseErr404ProcessRequest (site.malloc .err404) h

def httpHandler : List Handler := [.mem, .fuses, .vfs, .err400, .err404]

/-- The walk of `httpd_find_handler`.  The last handler takes every request, so that the
walk ends inside the table. -/
def findHandler (site : Site) (method url : List UInt8) : List Handler → HttpState → HttpState
  | [], h => h
  | hd :: hds, h =>
      let r := processRequest site method url h hd
      if r.1 then { r.2 with handler := some hd } else findHandler site method url hds r.2

/-! ### Handlers: sending the response -/

/-- What the `do_*` functions return: 0, 1 and 2. -/
inductive DoResult where
  | done
  | waiting
  | again
  deriving DecidableEq

def doStdHeader (h : HttpState) : DoResult × HttpState :=
  let s := match h.stdHeaderState with
    | 0 => some (bytes "Server: yahd v1.0\r\n")
    | 1 => some (bytes "\r\n")
    | _ => none
  match s with
  | some s =>
      if availableSendbuffer h < s.length then (.waiting, h)
      else (.again, { putSendbuffer s h with stdHeaderState := h.stdHeaderState + 1 })
  | none => (.done, h)

/-- The second half of `response_vfs_do_header` and of `response_mem_do_header`: one header
line.  `next` is the private data after `++priv->hdr_state`. -/
def doField (t o : List UInt8) (next : Priv) (h : HttpState) : DoResult × HttpState :=
  if availableSendbuffer h < t.length + o.length + 4 then (.waiting, h)
  else
    let h := putSendbuffer t h
    let h := putSendbuffer (bytes ": ") h
    let h := putSendbuffer o h
    let h := putSendbuffer (bytes "\r\n") h
    (.again, { h with responsePriv := some next })

def responseStaticDoData (h : HttpState) : Option (DoResult × HttpState) :=
  match h.responsePriv with
  | none => some (.done, h)
  | some (.static data ptr len) =>
      if availableSendbuffer h = 0 then some (.waiting, h)
      else
        let av := min (availableSendbuffer h) len
        let h := putSendbuffer ((data.drop ptr).take av) h
        some (if len - av = 0 then .done else .waiting,
          { h with responsePriv := some (.static data (ptr + av) (len - av)) })
  | some _ => none

def responseMemDoHeader (h : HttpState) : Option (DoResult × HttpState) :=
  match h.responsePriv with
  | some (.mem base len ptr 0) =>
      some (doField (bytes "Content-Type") (bytes "application/binary") (.mem base len ptr 1) h)
  | some (.mem base len ptr 1) =>
      some (doField (bytes "Content-Length") (decimal len) (.mem base len ptr 2) h)
  | some (.mem _ _ _ 2) => some (doStdHeader h)
  | _ => none

/-- The loop of `response_mem_do_data`, which copies at most 1024 bytes at a time. -/
def memLoop (memory : Mem UInt8) (base len hdrState : Nat) :
    Nat → Nat → Nat → HttpState → HttpState
  | 0, _, _, h => h
  | n + 1, ptr, av, h =>
      if av = 0 then h
      else
        let maxread := min 1024 av
        let h := putSendbuffer (memory.slice (base + ptr) maxread) h
        memLoop memory base len hdrState n (ptr + maxread) (av - maxread)
          { h with responsePriv := some (.mem base len (ptr + maxread) hdrState) }

/-- `response_mem_do_data`, which never reports that it is done. -/
def responseMemDoData (site : Site) (h : HttpState) : Option (DoResult × HttpState) :=
  match h.responsePriv with
  | some (.mem base len ptr hdrState) =>
      if availableSendbuffer h = 0 then some (.waiting, h)
      else
        let av := min (availableSendbuffer h) (len - ptr)
        some (.waiting, memLoop site.memory base len hdrState av ptr av h)
  | _ => none

def responseVfsDoHeader (h : HttpState) : Option (DoResult × HttpState) :=
  match h.responsePriv with
  | some (.vfs f ptr 0) => some (doField (bytes "Content-Type") f.mimeType (.vfs f ptr 1) h)
  | some (.vfs f ptr 1) =>
      if f.flags &&& 1 = 0 then
        some (doField (bytes "Content-Length") (decimal f.len) (.vfs f ptr 2) h)
      else some (doStdHeader h)
  | some (.vfs _ _ 2) => some (doStdHeader h)
  | _ => none

/-- What a primitive of `len` bytes between two `%` is replaced by. -/
def dynamicText (len : Nat) : List UInt8 :=
  if len = 0 then bytes "%" else bytes "illegal dhtml primitive"

def responseVfsDoDynamic (len : Nat) (h : HttpState) : DoResult × HttpState :=
  let res := dynamicText len
  if availableSendbuffer h < res.length then (.waiting, h) else (.done, putSendbuffer res h)

/-- The search for the `%` that closes a primitive, which does not stop at the end of the
file: the first one from `e` on, among the `n` bytes that can still be read. -/
def closing (f : VfsEntry) : Nat → Nat → Option Nat
  | 0, _ => none
  | n + 1, e => if f.data e = 0x25 then some e else closing f n (e + 1)

/-- Put the text from `b` to `e`, if there is any. -/
def flushText (f : VfsEntry) (hdrState b e : Nat) (h : HttpState) : HttpState :=
  if e = b then h
  else { putSendbuffer (f.data.slice b (e - b)) h with responsePriv := some (.vfs f e hdrState) }

/-- The loop of `response_vfs_do_data` over a file with primitives, with `b`, `e` and `av` as
there; `n` bounds the number of turns. -/
def dynamicLoop (f : VfsEntry) (hdrState : Nat) :
    Nat → Nat → Nat → Nat → HttpState → Option (DoResult × HttpState)
  | 0, _, _, _, _ => none
  | n + 1, b, e, av, h =>
      if e - b < av ∧ e ≠ f.len then
        if f.mapped ≤ e then none
        else if f.data e = 0x25 then
          let h₁ := flushText f hdrState b e h
          match closing f (f.mapped - (e + 1)) (e + 1) with
          | none => none
          | some q =>
              match responseVfsDoDynamic (q - (e + 1)) h₁ with
              | (.waiting, h₂) => some (.waiting, h₂)
              | (_, h₂) =>
                  dynamicLoop f hdrState n (q + 1) (q + 1) (availableSendbuffer h₂)
                    { h₂ with responsePriv := some (.vfs f (q + 1) hdrState) }
        else dynamicLoop f hdrState n b (e + 1) av h
      else some (if e = f.len then .done else .waiting, flushText f hdrState b e h)

def responseVfsDoData (h : HttpState) : Option (DoResult × HttpState) :=
  match h.responsePriv with
  | some (.vfs f ptr hdrState) =>
      if availableSendbuffer h = 0 then some (.waiting, h)
      else if f.flags &&& 1 = 0 then
        let av := min (availableSendbuffer h) (f.len - ptr)
        if av = 0 then some (.done, h)
        else
          let h := putSendbuffer (f.data.slice ptr av) h
          some (.waiting, { h with responsePriv := some (.vfs f (ptr + av) hdrState) })
      else dynamicLoop f hdrState (f.mapped + 1) ptr ptr (availableSendbuffer h) h
  | _ => none

/-- `do_header` of a handler; where the table has none, the standard header alone. -/
def doHeader (h : HttpState) : Handler → Option (DoResult × HttpState)
  | .mem => responseMemDoHeader h
  | .vfs => responseVfsDoHeader h
  | .fuses => some (doStdHeader h)
  | .err400 => some (doStdHeader h)
  | .err404 => some (doStdHeader h)

def doData (site : Site) (h : HttpState) : Handler → Option (DoResult × HttpState)
  | .mem => responseMemDoData site h
  | .vfs => responseVfsDoData h
  | .fuses => responseStaticDoData h
  | .err400 => responseStaticDoData h
  | .err404 => responseStaticDoData h

/-! ### The server -/

def getDescr (code : Nat) : List UInt8 :=
  match code with
  | 200 => bytes "OK"
  | 404 => bytes "Not Found"
  | 400 => bytes "Bad Request"
  | _ => bytes "Internal Server Error"

/-- The digits of the status code and a blank. -/
def codeText (code : Nat) : List UInt8 :=
  [UInt8.ofNat (code / 100 + 48), UInt8.ofNat (code / 10 % 10 + 48), UInt8.ofNat (code % 10 + 48),
    0x20]

/-- `HTTPD_SERVER_RESPONSE`: whether the status line went out, and the state.  The line is two
bytes longer than `reslen`. -/
def sendStatus (h : HttpState) : Bool × HttpState :=
  let descr := h.codeDescr.getD (getDescr h.code)
  let h := { h with codeDescr := some descr }
  let reslen := 13 + descr.length
  if availableSendbuffer h < reslen then (false, h)
  else
    let h := putSendbuffer (bytes "HTTP/1.0 ") h
    let h := putSendbuffer (codeText h.code) h
    let h := putSendbuffer descr h
    let h := putSendbuffer (bytes "\r\n") h
    (true, { h with stateServer := .header })

/-- What becomes of the result of a `do_*` function: `next` is the state to go to when it is
done, and the loop is left when it waits for room. -/
def advanceServer (next : ServerState) : DoResult × HttpState → Bool × HttpState
  | (.done, h) => (false, { h with stateServer := next })
  | (.waiting, h) => (true, h)
  | (.again, h) => (false, h)

/-- One turn of the loop of `httpd_handle_server`: whether the loop is left, and the state. -/
def serverStep (site : Site) (h : HttpState) : Option (Bool × HttpState) :=
  match h.stateServer with
  | .idle => some (true, h)
  | .response => let r := sendStatus h; some (!r.1, r.2)
  | .header => h.handler.bind fun hd => (doHeader h hd).map (advanceServer .data)
  | .data => h.handler.bind fun hd => (doData site h hd).map (advanceServer .close)
  -- `finish` gives `response_priv` back, and nothing looks at it afterwards
  | .close => some (true, { h with handler := none })

def handleServerLoop (site : Site) : Nat → HttpState → Option HttpState
  | 0, _ => none
  | n + 1, h =>
      match serverStep site h with
      | none => none
      | some (true, h') => some h'
      | some (false, h') => handleServerLoop site n h'

/-- `httpd_handle_server`.  The loop takes at most eight turns: the status line, at most five
for the headers, the body, and the end. -/
def handleServer (site : Site) (h : HttpState) : Option HttpState := handleServerLoop site 8 h

/-! ### The client's bytes -/

/-- `httpd_receive_char`: the state, and the line if this was its end. -/
def receiveChar (c : UInt8) (h : HttpState) : HttpState × Option (List UInt8) :=
  if c = 0x0d then (h, none)
  else
    let line := if h.linebuffer.length < maxLinesize then h.linebuffer ++ [c] else h.linebuffer
    if c = 0x0a then ({ h with linebuffer := [] }, some line)
    else ({ h with linebuffer := line }, none)

/-- Cut a C string at its first blank: what comes before, and what comes after. -/
def cutBlank : List UInt8 → List UInt8 × List UInt8
  | [] => ([], [])
  | c :: cs => if c = 0x20 then ([], cs) else (c :: (cutBlank cs).1, (cutBlank cs).2)

/-- The two cuts `httpd_receive_request` makes: method, path and version. -/
def splitRequest (line : List UInt8) : List UInt8 × List UInt8 × List UInt8 :=
  let m := cutBlank (line.takeWhile (· ≠ 0))
  let p := cutBlank m.2
  (m.1, p.1, p.2)

def badRequest (path version : List UInt8) : Bool :=
  path = [] || version = [] || version.take 7 ≠ bytes "HTTP/1."

def receiveRequest (site : Site) (c : UInt8) (h : HttpState) : HttpState :=
  match receiveChar c h with
  | (h, none) => h
  | (h, some line) =>
      let r := splitRequest line
      let bad := badRequest r.2.1 r.2.2
      let h := if bad then { h with code := 400 } else h
      let path := if bad then [] else r.2.1
      { findHandler site r.1 path httpHandler h with stateClient := .header }

/-- `httpd_start_response`.  No handler has a `start_response`. -/
def startResponse (h : HttpState) : Option HttpState :=
  h.handler.map fun _ => { h with stateClient := .data, stateServer := .response }

/-- `httpd_receive_header`.  No handler has a `process_header`, so that a header line leaves no
trace.  In a line that starts with a NUL the code looks at the byte before the line buffer,
which is the last one of `code_descr` and zero until the response starts. -/
def receiveHeader (c : UInt8) (h : HttpState) : Option HttpState :=
  match receiveChar c h with
  | (h, none) => some h
  | (h, some line) =>
      if line.head? = some 0x0a then startResponse h else h.handler.map fun _ => h

/-- One turn of the loop of `httpd_receive`.  No handler has a `process_data`, and what
follows the header is skipped. -/
def receiveByte (site : Site) (c : UInt8) (h : HttpState) : Option HttpState :=
  match h.stateClient with
  | .request => some (receiveRequest site c h)
  | .header => receiveHeader c h
  | .data => h.handler.map fun _ => h
  | .idle => some h

def receiveLoop (site : Site) : List UInt8 → HttpState → Option HttpState
  | [], h => some h
  | c :: cs, h => (receiveByte site c h).bind (receiveLoop site cs)

/-- `httpd_receive`, on one `pbuf`. -/
def receive (site : Site) (data : List UInt8) (h : HttpState) : Option HttpState :=
  (receiveLoop site data h).bind (handleServer site)

/-! ### The callbacks -/

/-- The results of `tcp_write`. -/
inductive Err where
  | ok
  | mem
  | other
  deriving DecidableEq

/-- What one `send_data` finds: the value of `tcp_sndbuf`, and what `tcp_write` says to a
length.  The lengths that one `tcp_do_send` tries are all different. -/
structure Tcp where
  sndbuf : Nat
  write : Nat → Err

/-- `tcp_do_send`: how many bytes were taken.  `n` bounds the number of turns. -/
def tcpDoSend (write : Nat → Err) : Nat → Nat → Nat
  | 0, _ => 0
  | n + 1, len =>
      match write len with
      | .ok => len
      | .mem => if 1 < len / 2 then tcpDoSend write n (len / 2) else 0
      | .other => 0

/-- A connection: its `http_state`, the bytes `tcp_write` has taken so far, and whether the
callbacks still have that state to work on. -/
structure Conn where
  http : HttpState
  accepted : List UInt8
  alive : Bool

/-- The length `send_data` offers to TCP. -/
def offered (sndbuf : Nat) (h : HttpState) : Nat :=
  let a : Int := h.sendbufferWrite - h.sendbufferRead
  let a : Int := if a < 0 then sendbufferLen - h.sendbufferRead else a
  min sndbuf a.toNat

/-- `send_data` after its call of `httpd_handle_server`. -/
def sendRing (tcp : Tcp) (h : HttpState) (accepted : List UInt8) : Conn :=
  let a := offered tcp.sndbuf h
  let n := tcpDoSend tcp.write (a + 1) a
  let read := h.sendbufferRead + n
  { http := { h with sendbufferRead := if read = sendbufferLen then 0 else read }
    accepted := accepted ++ h.sendbuffer.slice h.sendbufferRead n
    alive := true }

def sendData (site : Site) (tcp : Tcp) (c : Conn) : Option Conn :=
  (handleServer site c.http).map fun h => sendRing tcp h c.accepted

/-- `close_conn`, and `conn_err` for lwIP: the state is given back. -/
def Conn.closed (c : Conn) : Conn := { c with alive := false }

def httpPoll (site : Site) (tcp : Tcp) (c : Conn) : Option Conn :=
  if c.http.handler.isSome ∧ c.http.sendbufferRead ≠ c.http.sendbufferWrite then
    let c := { c with http := { c.http with retries := c.http.retries + 1 } }
    if c.http.retries = 4 then some c.closed else sendData site tcp c
  else some c

def httpSent (site : Site) (tcp : Tcp) (c : Conn) : Option Conn :=
  let c := { c with http := { c.http with retries := 0 } }
  if c.http.sendbufferRead ≠ c.http.sendbufferWrite ∨ c.http.stateServer ≠ .close then
    sendData site tcp c
  else some c.closed

/-- The loop of `http_recv` over the chain of a `pbuf`. -/
def receivePbufs (site : Site) : List (List UInt8) → HttpState → Option HttpState
  | [], h => some h
  | q :: qs, h => (receive site q h).bind (receivePbufs site qs)

def httpRecv (site : Site) (pbufs : List (List UInt8)) (tcp : Tcp) (c : Conn) : Option Conn :=
  (receivePbufs site pbufs c.http).bind fun h => sendData site tcp { c with http := h }

/-- What happens to a connection.  `sendData` is no callback but what the others come down to,
and is here to stand for any other moment of sending. -/
inductive Event where
  | recv (pbufs : List (List UInt8)) (tcp : Tcp)
  | sent (tcp : Tcp)
  | poll (tcp : Tcp)
  | sendData (tcp : Tcp)
  | fin
  | err

def step (site : Site) (e : Event) (c : Conn) : Option Conn :=
  if c.alive = false then some c
  else match e with
    | .recv pbufs tcp => httpRecv site pbufs tcp c
    | .sent tcp => httpSent site tcp c
    | .poll tcp => httpPoll site tcp c
    | .sendData tcp => sendData site tcp c
    | .fin => some c.closed
    | .err => some c.closed

def run (site : Site) : List Event → Conn → Option Conn
  | [], c => some c
  | e :: es, c => (step site e c).bind (run site es)

/-! ### Acknowledgements -/

/-- The callbacks lwIP makes.  `http_sent` is told how many bytes have been acknowledged. -/
inductive Callback where
  | recv (pbufs : List (List UInt8)) (tcp : Tcp)
  | sent (len : Nat) (tcp : Tcp)
  | poll (tcp : Tcp)
  | fin
  | err

def Callback.event : Callback → Event
  | .recv pbufs tcp => .recv pbufs tcp
  | .sent _ tcp => .sent tcp
  | .poll tcp => .poll tcp
  | .fin => .fin
  | .err => .err

def Callback.acks : Callback → Nat
  | .sent len _ => len
  | _ => 0

/-- A connection, and how many of the bytes that `tcp_write` took have been acknowledged. -/
structure Flow where
  conn : Conn
  acked : Nat

/-- Only what was taken can be acknowledged, and `http_sent` does not come for nothing. -/
def Flow.Allows (s : Flow) : Callback → Prop
  | .sent len _ => 0 < len ∧ s.acked + len ≤ s.conn.accepted.length
  | _ => True

instance Flow.Allows.decidable (s : Flow) : (cb : Callback) → Decidable (s.Allows cb)
  | .recv _ _ => isTrue trivial
  | .sent len _ => inferInstanceAs (Decidable (0 < len ∧ s.acked + len ≤ s.conn.accepted.length))
  | .poll _ => isTrue trivial
  | .fin => isTrue trivial
  | .err => isTrue trivial

def Flow.step (site : Site) (cb : Callback) (s : Flow) : Option Flow :=
  if s.Allows cb then
    (Httpd.step site cb.event s.conn).map fun c => ⟨c, s.acked + cb.acks⟩
  else some s

def Flow.run (site : Site) : List Callback → Flow → Option Flow
  | [], s => some s
  | cb :: cbs, s => (Flow.step site cb s).bind (Flow.run site cbs)

/-- `http_accept` and `httpd_init`.  The ring and `response_priv` are as `mem_malloc` found
them. -/
def accept (sendbuffer : Mem UInt8) (responsePriv : Option Priv) : Conn where
  http :=
    { stateServer := .idle
      stateClient := .request
      code := 500
      codeDescr := none
      linebuffer := []
      sendbuffer := sendbuffer
      sendbufferRead := 0
      sendbufferWrite := 0
      stdHeaderState := 0
      retries := 0
      handler := none
      responsePriv := responsePriv
      written := [] }
  accepted := []
  alive := true

end Xell.Httpd
