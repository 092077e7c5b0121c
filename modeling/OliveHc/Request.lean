/-
The flow of the requests on one connection (`request.c`): reading a head,
answering, draining a body, and starting over on a connection that is kept.

What the rest of the program answers (a hit or a miss, a block or none, a
worker's pipe that is full) and what the system calls return are the labels
of the steps. `recv` takes any number of bytes of what the client has sent.
A C call that ends in another one (`request_finalize` in
`request_do_finalize`) is two steps here; nothing else touches the request
in between.
-/
import OliveHc.Lib.System
import OliveHc.Http.Frame

namespace OliveHc

def reqBufSize : Nat := 4096
def recvBufSize : Nat := 100 * 1024

/-- What `request.c` reads of `r->item`. -/
structure ItemView where
  length : Nat
  headersLen : Nat
deriving DecidableEq, Repr

/-- Where a request is: at a call that waits for its next event, or in
between two calls. -/
inductive Phase
  /-- `request_read_request_header` waits for bytes. -/
  | readHeader
  /-- `http_request_parse` has returned. -/
  | parsed (rc : ParseRc)
  /-- Dispatched to `request_put_read_request_body_preread`. -/
  | preread
  /-- `request_put_read_request_body` waits for bytes. -/
  | readBody
  /-- Dispatched to `request_get_write_response`. -/
  | response
  /-- Dispatched to `request_get_write_response_206_header_mem`. -/
  | header206
  /-- `request_get_write_response_206_header_disk`. -/
  | disk206
  /-- `request_get_write_response_206_body`. -/
  | body206
  /-- `request_finalize` is done, `request_do_finalize` is next. -/
  | finalizing
  | closed
deriving DecidableEq, Repr

/-- An `ohc_request_t` with its connection: the bytes the client has sent
and `recv` has not returned, those received since `request_reset`, and for
each request after which the connection was kept, what had been received
for it and its parsed fields. `total` is all that the client ever sends. -/
structure Conn where
  r : Request
  buffer : List UInt8
  bufPos : Nat
  item : Option ItemView
  worker : Bool
  active : Bool
  broken : Bool
  diskError : Bool
  processSize : Nat
  outputSize : Nat
  inputSize : Nat
  phase : Phase
  stream : List UInt8
  received : List UInt8
  kept : List (List UInt8 × Request)
  total : List UInt8
deriving DecidableEq, Repr

/-- `http_code_page`; a code without a page is a NULL that is dereferenced. -/
def httpCodePage : Nat → Option (List UInt8)
  | 201 => some (lit "HTTP/1.1 201 Created\r\n\r\n")
  | 204 => some (lit "HTTP/1.1 204 No Content\r\n\r\n")
  | 400 => some (lit "HTTP/1.1 400 Bad Request\r\nContent-Length: 0\r\n\r\n")
  | 404 => some (lit "HTTP/1.1 404 Not Found\r\nContent-Length: 0\r\n\r\n")
  | 413 => some (lit "HTTP/1.1 413 Request Entity Too Large\r\nContent-Length: 0\r\n\r\n")
  | 416 => some (lit "HTTP/1.1 416 Requested Range Not Satisfiable\r\nContent-Length: 0\r\n\r\n")
  | 500 => some (lit "HTTP/1.1 500 Internal Server Error\r\nContent-Length: 0\r\n\r\n")
  | _ => none

/-- What `server_request_put_handler` returns. -/
inductive StoreRc
  | ok (item : ItemView)
  | decline (reason : String)
  | error (reason : Option String)
deriving DecidableEq, Repr

/-- What the calls that follow an accepted parse return. -/
structure Outcome where
  /-- `server_request_get_handler`: the item, or none for a miss. -/
  lookup : Option ItemView
  /-- `server_request_put_handler`. -/
  store : StoreRc
  /-- `server_request_delete_handler`. -/
  delete : Bool
  /-- `worker_request_dispatch`. -/
  dispatch : Bool
  /-- The `send` of a code page. -/
  send : Bool
  shutdownIfNotStore : Bool

/-- What `sendfile` returns. -/
inductive Sendfile
  | bytes (n : Nat)
  | diskError
  | socketError
deriving DecidableEq, Repr

namespace Conn

/-- `request_finalize`, up to `request_do_finalize`. `send` says whether the
`send` of the code page takes all of it. -/
def requestFinalize (send : Bool) (c : Conn) : Option Conn :=
  if !c.broken && c.outputSize == 0 then
    (httpCodePage c.r.httpCode).map fun page =>
      if send then { c with outputSize := page.length, phase := .finalizing }
      else { c with
        broken := true, r := { c.r with errorReason := some "SendError" }, phase := .finalizing }
  else some { c with phase := .finalizing }

/-- The `strshow`s of the access log write a NUL behind each string. -/
def strshow (buffer : List UInt8) (s : Option Slice) : List UInt8 :=
  match s with
  | none => buffer
  | some s => buffer.set (s.base + s.len) 0

def accessLog (c : Conn) : List UInt8 :=
  if c.active then [c.r.uri, c.r.host, c.r.ohcKey, c.r.range].foldl strshow c.buffer else c.buffer

/-- `request_do_finalize`: keep the connection or close it. -/
def requestDoFinalize (keepaliveTimeout : Nat) (c : Conn) : Conn :=
  let c := { c with buffer := c.accessLog, item := none }
  if c.r.keepalive && !c.broken then
    { c with
      r := requestReset keepaliveTimeout c.r
      bufPos := 0
      worker := false
      active := false
      broken := false
      diskError := false
      processSize := 0
      outputSize := 0
      inputSize := 0
      phase := .readHeader
      received := []
      kept := c.kept ++ [(c.received, c.r)] }
  else { c with phase := .closed }

/-- A `recv` of `n` bytes into `_buffer`, and the parse. -/
def recvHeader (env : ParseEnv) (n : Nat) (c : Conn) : Conn :=
  let bytes := c.stream.take n
  let buffer := c.buffer.take c.bufPos ++ bytes ++ c.buffer.drop (c.bufPos + n)
  let bufPos := c.bufPos + n
  let x := httpRequestParse env buffer bufPos c.r
  { c with
    active := true
    buffer := buffer.set bufPos 0
    bufPos
    inputSize := c.inputSize + n
    r := x.2
    phase := .parsed x.1
    stream := c.stream.drop n
    received := c.received ++ bytes }

/-- Sets `http_code`, and `error_reason` where the caller does. -/
def code (n : Nat) (reason : Option String) (c : Conn) : Conn :=
  { c with r := { c.r with httpCode := n, errorReason := reason.or c.r.errorReason } }

def dispatch (o : Outcome) (phase : Phase) (c : Conn) : Option Conn :=
  if o.dispatch then some { c with worker := true, phase }
  else (c.code 500 (some "TooBusy")).requestFinalize o.send

def handleGet (o : Outcome) (c : Conn) : Option Conn :=
  match o.lookup with
  | none => (c.code 404 none).requestFinalize o.send
  | some item =>
    let c := { c with item := some item }
    if c.r.rangeSet then (c.code 206 none).dispatch o .header206 else (c.code 200 none).dispatch o .response

def handlePut (o : Outcome) (c : Conn) : Option Conn :=
  match o.store with
  | .error reason => (c.code 500 reason).requestFinalize o.send
  | .decline reason =>
    let c := c.code 204 (some reason)
    if o.shutdownIfNotStore then { c with r := { c.r with keepalive := false } }.requestFinalize o.send
    else c.dispatch o .preread
  | .ok item => ({ c with item := some item }.code 201 none).dispatch o .preread

def handleDelete (o : Outcome) (c : Conn) : Option Conn :=
  if o.delete then (c.code 204 none).requestFinalize o.send else (c.code 404 none).requestFinalize o.send

/-- The rest of `request_read_request_header`. -/
def handle (o : Outcome) (c : Conn) : ParseRc → Option Conn
  | .again =>
    if c.bufPos ≥ reqBufSize - 1 then (c.code 400 (some "RequestHeadTooBig")).requestFinalize o.send
    else some { c with phase := .readHeader }
  | .error => c.requestFinalize o.send
  | .done =>
    match c.r.method with
    | .get | .head => c.handleGet o
    | .put | .post => c.handlePut o
    | .purge | .delete => c.handleDelete o
    | .invalid => none

/-- `request_write_disk` of `n` bytes: without an item nothing is written. -/
def writeDisk (write : Bool) (n : Nat) (c : Conn) : Conn × Bool :=
  if c.item.isNone || write then ({ c with processSize := c.processSize + n }, true)
  else ({ c.code 500 (some "WriteDiskError") with diskError := true }, false)

def itemLen (c : Conn) : Nat := c.r.contentLength.toNat + c.r.putHeaderLength

/-- The head of the loop in `request_put_read_request_body`. -/
def bodyLoop (send : Bool) (c : Conn) : Option Conn :=
  if c.processSize < c.itemLen then some { c with phase := .readBody } else c.requestFinalize send

/-- `request_put_read_request_body_preread`. -/
def preread (write send : Bool) (c : Conn) : Option Conn :=
  let len := httpMake200ResponseHeaderLength c.r.contentLength.toNat + c.r.segments
  let x := c.writeDisk write len
  if x.2 then x.1.bodyLoop send else x.1.requestFinalize send

/-- A `recv` of `n` bytes in `request_put_read_request_body`. -/
def recvBody (n : Nat) (write send : Bool) (c : Conn) : Option Conn :=
  let c := { c with
    inputSize := c.inputSize + n
    stream := c.stream.drop n
    received := c.received ++ c.stream.take n }
  if n > c.itemLen - c.processSize then
    let c := c.code 400 (some "BodyLargerThanDeclared")
    { c with r := { c.r with keepalive := false } }.requestFinalize send
  else
    let x := c.writeDisk write n
    if x.2 then x.1.bodyLoop send else x.1.requestFinalize send

/-- `request_send_file` of `length` bytes in all: what `sendfile` returned is
counted, and it says whether that was the end. -/
def sendFile (res : Sendfile) (length : Int) (c : Conn) : Conn × HandlerRc :=
  match res with
  | .bytes n =>
    let c := { c with outputSize := c.outputSize + n, processSize := c.processSize + n }
    (c, if length ≠ c.processSize then .decline else .ok)
  | .diskError => ({ c with diskError := true, r := { c.r with errorReason := some "SendfileError" } }, .error)
  | .socketError => ({ c with broken := true, r := { c.r with errorReason := some "SendfileError" } }, .error)

/-- A difference of unsigned 32-bit numbers. -/
def bodyLen (item : ItemView) : Int := ((item.length : Int) - item.headersLen) % 2 ^ 32

/-- The range of `request_get_write_response_206_header_mem`, resolved. -/
def resolveRange (bodyLen : Int) (r : Request) : Request :=
  if r.rangeStart = rangeNoSet then
    { r with
      rangeStart := if r.rangeEnd > bodyLen then 0 else toI64 (bodyLen - r.rangeEnd)
      rangeEnd := bodyLen - 1 }
  else if r.rangeEnd = rangeNoSet then { r with rangeEnd := bodyLen - 1 }
  else if r.rangeEnd ≥ bodyLen then { r with rangeEnd := bodyLen - 1 }
  else r

def httpMake206ResponseHeader (rangeStart rangeEnd bodyLen : Int) : List UInt8 :=
  lit "HTTP/1.1 206 Partial Content\r\nContent-Length: " ++ lit (toString (rangeEnd - rangeStart + 1)) ++
    lit "\r\nContent-Range: bytes " ++ lit (toString rangeStart) ++ lit "-" ++ lit (toString rangeEnd) ++
    lit "/" ++ lit (toString bodyLen) ++ lit "\r\n"

/-- `request_get_write_response_206_header_mem`; `send` is the `send` of the
206 header, `page` that of a code page. -/
def header206 (send page : Bool) (item : ItemView) (c : Conn) : Option Conn :=
  let c := { c with r := resolveRange (bodyLen item) c.r }
  if c.r.rangeStart ≥ bodyLen item then (c.code 416 none).requestFinalize page
  else if send then
    some { c with
      outputSize := c.outputSize + (httpMake206ResponseHeader c.r.rangeStart c.r.rangeEnd (bodyLen item)).length
      phase := .disk206 }
  else { c with broken := true, r := { c.r with errorReason := some "SendError" } }.requestFinalize page

/-- What a call that sends a part of the item has to send. -/
def sendLength (item : ItemView) (c : Conn) : Phase → Int
  | .response => if c.r.method = .head then item.headersLen else item.length
  | .disk206 => item.headersLen - httpMake200ResponseHeaderLength (bodyLen item).toNat
  | .body206 => c.r.rangeEnd - c.r.rangeStart + 1
  | _ => 0

/-- `sendfile` takes its count as a `size_t` and sends no more than that. -/
def canSend (res : Sendfile) (item : ItemView) (c : Conn) : Bool :=
  match res with
  | .bytes n => decide ((n : Int) ≤ (c.sendLength item c.phase - c.processSize) % modulus64)
  | _ => true

/-- `request_get_write_response` and the two calls of a 206 that send from
the disk. -/
def writeResponse (res : Sendfile) (page : Bool) (item : ItemView) (c : Conn) : Option Conn :=
  let x := c.sendFile res (c.sendLength item c.phase)
  match x.2 with
  | .decline => some x.1
  | .error => x.1.requestFinalize page
  | .ok =>
    if c.phase = .disk206 ∧ c.r.method ≠ .head then some { x.1 with processSize := 0, phase := .body206 }
    else x.1.requestFinalize page

end Conn

/-- The events on a connection, with what the calls in them return. -/
inductive ConnEvent
  | recv (env : ParseEnv) (n : Nat)
  | recvFail (reason : String)
  | handle (o : Outcome)
  | preread (write send : Bool)
  | recvBody (n : Nat) (write send : Bool)
  | header206 (send page : Bool)
  | sendfile (res : Sendfile) (page : Bool)
  | interrupt (reason : String)
  | retry
  | finish (keepaliveTimeout : Nat)

open Conn in
def connStep (c : Conn) : ConnEvent → Option Conn
  | .recv env n =>
    if c.phase = .readHeader ∧ 0 < n ∧ n ≤ c.stream.length ∧ c.bufPos + n ≤ reqBufSize - 1 then some (c.recvHeader env n)
    else none
  | .recvFail reason =>
    if c.phase = .readHeader ∨ c.phase = .readBody then
      { c with broken := true, r := { c.r with errorReason := some reason } }.requestFinalize true
    else none
  | .handle o => match c.phase with
    | .parsed rc => c.handle o rc
    | _ => none
  | .preread write send => if c.phase = .preread then c.preread write send else none
  | .recvBody n write send =>
    if c.phase = .readBody ∧ 0 < n ∧ n ≤ c.stream.length ∧ n ≤ recvBufSize then c.recvBody n write send else none
  | .header206 send page => match c.phase, c.item with
    | .header206, some item => c.header206 send page item
    | _, _ => none
  | .sendfile res page => match c.item with
    | some item =>
      if (c.phase = .response ∨ c.phase = .disk206 ∨ c.phase = .body206) ∧ c.canSend res item then
        c.writeResponse res page item
      else none
    | none => none
  -- A timeout, or `request_clean` at the quit time.
  | .interrupt reason =>
    if c.phase ∈ [.readHeader, .readBody, .response, .disk206, .body206] then
      { c with broken := true, r := { c.r with errorReason := some reason } }.requestFinalize true
    else none
  -- `request_clean` over the requests that found the return pipe full.
  | .retry =>
    if c.phase = .finalizing ∧ c.worker then
      some { c with broken := true, r := { c.r with errorReason := some "CleanByQuitTimeout" } }
    else none
  | .finish keepaliveTimeout => if c.phase = .finalizing then some (c.requestDoFinalize keepaliveTimeout) else none

/-- A connection from `request_process_entry` on: `_buffer` holds whatever
was in that memory. -/
def connSystem : System Conn ConnEvent where
  init c := ∃ keepaliveTimeout r buffer total, buffer.length = reqBufSize ∧
    c = { r := requestReset keepaliveTimeout r, buffer, bufPos := 0, item := none, worker := false, active := false,
          broken := false, diskError := false, processSize := 0, outputSize := 0, inputSize := 0,
          phase := .readHeader, stream := total, received := [], kept := [], total }
  next c e c' := connStep c e = some c'

/-! ## Frames -/

/-- A range is resolved in the same request. -/
theorem resolveRange_eq (bodyLen : Int) (r : Request) :
    ∃ s e, Conn.resolveRange bodyLen r = { r with rangeStart := s, rangeEnd := e } := by
  unfold Conn.resolveRange
  split
  · exact ⟨_, _, rfl⟩
  split
  · exact ⟨r.rangeStart, _, rfl⟩
  split
  · exact ⟨r.rangeStart, _, rfl⟩
  · exact ⟨r.rangeStart, r.rangeEnd, rfl⟩

@[simp] theorem strshow_length (buffer : List UInt8) (s : Option Slice) :
    (Conn.strshow buffer s).length = buffer.length := by
  cases s <;> simp [Conn.strshow]

theorem accessLog_length (c : Conn) : c.accessLog.length = c.buffer.length := by
  unfold Conn.accessLog
  split <;> simp

/-- A fresh connection on which the client sends `total`. -/
def Conn.accepted (total : List UInt8) : Conn :=
  { r := requestReset 60 ⟨.invalid, 0, false, 0, 0, none, none, none, none, [], 0, 0, false, 0, none⟩
    buffer := List.replicate reqBufSize 0, bufPos := 0, item := none, worker := false, active := false
    broken := false, diskError := false, processSize := 0, outputSize := 0, inputSize := 0
    phase := .readHeader, stream := total, received := [], kept := [], total }

theorem accepted_init (total : List UInt8) : connSystem.init (.accepted total) :=
  ⟨60, _, _, total, List.length_replicate, rfl⟩

/-- A hit of an item of 9 bytes, 4 of them its head. -/
def Outcome.hit : Outcome := ⟨some ⟨9, 4⟩, .error none, false, true, true, false⟩

/-- A miss, no space, and a `send` that takes the page. -/
def Outcome.refused : Outcome := ⟨none, .error (some "NoSpace"), false, true, true, false⟩

end OliveHc
