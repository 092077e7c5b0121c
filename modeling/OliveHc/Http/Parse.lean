/-
The request parser (`http.c`, `http_request_parse`), over the bytes of
`_buffer` and an offset `bufPos` into them.

The parser keeps no position between calls: each call starts at the first
byte and runs the handler of every header line it can see, and a handler
writes into the request at once. What a call leaves there when it returns
`OHC_AGAIN` is what the next one starts from; only the `put_header` fields
are cleared. `mktime` and the clock are parameters.
-/
import OliveHc.Lib.CString

namespace OliveHc

/-- A `string_t` into `_buffer`. -/
structure Slice where
  base : Nat
  len : Nat
deriving DecidableEq, Repr

/-- The bytes of a `string_t`. -/
def Slice.bytes (b : List UInt8) (s : Slice) : List UInt8 := (b.drop s.base).take s.len

/-- `enum http_methods`. -/
inductive HttpMethod
  | get
  | head
  | put
  | post
  | purge
  | delete
  | invalid
deriving DecidableEq, Repr

/-- The part of `ohc_request_t` that parsing reads and writes. A `string_t`
whose `base` is NULL is `none`; `putHeaders` has `put_header_nr` entries. -/
structure Request where
  method : HttpMethod
  contentLength : Int
  rangeSet : Bool
  rangeStart : Int
  rangeEnd : Int
  range : Option Slice
  uri : Option Slice
  host : Option Slice
  ohcKey : Option Slice
  putHeaders : List Slice
  putHeaderLength : Nat
  expire : Int
  keepalive : Bool
  httpCode : Nat
  errorReason : Option String
deriving DecidableEq, Repr

/-- The fields of `struct tm` that `timer_parse_rfc1123` sets. -/
structure Tm where
  mday : Int
  year : Int
  hour : Int
  min : Int
  sec : Int
  mon : Nat
deriving DecidableEq

/-- What a parse reads besides the request: `expire_force` of the server,
the clock, and `mktime` with the `tm_gmtoff` it sets added (-1 for failure). -/
structure ParseEnv where
  expireForce : Int
  now : Int
  mktime : Tm → Int

/-- The part of `request_reset` that concerns the parsed fields. -/
def requestReset (keepaliveTimeout : Nat) (r : Request) : Request :=
  { r with
    method := .invalid
    contentLength := -1
    rangeSet := false
    range := none
    uri := none
    host := none
    ohcKey := none
    expire := 0
    keepalive := keepaliveTimeout ≠ 0
    httpCode := 0
    errorReason := none }

/-- The codes the handlers return. -/
inductive HandlerRc
  | ok
  | error
  | decline
deriving DecidableEq, Repr

/-! ## Header handlers -/

/-- A `char` as the signed number it is. -/
def schar (x : UInt8) : Int := if x < 128 then x.toNat else x.toNat - 256

/-- The macro `D2`. -/
def d2 (l : List UInt8) (i : Nat) : Int := (schar (byteAt l i) - 48) * 10 + schar (byteAt l (i + 1)) - 48

def monthStr : List (List UInt8) :=
  ["Jan", "Feb", "Mar", "Apr", "May", "Jun", "Jul", "Aug", "Sep", "Oct", "Nov", "Dec"].map lit

def timerParseRfc1123 (mktime : Tm → Int) (l : List UInt8) : Int :=
  if !strncmp (lit " GMT") (l.drop 25) then -1
  else
    let i := monthStr.findIdx fun m => strncmp m (l.drop 8)
    if i = 12 then -1
    else mktime {
      mday := d2 l 5
      year := d2 l 12 * 100 + d2 l 14 - 1900
      hour := d2 l 17
      min := d2 l 20
      sec := d2 l 23
      mon := i }

/-- A handler gets the string at its value, where that is in `_buffer`, and
the length of the value. -/
abbrev Handler := ParseEnv → List UInt8 → Nat → Nat → Request → HandlerRc × Request

def httpParsePutContentLength : Handler := fun _ l _ len r =>
  let n := strtoul l
  let r := { r with contentLength := toI64 n.1 }
  if n.2 = 0 ∨ n.2 ≠ len then (.error, { r with errorReason := some "InvalidContentLength" }) else (.ok, r)

def httpParseHost : Handler := fun _ _ p len r => (.ok, { r with host := some ⟨p, len⟩ })

def httpParseOhcKey : Handler := fun _ _ p len r => (.ok, { r with ohcKey := some ⟨p, len⟩ })

def httpParsePutCacheControl : Handler := fun env l _ len r =>
  if env.expireForce ≠ 0 then (.decline, r)
  else if !strncmp (lit "max-age=") l then (.error, { r with errorReason := some "UnhandledCacheControl" })
  else
    let n := strtoul (l.drop 8)
    let r : Request := { r with expire := toI64 n.1 }
    -- `endp == p` never holds: `endp` is at or after `value = p + 8`.
    if 8 + n.2 ≠ len then (.error, { r with errorReason := some "InvalidMaxAge" })
    else if r.expire = 0 then (.error, { r with errorReason := some "max-age=0" })
    else (.decline, { r with expire := toI64 (r.expire + env.now) })

def httpParsePutExpires : Handler := fun env l _ _ r =>
  if env.expireForce ≠ 0 ∨ r.expire ≠ 0 then (.decline, r)
  else
    let r := { r with expire := timerParseRfc1123 env.mktime l }
    if r.expire = -1 ∨ r.expire ≤ env.now then (.error, { r with errorReason := some "InvalidExpires" })
    else (.decline, r)

def rangeNoSet : Int := -1

/-- One of the two numbers of a range, in wrapping 64-bit arithmetic. -/
def rangeNumber (ds : List UInt8) : Int :=
  if ds = [] then rangeNoSet else ds.foldl (fun a d => toI64 (a * 10 + d.toNat - 48)) 0

def httpParseGetRange : Handler := fun _ l p len r =>
  let r := { r with range := some ⟨p, len⟩ }
  let fail := (HandlerRc.error, { r with errorReason := some "InvalidRange" })
  if !strncmp (lit "bytes=") l then fail
  else
    let l := l.drop 6
    let ds := l.takeWhile isDigit
    let start := rangeNumber ds
    let l := l.drop ds.length
    if byteAt l 0 ≠ 45 then fail
    else
      let l := l.drop 1
      let es := l.takeWhile isDigit
      let stop := rangeNumber es
      let l := l.drop es.length
      if start = rangeNoSet ∧ stop = rangeNoSet then fail
      else if start ≠ rangeNoSet ∧ stop ≠ rangeNoSet ∧ start > stop then fail
      else
        let c := byteAt l (skip 32 l)
        if c = 44 then (.ok, r)
        else if c ≠ 13 then fail
        else (.ok, { r with rangeSet := true, rangeStart := start, rangeEnd := stop })

def httpParseConnection : Handler := fun _ l _ _ r =>
  (.ok, if strncmp (lit "close") l then { r with keepalive := false } else r)

/-- The entries of the `http_header_s` tables. -/
inductive HttpHeader
  | range
  | contentLength
  | cacheControl
  | expires
  | host
  | ohcKey
  | connection
deriving DecidableEq, Repr

/-- The names as the tables have them: `Expires` without its colon. -/
def HttpHeader.name : HttpHeader → List UInt8
  | .range => lit "Range:"
  | .contentLength => lit "Content-Length:"
  | .cacheControl => lit "Cache-Control:"
  | .expires => lit "Expires"
  | .host => lit "Host:"
  | .ohcKey => lit "OHC-Key:"
  | .connection => lit "Connection:"

def HttpHeader.handler : HttpHeader → Handler
  | .range => httpParseGetRange
  | .contentLength => httpParsePutContentLength
  | .cacheControl => httpParsePutCacheControl
  | .expires => httpParsePutExpires
  | .host => httpParseHost
  | .ohcKey => httpParseOhcKey
  | .connection => httpParseConnection

def generalHeaders : List HttpHeader := [.host, .ohcKey, .connection]
def httpRequestHeaderGet : List HttpHeader := .range :: generalHeaders
def httpRequestHeaderPut : List HttpHeader := .contentLength :: .cacheControl :: .expires :: generalHeaders
def httpRequestHeaderDelete : List HttpHeader := generalHeaders

/-! ## The parser -/

/-- The table `http_methods`. -/
def httpMethods : List (HttpMethod × List UInt8) :=
  [(.get, lit "GET "), (.head, lit "HEAD "), (.put, lit "PUT "), (.post, lit "POST "), (.purge, lit "PURGE "),
    (.delete, lit "DELETE ")]

def HttpMethod.headers : HttpMethod → List HttpHeader
  | .get | .head => httpRequestHeaderGet
  | .put | .post => httpRequestHeaderPut
  | .purge | .delete => httpRequestHeaderDelete
  | .invalid => []

def HttpMethod.isStore : HttpMethod → Bool
  | .put | .post => true
  | _ => false

def numlen : Nat → Nat → Nat
  | 0, _ => 0
  | fuel + 1, n => if n < 10 then 1 else 1 + numlen fuel (n / 10)

/-- `http_make_200_response_header` with a NULL output. -/
def httpMake200ResponseHeaderLength (contentLength : Nat) : Nat :=
  (lit "HTTP/1.1 200 OK\r\nContent-Length: \r\n").length + numlen 20 contentLength

def httpAddPutHeaders (hs : List Slice) (base len : Nat) : List Slice :=
  match hs.getLast? with
  | none => [⟨base, len⟩]
  | some p => if p.base + p.len = base then hs.dropLast ++ [⟨p.base, p.len + len⟩] else hs ++ [⟨base, len⟩]

inductive ParseRc
  | again
  | error
  | done
deriving DecidableEq, Repr

/-- `while(*p == ' ') p++`. -/
def skipSpaces (b : List UInt8) (p : Nat) : Nat := p + skip 32 (b.drop p)

/-- The label `fail`. -/
def parseFail (r : Request) : ParseRc × Request := (.error, { r with keepalive := false, httpCode := 400 })

def crlf2 : List UInt8 := lit "\r\n\r\n"

/-- The label `not_complete`. -/
def parseNotComplete (b : List UInt8) (p : Nat) (r : Request) : ParseRc × Request :=
  if strstr crlf2 (b.drop p) then parseFail r else (.again, r)

/-- What follows the loop over the header lines, `p` being at the blank line. -/
def parseHeadDone (bufPos p : Nat) (r : Request) : ParseRc × Request :=
  if r.method.isStore then
    if r.contentLength = -1 then parseFail { r with errorReason := some "NoContentLengthinPUT" }
    else if (bufPos : Int) - p - 2 > r.contentLength then
      parseFail { r with errorReason := some "BodyLargerThanDeclared" }
    else (.done, { r with
      putHeaders := httpAddPutHeaders r.putHeaders p (bufPos - p)
      putHeaderLength := r.putHeaderLength + httpMake200ResponseHeaderLength r.contentLength.toNat + 2 })
  else (.done, r)

/-- What the parser finds where a header line begins: the blank line, a line
that is not complete (with `p` where `not_complete` searches from), or a
whole line. -/
inductive HeaderScan
  | blank (p : Nat)
  | cut (p : Nat)
  | line (name value len : Nat)
deriving DecidableEq, Repr

def scanHeader (b : List UInt8) (p : Nat) : HeaderScan :=
  let p := skipSpaces b p
  if byteAt b p = 13 ∧ byteAt b (p + 1) = 10 then .blank p
  else match strchr 58 (b.drop p) with
    | none => .cut p
    | some i =>
      let name := p
      let p := p + i + 1
      let p := skipSpaces b p
      match strchr 13 (b.drop p) with
      | none => .cut p
      | some len => if byteAt b (p + len + 1) = 0 then .cut p else .line name p len

/-- A store keeps the line from `name` up to `p`. -/
def recordHeader (name p : Nat) (r : Request) : Request :=
  if r.method.isStore then
    { r with
      putHeaders := httpAddPutHeaders r.putHeaders name (p - name)
      putHeaderLength := r.putHeaderLength + (p - name) }
  else r

/-- One header line: its handler, and its record unless a handler took it. -/
def parseHeaderLine (env : ParseEnv) (b : List UInt8) (name value len : Nat) (r : Request) : HandlerRc × Request :=
  let p := value + len + 2
  match r.method.headers.find? fun h => strncasecmp h.name (b.drop name) with
  | none => (.ok, recordHeader name p r)
  | some h =>
    match h.handler env (b.drop value) value len r with
    | (.error, r) => (.error, r)
    | (.decline, r) => (.ok, recordHeader name p r)
    | (.ok, r) => (.ok, r)

/-- The loop over the header lines. Every round ends behind a byte of the
buffer, so a fuel of the buffer's length is enough (`parseHeaders_fuel`). -/
def parseHeaders (env : ParseEnv) (b : List UInt8) (bufPos : Nat) : Nat → Nat → Request → ParseRc × Request
  | 0, _, r => (.again, r)
  | fuel + 1, p, r =>
    match scanHeader b p with
    | .blank p => parseHeadDone bufPos p r
    | .cut p => parseNotComplete b p r
    | .line name value len =>
      match parseHeaderLine env b name value len r with
      | (.error, r) => parseFail r
      | (_, r) => parseHeaders env b bufPos fuel (value + len + 2) r

def httpRequestParse (env : ParseEnv) (buffer : List UInt8) (bufPos : Nat) (r : Request) : ParseRc × Request :=
  let b := buffer.set bufPos 0
  let r := { r with putHeaders := [], putHeaderLength := 0 }
  match httpMethods.find? fun m => strncmp m.2 b with
  | none => parseFail { r with errorReason := some "UnknownMethod" }
  | some (method, str) =>
    let r := { r with method }
    let p := str.length
    let p := skipSpaces b p
    match strchr 32 (b.drop p) with
    | none => parseNotComplete b p r
    | some i =>
      let r := { r with uri := some ⟨p, i⟩ }
      let p := p + i + 1
      let p := skipSpaces b p
      if !strncasecmp (lit "HTTP/") (b.drop p) then parseFail { r with errorReason := some "NotHTTP" }
      else match strchr 13 (b.drop (p + 5)) with
        | none => parseNotComplete b p r
        | some i => parseHeaders env b bufPos (b.length + 1) (p + 5 + i + 2) r

end OliveHc
