/-
The reader of configuration files (`conf.c`).

`conf_parse` keeps its result in static objects and uses those of earlier
calls again, so the state here is what such calls leave. A structure is its
numbers, one for each field that a command sets, and its one path: an `int`
is written into the low four bytes of its field, which is wider for some of
the fields. Allocation succeeds.
-/
import OliveHc.Conf
import OliveHc.Lib.CString

namespace OliveHc

/-! ## Numbers -/

/-- The value of a digit, up to base 16. -/
def digitOf (x : UInt8) : Nat :=
  if 48 ≤ x ∧ x ≤ 57 then x.toNat - 48
  else if 65 ≤ x ∧ x ≤ 70 then x.toNat - 55
  else if 97 ≤ x ∧ x ≤ 102 then x.toNat - 87
  else 16

/-- A number as `strtol` and `strtoul` read it when the base is 0: its sign,
its absolute value, and `endp - p`. -/
structure Integer where
  negative : Bool
  value : Nat
  stop : Nat

def scanInteger (l : List UInt8) : Integer :=
  let white := (l.takeWhile isSpace).length
  let c := byteAt l white
  let start := white + if c = 43 ∨ c = 45 then 1 else 0
  let hex := byteAt l start = 48 ∧ (byteAt l (start + 1) = 120 ∨ byteAt l (start + 1) = 88) ∧ digitOf (byteAt l (start + 2)) < 16
  let base := if hex then 16 else if byteAt l start = 48 then 8 else 10
  let start := if hex then start + 2 else start
  let digits := (l.drop start).takeWhile fun x => digitOf x < base
  { negative := c == 45
    value := digits.foldl (fun a d => a * base + digitOf d) 0
    stop := if digits = [] then 0 else start + digits.length }

/-- `strtoul(p, &endp, 0)`. -/
def strtoul0 (l : List UInt8) : Nat × Nat :=
  let n := scanInteger l
  if modulus64 ≤ n.value then (modulus64 - 1, n.stop)
  else (if n.negative then (modulus64 - n.value) % modulus64 else n.value, n.stop)

def longMax : Int := 9223372036854775807

/-- `strtol(p, &endp, 0)`. -/
def strtol0 (l : List UInt8) : Int × Nat :=
  let n := scanInteger l
  (if n.negative then max (-longMax - 1) (-n.value) else min longMax n.value, n.stop)

/-! ## Arguments -/

def pathLength : Nat := 1024

def intMax : Int := 2147483647

/-- The argument of `conf_set_path`. -/
def pathArg (arg : List UInt8) : Except String (List UInt8) :=
  if pathLength ≤ arg.length then .error "path too long" else .ok arg

/-- The argument of `conf_set_int`. -/
def intArg (arg : List UInt8) : Except String Nat :=
  let n := toI64 (strtoul0 arg).1
  if byteAt arg (strtoul0 arg).2 ≠ 0 ∨ n > intMax ∨ n < 0 then .error "invalid integer" else .ok n.toNat

/-- What stands behind a size, as a shift and its length. -/
def sizeUnit (x : UInt8) : Option (Nat × Nat) :=
  if x = 84 then some (40, 1)
  else if x = 71 then some (30, 1)
  else if x = 77 then some (20, 1)
  else if x = 75 then some (10, 1)
  else if x = 0 then some (0, 0)
  else none

/-- The argument of `conf_set_size`. -/
def sizeArg (arg : List UInt8) : Except String Nat :=
  let n := strtol0 arg
  if n.2 = 0 ∨ n.1 = longMax ∨ n.1 < 0 then .error "invalid size"
  else match sizeUnit (byteAt arg n.2) with
    | none => .error "invalid size"
    | some (shift, len) =>
      if byteAt arg (n.2 + len) ≠ 0 then .error "invalid size"
      else if shift ≠ 0 ∧ 2 ^ (64 - shift) ≤ n.1.toNat then .error "invalid size"
      else .ok (n.1.toNat * 2 ^ shift)

/-- The argument of `conf_set_flag`. -/
def flagArg (arg : List UInt8) : Except String Nat :=
  if arg = lit "on" then .ok 1 else if arg = lit "off" then .ok 0 else .error "invalid flag"

/-- The argument of `conf_new_server`. -/
def portArg (arg : List UInt8) : Except String Nat :=
  let n := strtol0 arg
  if byteAt arg n.2 ≠ 0 ∨ n.1 < 0 ∨ n.1 > 65535 then .error "invalid port" else .ok n.1.toNat

/-! ## Structures and their fields -/

/-- The numbers of `ohc_conf_t` that commands set. -/
inductive CycleField
  | threads
  | quitTimeout
  | deviceBadblockPercent
  | deviceCheck270G
deriving DecidableEq, Repr

/-- The numbers of `ohc_server_t` that commands set, `listen` apart. -/
inductive ServerField
  | capacity
  | connectionsLimit
  | rcvbuf
  | sndbuf
  | recvTimeout
  | requestTimeout
  | sendTimeout
  | expireDefault
  | expireForce
  | keepaliveTimeout
  | itemMaxSize
  | keyIncludeHost
  | keyIncludeOhcKey
  | keyIncludeQuery
  | serverDump
  | shutdownIfNotStore
  | passbyEnable
  | passbyBeginItemNr
  | passbyBeginConsumed
  | passbyLimitNr
  | passbyExpire
  | statusPeriod
deriving DecidableEq, Repr

/-- What the commands see of an `ohc_conf_t` or an `ohc_server_t`: the
numbers, and the path of its log. -/
@[ext] structure Settings (F : Type) where
  number : F → Nat
  log : List UInt8

/-- A `set_handler` and its `offset`. -/
inductive Setting (F : Type)
  | path
  | int (f : F)
  | size (f : F)
  | flag (f : F)
deriving DecidableEq, Repr

/-- An `int` written at the field that holds `old`. -/
def writeInt (old n : Nat) : Nat := old / 4294967296 * 4294967296 + n

def Settings.write {F : Type} [DecidableEq F] (x : Settings F) (f : F) (n : Nat) : Settings F :=
  { x with number := Function.update x.number f n }

def Settings.set {F : Type} [DecidableEq F] (x : Settings F) (arg : List UInt8) : Setting F → Except String (Settings F)
  | .path => (pathArg arg).map fun s => { x with log := s }
  | .int f => (intArg arg).map fun n => x.write f (writeInt (x.number f) n)
  | .size f => (sizeArg arg).map fun n => x.write f n
  | .flag f => (flagArg arg).map fun n => x.write f n

/-- What `conf_parse` sets in `conf_cycle` first. -/
def cycleDefault : Settings CycleField where
  number
    | .threads => 4
    | .quitTimeout => 60
    | .deviceBadblockPercent => 1
    | .deviceCheck270G => 1
  log := lit "error.log"

/-- What `conf_parse` sets in `default_server` first. -/
def serverDefault : Settings ServerField where
  number
    | .capacity => 0
    | .connectionsLimit => 1000
    | .rcvbuf => 0
    | .sndbuf => 0
    | .recvTimeout => 60
    | .requestTimeout => 60
    | .sendTimeout => 60
    | .expireDefault => 259200
    | .expireForce => 0
    | .keepaliveTimeout => 60
    | .itemMaxSize => 104857600
    | .keyIncludeHost => 0
    | .keyIncludeOhcKey => 0
    | .keyIncludeQuery => 0
    | .serverDump => 1
    | .shutdownIfNotStore => 0
    | .passbyEnable => 0
    | .passbyBeginItemNr => 1000000
    | .passbyBeginConsumed => 107374182400
    | .passbyLimitNr => 1000000
    | .passbyExpire => 3600
    | .statusPeriod => 60
  log := lit "access.log"

/-- An `ohc_server_t` of a configuration. -/
@[ext] structure ServerSettings extends Settings ServerField where
  listenPort : Nat

/-- **What `conf_parse` returns**: `conf_cycle`. -/
@[ext] structure Cycle extends Settings CycleField where
  servers : List ServerSettings
  devices : List (List UInt8)

/-- The static objects of `conf.c`. -/
structure ConfState where
  first : Bool
  cycle : Cycle
  defaultServer : Settings ServerField
  reservedServers : List ServerSettings
  reservedDevices : List (List UInt8)

/-! ## Commands -/

/-- A command, except `include`. -/
inductive Command
  | cycle (s : Setting CycleField)
  | device
  | listen
  | server (s : Setting ServerField)
deriving DecidableEq, Repr

/-- `g_commands`. -/
def gCommands : List (List UInt8 × Command) := [
  (lit "threads", .cycle (.int .threads)),
  (lit "error_log", .cycle .path),
  (lit "quit_timeout", .cycle (.int .quitTimeout)),
  (lit "device_badblock_percent", .cycle (.int .deviceBadblockPercent)),
  (lit "device_check_270G", .cycle (.flag .deviceCheck270G)),
  (lit "device", .device),
  (lit "listen", .listen),
  (lit "capacity", .server (.size .capacity)),
  (lit "access_log", .server .path),
  (lit "connections_limit", .server (.int .connectionsLimit)),
  (lit "rcvbuf", .server (.size .rcvbuf)),
  (lit "sndbuf", .server (.size .sndbuf)),
  (lit "recv_timeout", .server (.int .recvTimeout)),
  (lit "request_timeout", .server (.int .requestTimeout)),
  (lit "send_timeout", .server (.int .sendTimeout)),
  (lit "expire_default", .server (.int .expireDefault)),
  (lit "expire_force", .server (.int .expireForce)),
  (lit "keepalive_timeout", .server (.int .keepaliveTimeout)),
  (lit "item_max_size", .server (.size .itemMaxSize)),
  (lit "key_include_host", .server (.flag .keyIncludeHost)),
  (lit "key_include_ohc_key", .server (.flag .keyIncludeOhcKey)),
  (lit "key_include_query", .server (.flag .keyIncludeQuery)),
  (lit "server_dump", .server (.flag .serverDump)),
  (lit "shutdown_if_not_store", .server (.flag .shutdownIfNotStore)),
  (lit "passby_enable", .server (.flag .passbyEnable)),
  (lit "passby_begin_item_nr", .server (.int .passbyBeginItemNr)),
  (lit "passby_begin_consumed", .server (.size .passbyBeginConsumed)),
  (lit "passby_limit_nr", .server (.int .passbyLimitNr)),
  (lit "passby_expire", .server (.int .passbyExpire)),
  (lit "status_period", .server (.int .statusPeriod))]

/-- The command of a name, with its place in the table. -/
def findCommand (cmd : List UInt8) : Option (Nat × Command) :=
  (gCommands.zipIdx.find? fun c => c.1.1 == cmd).map fun c => (c.2, c.1.2)

/-- The place of `listen`. -/
def serverContextBegin : Nat := gCommands.findIdx fun c => c.1 == lit "listen"

/-- `conf_new_device`. -/
def confNewDevice (arg : List UInt8) (st : ConfState) : ConfState :=
  { st with
    reservedDevices := st.reservedDevices.tail
    cycle := { st.cycle with devices := st.cycle.devices ++ [arg] } }

/-- `conf_new_server`. -/
def confNewServer (arg : List UInt8) (st : ConfState) : Except String ConfState :=
  (portArg arg).map fun listenPort => { st with
    reservedServers := st.reservedServers.tail
    cycle := { st.cycle with servers := st.cycle.servers ++ [{ st.defaultServer with listenPort }] } }

/-- A setting written into the last server, or into `default_server` while
there is none. -/
def setServer (s : Setting ServerField) (arg : List UInt8) (st : ConfState) : Except String ConfState :=
  match st.cycle.servers.getLast? with
  | none => (st.defaultServer.set arg s).map fun x => { st with defaultServer := x }
  | some server => (server.toSettings.set arg s).map fun x =>
      { st with cycle := { st.cycle with servers := st.cycle.servers.dropLast ++ [{ x with listenPort := server.listenPort }] } }

/-- `c->set_handler(c, context, arg)`. -/
def Command.set (arg : List UInt8) (st : ConfState) : Command → Except String ConfState
  | .cycle s => (st.cycle.toSettings.set arg s).map fun x => { st with cycle := { st.cycle with toSettings := x } }
  | .device => .ok (confNewDevice arg st)
  | .listen => confNewServer arg st
  | .server s => setServer s arg st

/-! ## Lines -/

/-- The pieces that `fgets` returns one after the other, `room` being what
is left of the line buffer. -/
def fgetsFrom : Nat → List UInt8 → List (List UInt8)
  | _, [] => []
  | room, x :: text =>
    if x = 10 ∨ room ≤ 1 then [x] :: fgetsFrom (pathLength - 1) text
    else match fgetsFrom (room - 1) text with
      | [] => [[x]]
      | piece :: pieces => (x :: piece) :: pieces

def fgetsAll (text : List UInt8) : List (List UInt8) := fgetsFrom (pathLength - 1) text

/-- What `conf_readline` makes of a piece: an empty line, an error, or a
command with its argument. -/
inductive Line
  | again
  | error (msg : String)
  | ok (cmd arg : List UInt8)
deriving DecidableEq, Repr

def isWhite (x : UInt8) : Bool := x == 9 || x == 10 || x == 32

/-- `strnonwhite`. -/
def strnonwhite (l : List UInt8) : List UInt8 := l.dropWhile isWhite

/-- The text up to `strwhite`, and from there on. -/
def strwhite (l : List UInt8) : List UInt8 × List UInt8 := l.span fun x => !isWhite x

def confReadline (piece : List UInt8) : Line :=
  let start := strnonwhite (piece.takeWhile (· != 0))
  if start = [] ∨ start.head? = some 35 then .again
  else
    let (cmd, rest) := strwhite start
    let rest := strnonwhite rest
    if rest = [] then .error "miss argument"
    else
      let (arg, rest) := strwhite rest
      let rest := strnonwhite rest
      if rest = [] ∨ rest.head? = some 35 then .ok cmd arg else .error "too many arguments"

/-! ## Files -/

/-- The file that an `include` names: beside the file it stands in. -/
def includedFile (filename arg : List UInt8) : List UInt8 :=
  if 47 ∈ filename then
    let dir := (filename.reverse.dropWhile (· != 47)).reverse
    dir ++ arg.take (pathLength - dir.length)
  else arg

/-- One command of a file. -/
def confCommand (cmd arg : List UInt8) (st : ConfState) : Except String ConfState :=
  match findCommand cmd with
  | none => .error "no command match"
  | some (i, c) =>
    if i < serverContextBegin ∧ st.cycle.servers ≠ [] then .error "global command in server context"
    else c.set arg st

/-- The loop over the lines of a file; `parse` reads an included one. The
result is a message, or `none` for `OHC_OK`. -/
def confParseLines (parse : List UInt8 → ConfState → Option String × ConfState) (filename : List UInt8) :
    List (List UInt8) → ConfState → Option String × ConfState
  | [], st => (none, st)
  | piece :: pieces, st =>
    match confReadline piece with
    | .again => confParseLines parse filename pieces st
    | .error msg => (some msg, st)
    | .ok cmd arg =>
      if cmd = lit "include" then
        match parse (includedFile filename arg) st with
        | (some _, st) => (some "error in include file", st)
        | (none, st) => confParseLines parse filename pieces st
      else match confCommand cmd arg st with
        | .error msg => (some msg, st)
        | .ok st => confParseLines parse filename pieces st

/-- `conf_parse_file`, `left` being how many more files may be open. -/
def confParseFile (fs : List UInt8 → Option (List UInt8)) : Nat → List UInt8 → ConfState → Option String × ConfState
  | 0, _, st => (some "configure file include too deep", st)
  | left + 1, filename, st =>
    match fs filename with
    | none => (some "open conf file", st)
    | some text => confParseLines (confParseFile fs left) filename (fgetsAll text) st

/-- What a parse starts from. -/
def confInit (st : ConfState) : ConfState where
  first := false
  cycle := { cycleDefault with servers := [], devices := [] }
  defaultServer := serverDefault
  reservedServers := if st.first then st.reservedServers else st.cycle.servers ++ st.reservedServers
  reservedDevices := if st.first then st.reservedDevices else st.cycle.devices ++ st.reservedDevices

/-- **`conf_parse`**: the result, NULL being `none`, and the state it leaves. -/
def confParse (fs : List UInt8 → Option (List UInt8)) (filename : List UInt8) (st : ConfState) : Option Cycle × ConfState :=
  match confParseFile fs 11 filename (confInit st) with
  | (some _, st) => (none, st)
  | (none, st) => (some st.cycle, st)

/-! ## What is read, as the other parts use it -/

def pathText (s : List UInt8) : String := String.ofList (s.map fun x => Char.ofNat x.toNat)

def ServerSettings.conf (x : ServerSettings) : ServerConf where
  listenPort := x.listenPort
  capacity := x.number .capacity
  accessLog := pathText x.log
  connectionsLimit := x.number .connectionsLimit
  rcvbuf := x.number .rcvbuf
  sndbuf := x.number .sndbuf
  recvTimeout := x.number .recvTimeout
  requestTimeout := x.number .requestTimeout
  sendTimeout := x.number .sendTimeout
  expireDefault := x.number .expireDefault
  expireForce := x.number .expireForce
  keepaliveTimeout := x.number .keepaliveTimeout
  itemMaxSize := x.number .itemMaxSize
  keyIncludeHost := x.number .keyIncludeHost ≠ 0
  keyIncludeOhcKey := x.number .keyIncludeOhcKey ≠ 0
  keyIncludeQuery := x.number .keyIncludeQuery ≠ 0
  serverDump := x.number .serverDump ≠ 0
  shutdownIfNotStore := x.number .shutdownIfNotStore ≠ 0
  passbyEnable := x.number .passbyEnable ≠ 0
  passbyBeginItemNr := x.number .passbyBeginItemNr
  passbyBeginConsumed := x.number .passbyBeginConsumed
  passbyLimitNr := x.number .passbyLimitNr
  passbyExpire := x.number .passbyExpire
  statusPeriod := x.number .statusPeriod

def Cycle.conf (x : Cycle) : Conf where
  threads := x.number .threads
  quitTimeout := x.number .quitTimeout
  badblockPercent := x.number .deviceBadblockPercent
  check270G := x.number .deviceCheck270G ≠ 0
  errorLog := pathText x.log
  servers := x.servers.map ServerSettings.conf
  devices := x.devices.map pathText

/-- **The built-in defaults** are those that the rest starts from. -/
theorem conf_default : ({ cycleDefault with servers := [], devices := [] } : Cycle).conf = Conf.default ∧
    ∀ listenPort, ({ serverDefault with listenPort } : ServerSettings).conf = ServerConf.default listenPort := by
  refine ⟨by decide +kernel, fun listenPort => ?_⟩
  have hlog : pathText serverDefault.log = "access.log" := by decide +kernel
  simp only [ServerSettings.conf, hlog]
  rfl

end OliveHc
