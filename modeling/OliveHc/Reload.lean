/-
Loading a configuration (`olivehc_load_conf`), at the start and at a reload.

Each module checks the new configuration before any of them takes it over.
A check of the devices or of the servers leaves a plan: for every entry of
the configuration the running object it belongs to, or none if one has to
be created. What it opens and allocates on the way is given back by the
rollback and is not in the state. The workers are different: the check
creates the missing ones at once, and `new_workers` is a static variable
that says how many the rollback has to take back.
-/
import OliveHc.Device.Layout
import OliveHc.Server
import OliveHc.Worker

namespace OliveHc

/-- What `stat` says of a file; the size of a block device is in sectors, if
`ioctl` tells it. -/
inductive FileKind
  | regular (size : Nat)
  | block (sectors : Option Nat)
  | other
deriving DecidableEq, Repr

/-- A file is what `st_dev` and `st_ino` say it is. -/
structure FileStat where
  file : Nat
  kind : FileKind
deriving DecidableEq, Repr

/-- What the system calls of a load return. -/
structure LoadEnv where
  stat : String → Option FileStat
  openDevice : String → Bool
  openLog : String → Bool
  /-- `tcp_bind` of a port. -/
  bind : Nat → Bool
  /-- `hash_init` for the server of a port. -/
  hashInit : Nat → Bool
  /-- The `i`-th `worker_create`. -/
  worker : Allocator

/-! ## Devices -/

/-- An entry of the configuration and the device that is running for it. -/
structure DevicePlan where
  file : Nat
  capacity : Nat
  existing : Option Nat
deriving DecidableEq, Repr

/-- The capacity of a new device. -/
def deviceCapacity (check270G : Bool) (kind : FileKind) : Except String Nat := do
  let capacity ← match kind with
    | .regular size => .ok (size / 512 * 512)
    | .block (some sectors) => .ok (sectors * 512)
    | .block none => .error "error in ioctl device"
    | .other => .error "error file type(only allow REGULAR and BLOCK)"
  if capacity > capacityLimit then
    if check270G then .error "file is too big(at most 0x4020010000)" else .ok capacityLimit
  else .ok capacity

namespace Space

/-- `device_check_same` among the devices of a list. -/
def searchInode (file : Nat) (l : List Nat) (s : Space) : Option Nat := l.find? fun d => (s.device d).file = file

/-- One round of the loop of `device_conf_check`; `seen` are the entries before. -/
def checkDevice (env : LoadEnv) (check270G : Bool) (seen : List DevicePlan) (name : String) (s : Space) :
    Except String DevicePlan :=
  if s.deletedDevices.length + seen.length + 1 ≥ iptArraySize - 1 then .error "too many devices"
  else match env.stat name with
    | none => .error "error in stat device"
    | some st =>
      if (s.searchInode st.file s.deletedDevices).any fun d => (s.device d).fdOpen then .error "in deleting, try later"
      else match s.searchInode st.file s.devices with
        | some d =>
          if seen.any fun p => p.existing = some d then .error "duplicate devices"
          else .ok { file := st.file, capacity := 0, existing := some d }
        | none =>
          if seen.any fun p => p.file = st.file then .error "duplicate devices"
          else if !env.openDevice name then .error "error in open device"
          else (deviceCapacity check270G st.kind).map fun capacity => { file := st.file, capacity, existing := none }

/-- The loop of `device_conf_check`. -/
def checkDevices (env : LoadEnv) (check270G : Bool) (s : Space) :
    List DevicePlan → List String → Except String (List DevicePlan)
  | seen, [] => .ok seen
  | seen, name :: names =>
    match s.checkDevice env check270G seen name with
    | .error msg => .error (msg ++ " of device '" ++ name ++ "'")
    | .ok p => checkDevices env check270G s (seen ++ [p]) names

def deviceConfCheck (env : LoadEnv) (conf : Conf) (s : Space) : Except String (List DevicePlan) :=
  if conf.devices = [] then .error "you must set at least 1 device"
  else if conf.badblockPercent ≥ 100 then .error "device_badblock_percent must be less than 100"
  else s.checkDevices env conf.check270G [] conf.devices

/-- `device_update`, or `device_add` of the object that `conf_parse` has
allocated. -/
def loadDevice (al : Allocator) (p : DevicePlan) (s : Space) : Option Space :=
  match p.existing with
  | some d => some { s with devices := s.devices.erase d ++ [d] }
  | none => (al.get s.ticks s.allDevices).bind fun d =>
    { s with ticks := s.ticks + 1 }.deviceAdd al d p.file p.capacity

/-- The devices that the configuration does not name. -/
def droppedDevices (plan : List DevicePlan) (s : Space) : List Nat :=
  s.devices.filter fun d => !plan.any fun p => p.existing = some d

def deviceConfLoad (al : Allocator) (conf : Conf) (plan : List DevicePlan) (s : Space) : Option Space :=
  let s := { s with badblockPercent := conf.badblockPercent }
  let s := (s.droppedDevices plan).foldl (fun s d => s.deviceDelete d) s
  plan.foldlM (fun s p => s.loadDevice al p) s

end Space

/-! ## Servers -/

/-- An entry of the configuration and the server that is running for it. -/
structure ServerPlan where
  conf : ServerConf
  existing : Option Nat
deriving DecidableEq, Repr

namespace Master

/-- One round of the loop of `server_conf_check`. -/
def checkServer (env : LoadEnv) (seen : List ServerPlan) (conf : ServerConf) (m : Master) : Except String ServerPlan :=
  if m.deletedServers.length + seen.length + 1 ≥ iptArraySize - 1 then .error "too many servers"
  else if conf.sendTimeout = 0 then .error "send_timeout must be positive"
  else if conf.recvTimeout = 0 then .error "recv_timeout must be positive"
  else if conf.statusPeriod = 0 then .error "status_period must be positive"
  else match m.serverByPort conf.listenPort with
    | some s =>
      if seen.any fun p => p.existing = some s then .error "duplicated listen port"
      else if conf.accessLog ≠ (m.server s).conf.accessLog ∧ !env.openLog conf.accessLog then
        .error "error in open log file"
      else .ok { conf, existing := some s }
    | none =>
      if seen.any fun p => p.conf.listenPort = conf.listenPort then .error "duplicated listen port"
      else if !env.bind conf.listenPort then .error "error in bind port"
      else if !env.hashInit conf.listenPort then .error "no mem when init hash"
      else if !env.openLog conf.accessLog then .error "error in open log file"
      else .ok { conf, existing := none }

/-- The loop of `server_conf_check`. -/
def checkServers (env : LoadEnv) (m : Master) : List ServerPlan → List ServerConf → Except String (List ServerPlan)
  | seen, [] => .ok seen
  | seen, conf :: confs =>
    match m.checkServer env seen conf with
    | .error msg => .error (msg ++ " in server " ++ toString conf.listenPort)
    | .ok p => checkServers env m (seen ++ [p]) confs

def serverConfCheck (env : LoadEnv) (conf : Conf) (m : Master) : Except String (List ServerPlan) :=
  if conf.servers = [] then .error "you must set at least 1 server" else m.checkServers env [] conf.servers

def serverDelete (s : Nat) (m : Master) : Master :=
  { m.setServer s { m.server s with deleted := true } with
    servers := m.servers.erase s
    deletedServers := s :: m.deletedServers }

/-- `server_create`. The counters are zero from `conf_parse` on. -/
def serverCreate (conf : ServerConf) (m : Master) : Option Master := do
  let s := m.serverTotal
  let (index, serverIndexs) ← m.serverIndexs.add s
  let hash ← hashInit true true
  some { m with
    servers := m.servers ++ [s]
    serverTotal := s + 1
    serverIndexs
    server := Function.update m.server s
      { conf, deleted := false, index, clear := 0, consumed := 0, content := 0, itemNr := 0, passbyItemNr := 0, connections := 0 }
    hash := Function.update m.hash s hash
    lru := Function.update m.lru (some s) []
    passbyLru := Function.update m.passbyLru s [] }

/-- The settings after `server_update`. -/
def updateConf (old new : ServerConf) : ServerConf :=
  { old with
    accessLog := if new.accessLog ≠ old.accessLog then new.accessLog else old.accessLog
    capacity := new.capacity
    sendTimeout := new.sendTimeout
    recvTimeout := new.recvTimeout
    itemMaxSize := new.itemMaxSize
    passbyEnable := new.passbyEnable
    passbyBeginItemNr := new.passbyBeginItemNr
    passbyBeginConsumed := new.passbyBeginConsumed
    passbyLimitNr := new.passbyLimitNr
    passbyExpire := new.passbyExpire
    keepaliveTimeout := new.keepaliveTimeout
    serverDump := new.serverDump
    shutdownIfNotStore := new.shutdownIfNotStore
    keyIncludeQuery := new.keyIncludeQuery
    keyIncludeHost := new.keyIncludeHost
    keyIncludeOhcKey := new.keyIncludeOhcKey
    expireDefault := new.expireDefault
    expireForce := new.expireForce
    statusPeriod := new.statusPeriod
    -- `server_listen_update`
    sndbuf := if new.sndbuf ≠ old.sndbuf then new.sndbuf else old.sndbuf
    rcvbuf := if new.rcvbuf ≠ old.rcvbuf then new.rcvbuf else old.rcvbuf
    requestTimeout := if new.requestTimeout ≠ old.requestTimeout then new.requestTimeout else old.requestTimeout }

def serverUpdate (s : Nat) (conf : ServerConf) (m : Master) : Master :=
  { m.setServer s { m.server s with conf := updateConf (m.server s).conf conf } with servers := m.servers.erase s ++ [s] }

def loadServer (p : ServerPlan) (m : Master) : Option Master :=
  match p.existing with
  | some s => some (m.serverUpdate s p.conf)
  | none => m.serverCreate p.conf

/-- The servers that the configuration does not name. -/
def droppedServers (plan : List ServerPlan) (m : Master) : List Nat :=
  m.servers.filter fun s => !plan.any fun p => p.existing = some s

def serverConfLoad (plan : List ServerPlan) (m : Master) : Option Master :=
  let m := (m.droppedServers plan).foldl (fun m s => m.serverDelete s) m
  plan.foldlM (fun m p => m.loadServer p) m

/-- The part of a load that concerns devices and servers, when both checks
have passed. -/
def confLoad (al : Allocator) (conf : Conf) (devices : List DevicePlan) (servers : List ServerPlan) (m : Master) :
    Option Master := do
  let space ← m.space.deviceConfLoad al conf devices
  { m with space }.serverConfLoad servers

end Master

/-! ## The whole load -/

/-- The process, as far as loading goes. -/
structure Process where
  master : Master
  pool : Pool
  newWorkers : Int
  check270G : Bool
  quitTimeout : Nat
  errorLog : String

/-- The process at the begin of `main`. -/
def Process.boot (now : Int) : Process where
  master :=
    { space := .empty 0
      server := fun _ => ⟨.default 0, false, 0, 0, 0, 0, 0, 0, 0⟩
      servers := []
      deletedServers := []
      serverIndexs := .init
      serverTotal := 0
      hash := fun _ => ⟨fun _ => [], hashBucketSizeBegin, 0, none, 0⟩
      lru := fun _ => []
      passby := fun _ => ⟨(0, 0), 0⟩
      passbys := []
      passbyLru := fun _ => []
      request := fun _ => ⟨.accepted [], 0, none⟩
      requests := []
      now
      calls := 0
      number := fun _ => 0
      log := [] }
  pool := .init
  newWorkers := 0
  check270G := false
  quitTimeout := 0
  errorLog := ""

/-- Where `olivehc_load_conf` fails, and the message. -/
inductive LoadError
  | parse
  | global (msg : String)
  | device (msg : String)
  | server (msg : String)
  | threads (msg : String)
  | worker (msg : String)
deriving DecidableEq, Repr

namespace Process

def globalConfCheck (env : LoadEnv) (conf : Conf) (p : Process) : Except String Unit :=
  if conf.errorLog ≠ p.errorLog ∧ !env.openLog conf.errorLog then .error "open error log" else .ok ()

/-- The checks of the modules that change nothing. -/
def confCheck (env : LoadEnv) (conf : Conf) (p : Process) : Except LoadError (List DevicePlan × List ServerPlan) := do
  (p.globalConfCheck env conf).mapError .global
  let devices ← (p.master.space.deviceConfCheck env conf).mapError .device
  let servers ← (p.master.serverConfCheck env conf).mapError .server
  return (devices, servers)

/-- The loop of `worker_conf_check` from the `i`-th worker on: whether all
were created, and how many. -/
def createWorkers (env : LoadEnv) : Nat → Nat → Pool → Bool × Nat × Pool
  | i, 0, pool => (true, i, pool)
  | i, n + 1, pool =>
    match env.worker.get i pool.alive with
    | none => (false, i, pool)
    | some w => createWorkers env (i + 1) n (pool.workerCreate w)

/-- `worker_conf_check`. -/
def workerConfCheck (env : LoadEnv) (conf : Conf) (p : Process) : Option LoadError × Process :=
  if conf.threads = 0 then (some (.threads "threads must be large than 0"), p)
  else
    let newWorkers := conf.threads - p.pool.workers
    let x := createWorkers env 0 newWorkers.toNat p.pool
    if x.1 then (none, { p with newWorkers, pool := x.2.2 })
    else (some (.worker "create worker"), { p with newWorkers := x.2.1, pool := x.2.2 })

/-- `worker_conf_rollback`; the other rollbacks only give back what the
checks have opened. -/
def rollback (p : Process) : Option Process :=
  (Pool.workerDelete p.newWorkers.toNat 0 p.pool).map fun pool => { p with pool }

/-- The `conf_load`s of all modules. -/
def load (al : Allocator) (conf : Conf) (devices : List DevicePlan) (servers : List ServerPlan) (p : Process) :
    Option Process := do
  let master ← p.master.confLoad al conf devices servers
  let pool ← Pool.workerDelete (p.pool.workers - conf.threads).toNat 0 p.pool
  some {
    master
    pool
    newWorkers := 0
    check270G := conf.check270G
    quitTimeout := conf.quitTimeout
    errorLog := if conf.errorLog ≠ p.errorLog then conf.errorLog else p.errorLog }

/-- `olivehc_load_conf`: an error, if any, and the process after it. `file`
is what `conf_parse` returns. -/
def olivehcLoadConf (al : Allocator) (env : LoadEnv) (file : Option Conf) (p : Process) :
    Option (Option LoadError × Process) :=
  match file with
  | none => some (some .parse, p)
  | some conf =>
    match p.confCheck env conf with
    | .error e => p.rollback.map fun p => (some e, p)
    | .ok (devices, servers) =>
      match p.workerConfCheck env conf with
      | (some e, p) => p.rollback.map fun p => (some e, p)
      | (none, p) => (p.load al conf devices servers).map fun p => (none, p)

end Process

end OliveHc
