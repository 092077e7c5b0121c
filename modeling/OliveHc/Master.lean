/-
The master thread: every step by which the state of the program changes
while it runs.

The workers' steps on a request (reading a body, sending an item) are steps
of the same system; they touch nothing but the request. A request returns
from its worker at any later time (`finish`). A server that is freed is gone:
a request that still points to it takes no step that would read it.
-/
import OliveHc.Format
import OliveHc.Reload

namespace OliveHc

/-- What happens to the program. -/
inductive MasterEvent
  | tick (now : Int)
  /-- A connection to server `s`; the memory of its request object, at `r`,
  holds the fields and the buffer of an earlier one. -/
  | accept (s r : Nat) (old : Request) (buffer total : List UInt8)
  | conn (r : Nat) (e : ConnEvent)
  /-- The rest of `request_read_request_header`, after the parse. -/
  | handle (r : Nat) (dispatch send : Bool)
  /-- `request_do_finalize`. -/
  | finish (r : Nat)
  | clear (port : Nat)
  | reload (env : LoadEnv) (conf : Conf)
  /-- `format_load_device`, before the first event. -/
  | load (d : Nat) (io : FormatIo) (image : Nat → UInt8)
  | serverRoutine
  | deviceRoutine

namespace Master

/-- The server objects there are. -/
def allServers (m : Master) : List Nat := m.servers ++ m.deletedServers

def setRequest (r : Nat) (q : Req) (m : Master) : Master := { m with request := Function.update m.request r q }

/-- What `request.c` reads of an item. -/
def itemView (a : Nat) (m : Master) : ItemView := ⟨(m.space.item a).length, (m.space.item a).headersLen⟩

/-- The connection of a request, with the item as it is now. -/
def connOf (r : Nat) (m : Master) : Conn := { (m.request r).conn with item := (m.request r).item.map m.itemView }

/-- `request_process_entry`, below the limit of connections. -/
def accept (s r : Nat) (old : Request) (buffer total : List UInt8) (m : Master) : Master :=
  let x := m.server s
  { m.setServer s { x with connections := x.connections + 1 } with
    requests := r :: m.requests
    request := Function.update m.request r {
      conn := {
        r := requestReset x.conf.keepaliveTimeout old
        buffer, bufPos := 0, item := none, worker := false, active := false, broken := false, diskError := false
        processSize := 0, outputSize := 0, inputSize := 0, phase := .readHeader, stream := total, received := []
        kept := [], total }
      server := s
      item := none } }

/-- What an event of the connection reads of the rest of the program. -/
def ConnEventOk (r : Nat) (m : Master) : ConnEvent → Prop
  | .recv env _ => (m.request r).server ∈ m.allServers ∧
      env.expireForce = (m.server (m.request r).server).conf.expireForce ∧ env.now = m.now
  | .handle _ | .finish _ => False
  | _ => True

instance (r : Nat) (m : Master) (e : ConnEvent) : Decidable (m.ConnEventOk r e) := by
  cases e <;> unfold ConnEventOk <;> infer_instance

/-- The outcome of a request that reaches none of the handlers. -/
def outcome (s : Nat) (dispatch send : Bool) (m : Master) : Outcome where
  lookup := none
  store := .error none
  delete := false
  dispatch
  send
  shutdownIfNotStore := (m.server s).conf.shutdownIfNotStore

/-- The handler of a parsed request: what it returns, with the item of the
request, and the state after it. -/
def callHandler (rt : Runtime) (s : Nat) (dispatch send : Bool) (c : Conn) (m : Master) :
    Option (Outcome × Option Nat × Master) :=
  let o := m.outcome s dispatch send
  match c.r.method with
  | .get | .head => do
    let (a, m) ← m.serverRequestGetHandler rt s c.buffer c.r
    some ({ o with lookup := a.map m.itemView }, a, m)
  | .put | .post => do
    let (rc, m) ← m.serverRequestPutHandler rt s c.buffer c.r
    some (match rc with
      | .ok a => ({ o with store := .ok (m.itemView a) }, some a, m)
      | .decline reason => ({ o with store := .decline reason }, none, m)
      | .error reason => ({ o with store := .error reason }, none, m))
  | .purge | .delete => do
    let (found, m) ← m.serverRequestDeleteHandler rt s c.buffer c.r
    some ({ o with delete := found }, none, m)
  | .invalid => none

/-- The rest of `request_read_request_header`. -/
def handle (rt : Runtime) (r : Nat) (dispatch send : Bool) (m : Master) : Option Master := do
  let s := (m.request r).server
  let c := m.connOf r
  match c.phase with
  | .parsed .done => do
    let (o, a, m) ← m.callHandler rt s dispatch send c
    let c ← c.handle o .done
    some (m.setRequest r ⟨c, s, a⟩)
  | .parsed rc => do
    let c ← c.handle (m.outcome s dispatch send) rc
    some (m.setRequest r ⟨c, s, none⟩)
  | _ => none

/-- `request_do_finalize`: the request starts over, or its object is freed. -/
def requestDoFinalize (rt : Runtime) (r : Nat) (m : Master) : Option Master := do
  let q := m.request r
  let m ← match q.item with
    | none => some m
    | some a => m.serverRequestFinalize rt a q.conn.processSize q.conn.diskError
  let x := m.server q.server
  let c := q.conn.requestDoFinalize x.conf.keepaliveTimeout
  if c.phase = .closed then
    some { m.setServer q.server { x with connections := x.connections - 1 } with requests := m.requests.erase r }
  else some (m.setRequest r ⟨c, q.server, none⟩)

/-- Nothing has happened but loading. -/
def Booting (m : Master) : Prop := m.requests = [] ∧ ∀ x ∈ m.log, ∃ n s d id, x = .loaded n s d id

end Master

open Master in
/-- One step; `none` if it cannot be taken, or if the process ends in it. -/
def masterStep (rt : Runtime) (m : Master) : MasterEvent → Option Master
  | .tick now => if m.now ≤ now then some { m with now } else none
  | .accept s r old buffer total =>
    if s ∈ m.servers ∧ r ∉ m.requests ∧ buffer.length = reqBufSize ∧
        (m.server s).connections < (m.server s).conf.connectionsLimit then some (m.accept s r old buffer total)
    else none
  | .conn r e =>
    if r ∈ m.requests ∧ m.ConnEventOk r e then
      (connStep (m.connOf r) e).map fun c => m.setRequest r { m.request r with conn := c }
    else none
  | .handle r dispatch send =>
    if r ∈ m.requests ∧ (m.request r).server ∈ m.allServers then m.handle rt r dispatch send else none
  | .finish r =>
    if r ∈ m.requests ∧ (m.request r).server ∈ m.allServers ∧ (m.request r).conn.phase = .finalizing then
      m.requestDoFinalize rt r
    else none
  | .clear port => (m.serverByPort port).map fun s => m.serverClear s
  | .reload env conf =>
    match m.space.deviceConfCheck env conf, m.serverConfCheck env conf with
    | .ok devices, .ok servers => m.confLoad rt.al conf devices servers
    | _, _ => none
  | .load d io image =>
    if d ∈ m.space.devices then (m.formatLoadDevice rt io d image).map fun x => x.2.2 else none
  | .serverRoutine => m.serverRoutine rt
  | .deviceRoutine => (host rt).deviceRoutine m

/-- The program from the begin of `main` on. -/
def masterSystem (rt : Runtime) : System Master MasterEvent where
  init m := ∃ now, m = (Process.boot now).master
  next m e m' := masterStep rt m e = some m' ∧ ∀ d io image, e = .load d io image → m.Booting

def MasterEvent.isLoad : MasterEvent → Bool
  | .load .. => true
  | _ => false

/-- Steps other than loading, one after another. -/
theorem masterSystem_run {rt : Runtime} {m m' : Master} {l : List MasterEvent} (hl : l.all (!·.isLoad) = true)
    (h : (masterSystem rt).Reachable m) (hr : System.run (masterStep rt) m l = some m') : (masterSystem rt).Reachable m' := by
  induction l generalizing m with
  | nil =>
    cases hr
    exact h
  | cons e l ih =>
    obtain ⟨m₁, h₁, hr⟩ := Option.bind_eq_some_iff.mp hr
    rw [List.all_cons, Bool.and_eq_true] at hl
    refine ih hl.2 (h.step ⟨h₁, fun d io image he => ?_⟩) hr
    rw [he] at hl
    cases hl.1

theorem masterSystem_guarded {rt : Runtime} {ok : Master → MasterEvent → Prop} [∀ m e, Decidable (ok m e)] {m m' : Master}
    {l : List MasterEvent} (hl : l.all (!·.isLoad) = true) (h : (masterSystem rt).Reach ok m)
    (hr : System.run (System.guarded ok (masterStep rt)) m l = some m') : (masterSystem rt).Reach ok m' := by
  refine System.Reach.guarded (S := masterSystem rt) (fun e he s s' hs => ⟨hs, fun d io image hload => ?_⟩) h hr
  have hno := List.all_eq_true.mp hl e he
  rw [hload] at hno
  cases hno

/-- A runtime in which nothing fails. -/
def Runtime.plain : Runtime := ⟨.unbounded, fun _ => true, fun key => (key.length.toUInt64, 0)⟩

end OliveHc
