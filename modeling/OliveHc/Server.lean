/-
Servers and their items (`server.c`), in the state of the master thread.

Items, pass-by items and requests are objects at addresses, as the devices
are. A server is named by the number of its creation, so that one that has
been freed is never taken for another. As in `device.c`, a result `none` is
the end of the process: a pointer or an index that leads nowhere.

`log` and `number` are kept for the proofs only: what has happened to the
items, newest first, and for the item at an address the number it has in
`log`.
-/
import OliveHc.Conf
import OliveHc.Device
import OliveHc.Request

namespace OliveHc

/-- What a node of a server's hash is embedded in. -/
inductive Entry
  | item (a : Nat)
  | passby (p : Nat)
deriving DecidableEq, Repr

/-- `ohc_passby_item_t`, without its links. -/
structure Passby where
  id : HashId
  expire : Int
deriving DecidableEq

/-- `ohc_server_t`, without its lists, its hash and its statistics. -/
structure Server where
  conf : ServerConf
  deleted : Bool
  index : Int
  clear : Nat
  consumed : Nat
  content : Nat
  itemNr : Int
  passbyItemNr : Int
  connections : Int
deriving DecidableEq, Repr

/-- `ohc_request_t` with the objects it points to. -/
structure Req where
  conn : Conn
  server : Nat
  item : Option Nat

/-- What happens to items. An item is named by its number. -/
inductive Happening
  | created (n s d : Nat) (id : HashId)
  | loaded (n s d : Nat) (id : HashId)
  | finished (n : Nat)
  | hit (n s : Nat) (id : HashId)
  | deleted (s : Nat) (id : HashId)
  | cleared (s : Nat)
deriving DecidableEq

/-- The state of the master. `lru none` is `shared_lru_head`, `lru (some s)`
the `lru_head` of server `s`; `serverTotal` is the number of servers created
so far. -/
structure Master where
  space : Space
  server : Nat → Server
  servers : List Nat
  deletedServers : List Nat
  serverIndexs : IdxPointer
  serverTotal : Nat
  hash : Nat → Hash Entry
  lru : Option Nat → List Nat
  passby : Nat → Passby
  passbys : List Nat
  passbyLru : Nat → List Nat
  request : Nat → Req
  requests : List Nat
  now : Int
  calls : Nat
  number : Nat → Nat
  log : List Happening

/-- What the library returns: the allocators, the `calloc` of the `t`-th
hash expansion, and MD5. -/
structure Runtime where
  al : Allocator
  calloc : Nat → Bool
  md5 : List UInt8 → HashId

/-- Subtraction of `size_t`s. Additions are of sizes on devices and stay
below 2^64. -/
def sizeSub (x y : Nat) : Nat := if y ≤ x then x - y else x + modulus64 - y

/-! ## Keys -/

def char2hex (c : UInt8) : Option UInt8 :=
  if 48 ≤ c ∧ c ≤ 57 then some (c - 48)
  else
    let c := c &&& 0xdf
    if 65 ≤ c ∧ c ≤ 70 then some (c - 65 + 10) else none

/-- `http_decode_uri` of `len` bytes. An escape is read where it is, also
beyond the end. -/
def httpDecodeUri : Nat → List UInt8 → Nat → List UInt8
  | 0, _, _ => []
  | fuel + 1, uri, len =>
    if len = 0 then []
    else match byteAt uri 0 == 37, char2hex (byteAt uri 1), char2hex (byteAt uri 2) with
      | true, some a, some b => (a <<< 4 + b) :: httpDecodeUri fuel (uri.drop 3) (len - 3)
      | _, _, _ => byteAt uri 0 :: httpDecodeUri fuel (uri.drop 1) (len - 1)

/-- The key that `server_hash_get` assembles. Without the query a `?` is
written behind the uri, to be found there at the latest. -/
def serverKey (conf : ServerConf) (buffer : List UInt8) (r : Request) : Option (List UInt8) := do
  let uri ← r.uri
  let buffer := if conf.keyIncludeQuery then buffer else buffer.set (uri.base + uri.len) 63
  let length ← (if conf.keyIncludeQuery then some uri.len else strchr 63 (buffer.drop uri.base))
  let host := if conf.keyIncludeHost then r.host.elim [] (Slice.bytes buffer) else []
  let ohcKey := if conf.keyIncludeOhcKey then r.ohcKey.elim [] (Slice.bytes buffer) else []
  some (httpDecodeUri length (buffer.drop uri.base) length ++ host ++ ohcKey)

namespace Master

variable (rt : Runtime)

/-! ## Items -/

def serverOfItem (a : Nat) (m : Master) : Option Nat := m.serverIndexs.get (m.space.item a).serverIndex

def setServer (s : Nat) (x : Server) (m : Master) : Master := { m with server := Function.update m.server s x }

def setItem (a : Nat) (x : Item) (m : Master) : Master := { m with space := m.space.setItem a x }

/-- `hash_add`. -/
def link (s : Nat) (n : HashNode Entry) (m : Master) : Master :=
  { m with hash := Function.update m.hash s (hashAdd (rt.calloc m.calls) (m.hash s) n), calls := m.calls + 1 }

/-- `hash_del`. -/
def unlink (s : Nat) (n : HashNode Entry) (m : Master) : Master :=
  { m with hash := Function.update m.hash s (hashDel (m.hash s) n) }

/-- `hash_get`. -/
def lookup (s : Nat) (key : List UInt8) (m : Master) : Option (HashNode Entry) × Master :=
  let x := hashGet rt.md5 (rt.calloc m.calls) (m.hash s) key
  (x.1, { m with hash := Function.update m.hash s x.2, calls := m.calls + 1 })

/-- `server_lru_head`. -/
def serverLruHead (s : Nat) (m : Master) : Option Nat := if (m.server s).conf.capacity ≠ 0 then some s else none

def lruAdd (a : Nat) (head : Option Nat) (m : Master) : Master :=
  { m with lru := Function.update m.lru head (a :: m.lru head) }

/-- Unlinks an item from whichever list it is in. -/
def lruDel (a : Nat) (m : Master) : Master := { m with lru := fun l => (m.lru l).erase a }

def note (x : Happening) (m : Master) : Master := { m with log := x :: m.log }

def serverPassbyItemDelete (s p : Nat) (m : Master) : Master :=
  let m := m.unlink s ⟨(m.passby p).id, .passby p⟩
  { m.setServer s { m.server s with passbyItemNr := (m.server s).passbyItemNr - 1 } with
    passbyLru := Function.update m.passbyLru s ((m.passbyLru s).erase p)
    passbys := m.passbys.filter (· ≠ p) }

/-- `server_item_delete`. -/
def serverItemDelete (a : Nat) (m : Master) : Option Master :=
  if a ∉ m.space.items then none
  else do
    let item := m.space.item a
    let s ← m.serverOfItem a
    -- The first time here for the item.
    let m := if item.deleted then m else m.unlink s ⟨item.id, .item a⟩
    -- If used, delete later.
    if item.used ≠ 0 ∨ item.putting then some (m.setItem a { item with deleted := true })
    else do
      let (bsize, space) ← m.space.deviceReturnFreeBlock rt.al a
      let x := m.server s
      some { (m.lruDel a).setServer s { x with
          content := sizeSub x.content item.length
          consumed := sizeSub x.consumed bsize
          itemNr := x.itemNr - 1 } with
        space := space.itemFree a }

def serverItemValid (a : Nat) (m : Master) : Option Bool := do
  let item := m.space.item a
  let d ← m.space.deviceOfItem a
  let s ← m.serverOfItem a
  some (!(m.space.device d).deleted && !(m.server s).deleted && item.clear == (m.server s).clear &&
    decide (item.expire > m.now))

/-- The first loop of `server_item_expire`, over the list from its end; also
what it has counted. -/
def expireItems (s before target : Nat) : Nat → List Nat → Master → Option (Nat × Master)
  | count, [], m => some (count, m)
  | count, a :: l, m => do
    let stop ← (if sizeSub before (m.server s).consumed ≥ target then m.serverItemValid a else some false)
    if stop then some (count, m)
    else do
      let m ← m.serverItemDelete rt a
      if count ≥ loopLimit then some (count + 1, m) else expireItems s before target (count + 1) l m

/-- The second loop, over the pass-by items. -/
def expirePassbys (s : Nat) : Nat → List Nat → Master → Master
  | _, [], m => m
  | count, p :: l, m =>
    let x := m.server s
    if x.conf.passbyEnable ∧ x.passbyItemNr < x.conf.passbyLimitNr ∧ (m.passby p).expire > m.now then m
    else
      let m := m.serverPassbyItemDelete s p
      if count ≥ loopLimit then m else expirePassbys s (count + 1) l m

def serverItemExpire (s target : Nat) (m : Master) : Option Master := do
  let (count, m) ← m.expireItems rt s (m.server s).consumed target 0 (m.lru (some s)).reverse
  some (m.expirePassbys s count (m.passbyLru s).reverse)

/-- The loop of `server_shared_expire`. -/
def expireShared (target : Nat) : Nat → Nat → List Nat → Master → Option Master
  | _, _, [], m => some m
  | size, count, a :: l, m => do
    let stop ← (if size ≥ target then m.serverItemValid a else some false)
    if stop then some m
    else do
      let size := size + (m.space.item a).length
      let m ← m.serverItemDelete rt a
      if count ≥ loopLimit then some m else expireShared target size (count + 1) l m

def serverSharedExpire (target : Nat) (m : Master) : Option Master :=
  m.expireShared rt target 0 0 (m.lru none).reverse

/-- The master around `device.c`. -/
def host : Host Master where
  space := Master.space
  withSpace s m := { m with space := s }
  itemDelete := serverItemDelete rt

/-! ## Requests -/

/-- `server_request_get_handler`: the item that is hit. -/
def serverRequestGetHandler (s : Nat) (buffer : List UInt8) (r : Request) (m : Master) : Option (Option Nat × Master) := do
  let key ← serverKey (m.server s).conf buffer r
  let (hnode, m) := m.lookup rt s key
  match hnode with
  | none => some (none, m)
  | some ⟨_, .passby p⟩ =>
    some (none, { m with passbyLru := Function.update m.passbyLru s (p :: (m.passbyLru s).erase p) })
  | some ⟨id, .item a⟩ =>
    let item := m.space.item a
    if item.deleted ∨ item.putting then some (none, m)
    else do
      let valid ← m.serverItemValid a
      if !valid then
        let m ← m.serverItemDelete rt a
        some (none, m)
      else do
        let d ← m.space.deviceOfItem a
        let device := m.space.device d
        let m := { m with space := m.space.setDevice d { device with used := device.used + 1 } }
        let m := m.setItem a { item with used := (item.used + 1) % 2 ^ 16 }
        some (some a, ((m.lruDel a).lruAdd a (m.serverLruHead s)).note (.hit (m.number a) s id))

/-- `server_passby_store`, and whether it returns `OHC_OK`. -/
def serverPassbyStore (s : Nat) (id : HashId) (m : Master) : Bool × Master :=
  let x := m.server s
  if !x.conf.passbyEnable ∨ x.itemNr < x.conf.passbyBeginItemNr ∨ x.consumed < x.conf.passbyBeginConsumed then (false, m)
  else match rt.al.get m.calls m.passbys with
    | none => (false, { m with calls := m.calls + 1 })
    | some p =>
      let m := { m with passby := Function.update m.passby p ⟨id, m.now + x.conf.passbyExpire⟩, calls := m.calls + 1 }
      let m := m.link rt s ⟨id, .passby p⟩
      (true, { m.setServer s { x with passbyItemNr := x.passbyItemNr + 1 } with
        passbyLru := Function.update m.passbyLru s (p :: m.passbyLru s)
        passbys := p :: m.passbys })

/-- The loop at `try_again`: a block for item `a`, after expiring as much as
it takes. Every round counts `try` up, and 12 is the end of it. -/
def tryAgain (s a : Nat) : Nat → Nat → Master → Option (Nat × Master)
  | fuel, tries, m => do
    let (bsize, space) ← m.space.deviceGetFreeBlock a
    let m := { m with space }
    if bsize ≠ 0 then some (bsize, m)
    else match fuel with
      | 0 => some (0, m)
      | fuel + 1 =>
        let twice := (m.space.item a).length * 2 % 2 ^ 32
        let x := m.server s
        if tries < 2 ∧ m.lru (some s) ≠ [] ∧ x.consumed + twice > x.conf.capacity then do
          let m ← m.serverItemExpire rt s twice
          tryAgain s a fuel (tries + 1) m
        else if tries + 1 < 5 ∧ m.lru none ≠ [] then do
          let m ← m.serverSharedExpire rt twice
          tryAgain s a fuel (tries + 2) m
        else if tries + 2 < 9 ∧ m.lru (some s) ≠ [] then do
          let m ← m.serverItemExpire rt s twice
          tryAgain s a fuel (tries + 3) m
        else if tries + 3 < 12 then do
          let (_, m) ← (host rt).deviceFreeBlockExtend (m.space.item a).length m
          tryAgain s a fuel (tries + 4) m
        else some (0, m)

/-- The item at `a` has got its block of `bsize` bytes. -/
def admitItem (s a bsize : Nat) (id : HashId) (expire : Int) (m : Master) : Option Master := do
  let x := m.server s
  let m := m.setItem a { m.space.item a with
    putting := true
    badblock := false
    deleted := false
    used := 0
    clear := x.clear
    expire
    serverIndex := x.index
    id }
  let m := (m.link rt s ⟨id, .item a⟩).lruAdd a (m.serverLruHead s)
  let m := m.setServer s { x with
    consumed := x.consumed + bsize
    content := x.content + (m.space.item a).length
    itemNr := x.itemNr + 1 }
  let d ← m.space.deviceOfItem a
  let device := m.space.device d
  let m := { m with space := m.space.setDevice d { device with used := device.used + 1 } }
  some { m with number := Function.update m.number a m.log.length, log := .created m.log.length s d id :: m.log }

/-- What `server_request_put_handler` returns, with the item it stores to. -/
inductive PutRc
  | ok (a : Nat)
  | decline (reason : String)
  | error (reason : Option String)
deriving DecidableEq, Repr

/-- The end of `server_request_put_handler`, when the checks are done. -/
def store (s : Nat) (id : HashId) (length headersLen : Nat) (expire : Int) (m : Master) : Option (PutRc × Master) :=
  match rt.al.get m.calls m.space.items with
  | none => some (.error none, { m with calls := m.calls + 1 })
  | some a => do
    let m := { m with calls := m.calls + 1 }
    let m := m.setItem a { m.space.item a with length, headersLen }
    let (bsize, m) ← m.tryAgain rt s a 12 0
    if bsize = 0 then some (.error (some "NoSpace"), { m with space := m.space.itemFree a })
    else do
      let m ← m.admitItem rt s a bsize id expire
      some (.ok a, m)

/-- What takes the place of `expire` in a request that is stored. -/
def putExpire (conf : ServerConf) (now : Int) (r : Request) : Option Int :=
  if conf.expireForce ≠ 0 then some (conf.expireForce + now)
  else if r.expire = 0 then if conf.expireDefault = 0 then none else some (conf.expireDefault + now)
  else some r.expire

/-- `server_request_put_handler`. -/
def serverRequestPutHandler (s : Nat) (buffer : List UInt8) (r : Request) (m : Master) : Option (PutRc × Master) :=
  let conf := (m.server s).conf
  let contentLength := (r.contentLength % modulus64).toNat
  let length := (contentLength + r.putHeaderLength) % modulus64
  if conf.itemMaxSize ≠ 0 ∧ contentLength > conf.itemMaxSize then some (.decline "TooBigItem1", m)
  else if conf.capacity ≠ 0 ∧ length > conf.capacity then some (.decline "TooBigItem2", m)
  else match putExpire conf m.now r with
    | none => some (.decline "Expired", m)
    | some expire => do
      let key ← serverKey conf buffer r
      let id := rt.md5 key
      let (hnode, m) := m.lookup rt s key
      let store := store rt s id (length % 2 ^ 32) (r.putHeaderLength % 2 ^ 16) (expire.bmod (2 ^ 32))
      match hnode with
      | none =>
        let (stored, m) := m.serverPassbyStore rt s id
        if stored then some (.decline "StorePassby", m) else store m
      | some ⟨_, .passby p⟩ => store (m.serverPassbyItemDelete s p)
      | some ⟨_, .item a⟩ => do
        let replace ← (if r.method = .put then some true else (m.serverItemValid a).map (!·))
        if replace then do
          let m ← m.serverItemDelete rt a
          store m
        else some (.decline "Exist", m)

/-- `server_request_delete_handler`, and whether there was an item. -/
def serverRequestDeleteHandler (s : Nat) (buffer : List UInt8) (r : Request) (m : Master) : Option (Bool × Master) := do
  let key ← serverKey (m.server s).conf buffer r
  let (hnode, m) := m.lookup rt s key
  let m := m.note (.deleted s (rt.md5 key))
  match hnode with
  | none => some (false, m)
  | some ⟨_, .passby p⟩ => some (true, m.serverPassbyItemDelete s p)
  | some ⟨_, .item a⟩ => do
    let m ← m.serverItemDelete rt a
    some (true, m)

/-- `server_request_finalize` of a request that has item `a`. -/
def serverRequestFinalize (a processSize : Nat) (diskError : Bool) (m : Master) : Option Master :=
  if a ∉ m.space.items then none
  else do
    let d ← m.space.deviceOfItem a
    let device := m.space.device d
    let m := { m with space := m.space.setDevice d { device with used := device.used - 1 } }
    let item := m.space.item a
    let notFinish := item.putting && decide (processSize < item.length)
    let item := if item.putting then { item with putting := false } else { item with used := (item.used + 2 ^ 16 - 1) % 2 ^ 16 }
    if diskError then (m.setItem a { item with badblock := true }).serverItemDelete rt a
    else if item.deleted ∨ notFinish then (m.setItem a item).serverItemDelete rt a
    else if (m.space.item a).putting then some ((m.setItem a item).note (.finished (m.number a)))
    else some (m.setItem a item)

/-! ## Servers -/

/-- `server_clear` of a server that is found. -/
def serverClear (s : Nat) (m : Master) : Master :=
  (m.setServer s { m.server s with clear := ((m.server s).clear + 1) % 2 ^ 16 }).note (.cleared s)

def serverByPort (port : Nat) (m : Master) : Option Nat := m.servers.find? fun s => (m.server s).conf.listenPort = port

/-- `server_destroy`. -/
def serverDestroy (s : Nat) (m : Master) : Option Master := do
  let m ← m.serverItemExpire rt s (m.server s).consumed
  if (m.server s).itemNr ≠ 0 ∨ (m.server s).passbyItemNr ≠ 0 then some m
  else do
    let serverIndexs ← m.serverIndexs.delete (m.server s).index
    some { m with deletedServers := m.deletedServers.erase s, serverIndexs }

/-- `server_routine`. -/
def serverRoutine (m : Master) : Option Master := do
  let m ← m.servers.foldlM (fun m s =>
    m.serverItemExpire rt s ((m.server s).consumed - (m.server s).conf.capacity)) m
  let m ← m.serverSharedExpire rt 0
  m.deletedServers.foldlM (fun m s => m.serverDestroy rt s) m

end Master

end OliveHc
