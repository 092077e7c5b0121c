/-
What the functions of `server.c` can do, case by case.

Each case of a handler, of a store, of the end of a request and of a loaded
record is a constructor: what was found, and the state after it. Every
invariant of the master goes through these cases.
-/
import OliveHc.Master.Loops

namespace OliveHc

/-- The bytes that a store writes, as an integer. -/
def Request.storeLength (r : Request) : Int := r.contentLength + r.putHeaderLength

namespace Master

variable {rt : Runtime} {s a : Nat} {m m' : Master}

/-! ## Lookups -/

/-- Item `a` on device `d` is hit: both are in use once more, and the item is
the newest of its list. -/
def hitItem (s a d : Nat) (id : HashId) (m : Master) : Master :=
  let item := m.space.item a
  let device := m.space.device d
  let m := { m with space := m.space.setDevice d { device with used := device.used + 1 } }
  let m := m.setItem a { item with used := (item.used + 1) % 2 ^ 16 }
  ((m.lruDel a).lruAdd a (m.serverLruHead s)).note (.hit (m.number a) s id)

/-- `server_request_get_handler`, behind `server_hash_get`. -/
inductive GetCase (rt : Runtime) (s : Nat) : Option (HashNode Entry) → Master → Option Nat → Master → Prop
  | miss {m : Master} : GetCase rt s none m none m
  | passby {id : HashId} {p : Nat} {m : Master} : GetCase rt s (some ⟨id, .passby p⟩) m none
      { m with passbyLru := Function.update m.passbyLru s (p :: (m.passbyLru s).erase p) }
  | hidden {id : HashId} {a : Nat} {m : Master} : (m.space.item a).deleted = true ∨ (m.space.item a).putting = true →
      GetCase rt s (some ⟨id, .item a⟩) m none m
  | stale {id : HashId} {a : Nat} {m m' : Master} : m.serverItemValid a = some false → m.serverItemDelete rt a = some m' →
      GetCase rt s (some ⟨id, .item a⟩) m none m'
  | hit {id : HashId} {a d : Nat} {m : Master} : (m.space.item a).deleted = false → (m.space.item a).putting = false →
      m.serverItemValid a = some true → m.space.deviceOfItem a = some d →
      GetCase rt s (some ⟨id, .item a⟩) m (some a) (m.hitItem s a d id)

theorem serverRequestGetHandler_cases {buffer : List UInt8} {r : Request} {o : Option Nat}
    (h : m.serverRequestGetHandler rt s buffer r = some (o, m')) :
    ∃ key, serverKey (m.server s).conf buffer r = some key ∧
      GetCase rt s (m.lookup rt s key).1 (m.lookup rt s key).2 o m' := by
  unfold serverRequestGetHandler at h
  obtain ⟨key, hkey, h⟩ := Option.bind_eq_some_iff.mp h
  refine ⟨key, hkey, ?_⟩
  generalize m.lookup rt s key = x at h ⊢
  obtain ⟨n, m₁⟩ := x
  simp only at h
  split at h
  · cases h
    exact .miss
  · cases h
    exact .passby
  next id a =>
  split at h
  · next hhid =>
    cases h
    exact .hidden hhid
  next hvis =>
  obtain ⟨hdel, hput⟩ := not_or.mp hvis
  obtain ⟨valid, hvalid, h⟩ := Option.bind_eq_some_iff.mp h
  cases valid with
  | false =>
    obtain ⟨m₂, h₂, h⟩ := Option.bind_eq_some_iff.mp h
    cases h
    exact .stale hvalid h₂
  | true =>
    obtain ⟨d, hd, h⟩ := Option.bind_eq_some_iff.mp h
    cases h
    exact .hit (by simpa using hdel) (by simpa using hput) hvalid hd

/-- `server_request_delete_handler`, behind `server_hash_get`. -/
inductive DeleteCase (rt : Runtime) (s : Nat) : Option (HashNode Entry) → Master → Bool → Master → Prop
  | miss {m : Master} : DeleteCase rt s none m false m
  | passby {id : HashId} {p : Nat} {m : Master} : DeleteCase rt s (some ⟨id, .passby p⟩) m true (m.serverPassbyItemDelete s p)
  | item {id : HashId} {a : Nat} {m m' : Master} : m.serverItemDelete rt a = some m' → DeleteCase rt s (some ⟨id, .item a⟩) m true m'

theorem serverRequestDeleteHandler_cases {buffer : List UInt8} {r : Request} {found : Bool}
    (h : m.serverRequestDeleteHandler rt s buffer r = some (found, m')) :
    ∃ key, serverKey (m.server s).conf buffer r = some key ∧
      DeleteCase rt s (m.lookup rt s key).1 ((m.lookup rt s key).2.note (.deleted s (rt.md5 key))) found m' := by
  unfold serverRequestDeleteHandler at h
  obtain ⟨key, hkey, h⟩ := Option.bind_eq_some_iff.mp h
  refine ⟨key, hkey, ?_⟩
  generalize m.lookup rt s key = x at h ⊢
  obtain ⟨n, m₁⟩ := x
  simp only at h
  split at h
  · cases h
    exact .miss
  · cases h
    exact .passby
  · obtain ⟨m₂, h₂, h⟩ := Option.bind_eq_some_iff.mp h
    cases h
    exact .item h₂

/-! ## Stores -/

/-- What a store removes for its id, or adds when there is nothing. -/
inductive Freed (rt : Runtime) (s : Nat) (id : HashId) : Option (HashNode Entry) → Master → Master → Prop
  | absent {m m' : Master} : m.serverPassbyStore rt s id = (false, m') → Freed rt s id none m m'
  | passby {i : HashId} {p : Nat} {m : Master} : Freed rt s id (some ⟨i, .passby p⟩) m (m.serverPassbyItemDelete s p)
  | item {i : HashId} {a : Nat} {m m' : Master} : m.serverItemDelete rt a = some m' → Freed rt s id (some ⟨i, .item a⟩) m m'

/-- The item at `a` is to have these lengths, before it has a block. -/
def draft (a length headersLen : Nat) (m : Master) : Master :=
  { m with calls := m.calls + 1 }.setItem a { m.space.item a with length, headersLen }

/-- The item at `a`, with its block of `bsize` bytes on device `d`, is linked
for the request that writes it. -/
def admitted (rt : Runtime) (s a d bsize : Nat) (id : HashId) (expire : Int) (m : Master) : Master :=
  let x := m.server s
  let m := m.setItem a { m.space.item a with
    putting := true
    badblock := false
    deleted := false
    used := 0
    clear := x.clear
    expire
    serverIndex := x.index
    id }
  let m := (m.link rt s ⟨id, .item a⟩).lruAdd a (m.serverLruHead s)
  let m := m.setServer s { x with
    consumed := x.consumed + bsize
    content := x.content + (m.space.item a).length
    itemNr := x.itemNr + 1 }
  let device := m.space.device d
  let m := { m with space := m.space.setDevice d { device with used := device.used + 1 } }
  { m with number := Function.update m.number a m.log.length, log := .created m.log.length s d id :: m.log }

theorem admitted_item {d k : Nat} {id : HashId} {expire : Int} :
    (m.admitted rt s a d k id expire).space.item a = { m.space.item a with
      putting := true, badblock := false, deleted := false, used := 0, clear := (m.server s).clear, expire
      serverIndex := (m.server s).index, id } :=
  Function.update_self ..

theorem admitItem_cases {k : Nat} {id : HashId} {expire : Int} (h : m.admitItem rt s a k id expire = some m') :
    ∃ d, m.space.deviceOfItem a = some d ∧ m' = m.admitted rt s a d k id expire := by
  unfold admitItem at h
  obtain ⟨d, hd, h⟩ := Option.bind_eq_some_iff.mp h
  cases h
  refine ⟨d, ?_, rfl⟩
  rw [← hd]
  show _ = m.space.deviceIndexs.get (Function.update m.space.item a _ a).deviceIndex
  rw [Function.update_self]
  rfl

/-- `store`. -/
inductive StoreCase (rt : Runtime) (s : Nat) (id : HashId) (length headersLen : Nat) (expire : Int) (m : Master) :
    PutRc → Master → Prop
  | noMem : rt.al.get m.calls m.space.items = none →
      StoreCase rt s id length headersLen expire m (.error none) { m with calls := m.calls + 1 }
  | noSpace {a : Nat} {m₁ : Master} : rt.al.get m.calls m.space.items = some a →
      (m.draft a length headersLen).tryAgain rt s a 12 0 = some (0, m₁) →
      StoreCase rt s id length headersLen expire m (.error (some "NoSpace")) { m₁ with space := m₁.space.itemFree a }
  | ok {a d k : Nat} {m₁ : Master} : rt.al.get m.calls m.space.items = some a →
      (m.draft a length headersLen).tryAgain rt s a 12 0 = some (k, m₁) → k ≠ 0 → m₁.space.deviceOfItem a = some d →
      StoreCase rt s id length headersLen expire m (.ok a) (m₁.admitted rt s a d k id expire)

theorem store_cases {id : HashId} {length headersLen : Nat} {expire : Int} {rc : PutRc}
    (h : m.store rt s id length headersLen expire = some (rc, m')) : StoreCase rt s id length headersLen expire m rc m' := by
  unfold store at h
  split at h
  · next hno =>
    cases h
    exact .noMem hno
  next a ha =>
  obtain ⟨⟨k, m₁⟩, h₁, h⟩ := Option.bind_eq_some_iff.mp h
  simp only at h
  split at h
  · next hk =>
    subst hk
    cases h
    exact .noSpace ha h₁
  next hk =>
  obtain ⟨m₂, h₂, h⟩ := Option.bind_eq_some_iff.mp h
  cases h
  obtain ⟨d, hd, rfl⟩ := admitItem_cases h₂
  exact .ok ha h₁ hk hd

/-- `server_request_put_handler`. -/
inductive PutCase (rt : Runtime) (s : Nat) (buffer : List UInt8) (r : Request) (m : Master) : PutRc → Master → Prop
  | declined {reason : String} : PutCase rt s buffer r m (.decline reason) m
  | passby {key : List UInt8} {m' : Master} : serverKey (m.server s).conf buffer r = some key → (m.lookup rt s key).1 = none →
      (m.lookup rt s key).2.serverPassbyStore rt s (rt.md5 key) = (true, m') →
      PutCase rt s buffer r m (.decline "StorePassby") m'
  | exist {key : List UInt8} : serverKey (m.server s).conf buffer r = some key →
      PutCase rt s buffer r m (.decline "Exist") (m.lookup rt s key).2
  | store {key : List UInt8} {expire : Int} {m₁ : Master} {rc : PutRc} {m' : Master} : serverKey (m.server s).conf buffer r = some key →
      putExpire (m.server s).conf m.now r = some expire →
      Freed rt s (rt.md5 key) (m.lookup rt s key).1 (m.lookup rt s key).2 m₁ →
      StoreCase rt s (rt.md5 key) (r.storeLength % (2 ^ 32 : Nat)).toNat (r.putHeaderLength % 2 ^ 16)
        (expire.bmod (2 ^ 32)) m₁ rc m' → PutCase rt s buffer r m rc m'

theorem serverRequestPutHandler_cases {buffer : List UInt8} {r : Request} {rc : PutRc}
    (h : m.serverRequestPutHandler rt s buffer r = some (rc, m')) : PutCase rt s buffer r m rc m' := by
  have hlen : ((r.contentLength % modulus64).toNat + r.putHeaderLength) % modulus64 % 2 ^ 32 =
      (r.storeLength % (2 ^ 32 : Nat)).toNat := by
    unfold modulus64 Request.storeLength
    omega
  unfold serverRequestPutHandler at h
  simp only [hlen] at h
  split at h
  · cases h
    exact .declined
  split at h
  · cases h
    exact .declined
  split at h
  · cases h
    exact .declined
  next expire hexp =>
  obtain ⟨key, hkey, h⟩ := Option.bind_eq_some_iff.mp h
  split at h
  · next hnone =>
    split at h
    · next hst =>
      cases h
      exact .passby hkey hnone (Prod.ext hst rfl)
    · next hst =>
      exact .store hkey hexp (hnone ▸ .absent (Prod.ext (by simpa using hst) rfl)) (store_cases h)
  · next hpass => exact .store hkey hexp (hpass ▸ .passby) (store_cases h)
  · next hitem =>
    obtain ⟨replace, -, h⟩ := Option.bind_eq_some_iff.mp h
    split at h
    · obtain ⟨m₁, h₁, h⟩ := Option.bind_eq_some_iff.mp h
      exact .store hkey hexp (hitem ▸ .item h₁) (store_cases h)
    · cases h
      exact .exist hkey

/-! ## The end of a request -/

/-- The item of a request that ends, before it is decided whether it goes. -/
def released (x : Item) (diskError : Bool) : Item :=
  let x := if x.putting then { x with putting := false } else { x with used := (x.used + 2 ^ 16 - 1) % 2 ^ 16 }
  if diskError then { x with badblock := true } else x

@[simp] theorem released_deleted (x : Item) (diskError : Bool) : (released x diskError).deleted = x.deleted := by
  unfold released
  cases x.putting <;> cases diskError <;> rfl

@[simp] theorem released_putting (x : Item) (diskError : Bool) : (released x diskError).putting = false := by
  unfold released
  cases x.putting <;> cases diskError <;> rfl

theorem released_used (x : Item) (diskError : Bool) :
    (released x diskError).used = if x.putting then x.used else (x.used + 2 ^ 16 - 1) % 2 ^ 16 := by
  unfold released
  cases x.putting <;> cases diskError <;> rfl

/-- Item `a` on device `d` is given back by its request. -/
def release (a d : Nat) (diskError : Bool) (m : Master) : Master :=
  let device := m.space.device d
  { m with space := m.space.setDevice d { device with used := device.used - 1 } }.setItem a
    (released (m.space.item a) diskError)

/-- `server_request_finalize`. -/
inductive FinalizeCase (rt : Runtime) (a processSize : Nat) (diskError : Bool) (m : Master) : Master → Prop
  | delete {d : Nat} {m' : Master} : a ∈ m.space.items → m.space.deviceOfItem a = some d →
      diskError = true ∨ (m.space.item a).deleted = true ∨
        (m.space.item a).putting = true ∧ processSize < (m.space.item a).length →
      (m.release a d diskError).serverItemDelete rt a = some m' → FinalizeCase rt a processSize diskError m m'
  | finished {d : Nat} : a ∈ m.space.items → m.space.deviceOfItem a = some d → diskError = false →
      (m.space.item a).deleted = false → (m.space.item a).putting = true → (m.space.item a).length ≤ processSize →
      FinalizeCase rt a processSize diskError m ((m.release a d diskError).note (.finished (m.number a)))
  | sent {d : Nat} : a ∈ m.space.items → m.space.deviceOfItem a = some d → diskError = false →
      (m.space.item a).deleted = false → (m.space.item a).putting = false →
      FinalizeCase rt a processSize diskError m (m.release a d diskError)

theorem serverRequestFinalize_cases {processSize : Nat} {diskError : Bool}
    (h : m.serverRequestFinalize rt a processSize diskError = some m') : FinalizeCase rt a processSize diskError m m' := by
  unfold serverRequestFinalize at h
  split at h
  · cases h
  next ha =>
  have ha : a ∈ m.space.items := by simpa using ha
  obtain ⟨d, hd, h⟩ := Option.bind_eq_some_iff.mp h
  cases diskError with
  | true => exact .delete ha hd (.inl rfl) h
  | false =>
    replace h : (if (released (m.space.item a) false).deleted = true ∨
        ((m.space.item a).putting && decide (processSize < (m.space.item a).length)) = true then
        (m.release a d false).serverItemDelete rt a
      else if (m.space.item a).putting = true then some ((m.release a d false).note (.finished (m.number a)))
      else some (m.release a d false)) = some m' := h
    rw [released_deleted] at h
    split at h
    · next hgo => exact .delete ha hd (.inr (hgo.imp id fun hn => by simpa using hn)) h
    next hkeep =>
    obtain ⟨hdel, hfin⟩ := not_or.mp hkeep
    have hdel : (m.space.item a).deleted = false := by simpa using hdel
    split at h
    · next hput =>
      cases h
      exact .finished ha hd rfl hdel hput (by simpa [hput] using hfin)
    · next hput =>
      cases h
      exact .sent ha hd rfl hdel (by simpa using hput)

/-- What calling the handler of a request does: the item it has then, and the
state after it. -/
inductive CallCase (rt : Runtime) (s : Nat) (buffer : List UInt8) (r : Request) (m : Master) :
    Outcome → Option Nat → Master → Prop
  | get {o : Outcome} {a : Option Nat} {m' : Master} : r.method = .get ∨ r.method = .head →
      m.serverRequestGetHandler rt s buffer r = some (a, m') →
      CallCase rt s buffer r m { o with lookup := a.map m'.itemView } a m'
  | store {o : Outcome} {a : Nat} {m' : Master} : r.method.isStore = true →
      m.serverRequestPutHandler rt s buffer r = some (.ok a, m') →
      CallCase rt s buffer r m { o with store := .ok (m'.itemView a) } (some a) m'
  | refused {o : Outcome} {rc : PutRc} {m' : Master} : r.method.isStore = true → (∀ a, rc ≠ .ok a) →
      m.serverRequestPutHandler rt s buffer r = some (rc, m') → CallCase rt s buffer r m o none m'
  | delete {o : Outcome} {found : Bool} {m' : Master} : r.method = .purge ∨ r.method = .delete →
      m.serverRequestDeleteHandler rt s buffer r = some (found, m') → CallCase rt s buffer r m o none m'

theorem callHandler_cases {dispatch send : Bool} {c : Conn} {o : Outcome} {x : Option Nat}
    (h : m.callHandler rt s dispatch send c = some (o, x, m')) : CallCase rt s c.buffer c.r m o x m' := by
  unfold callHandler at h
  simp only at h
  split at h
  · next hm =>
    obtain ⟨⟨b, m₁⟩, h₁, h⟩ := Option.bind_eq_some_iff.mp h
    cases h
    exact .get (.inl hm) h₁
  · next hm =>
    obtain ⟨⟨b, m₁⟩, h₁, h⟩ := Option.bind_eq_some_iff.mp h
    cases h
    exact .get (.inr hm) h₁
  iterate 2
    next hm =>
    have hm : c.r.method.isStore = true := by rw [hm]; rfl
    obtain ⟨⟨rc, m₁⟩, h₁, h⟩ := Option.bind_eq_some_iff.mp h
    cases rc with
    | ok b =>
      cases h
      exact .store hm h₁
    | decline reason | error reason =>
      cases h
      exact .refused hm (fun _ ho => by cases ho) h₁
  · next hm =>
    obtain ⟨⟨found, m₁⟩, h₁, h⟩ := Option.bind_eq_some_iff.mp h
    cases h
    exact .delete (.inl hm) h₁
  · next hm =>
    obtain ⟨⟨found, m₁⟩, h₁, h⟩ := Option.bind_eq_some_iff.mp h
    cases h
    exact .delete (.inr hm) h₁
  · cases h

/-- The rest of `request_read_request_header`. -/
theorem handle_cases {r : Nat} {dispatch send : Bool} (h : m.handle rt r dispatch send = some m') :
    (∃ o x m₁ c, (m.request r).conn.phase = .parsed .done ∧
      CallCase rt (m.request r).server (m.connOf r).buffer (m.connOf r).r m o x m₁ ∧
      (m.connOf r).handle o .done = some c ∧ m' = m₁.setRequest r ⟨c, (m.request r).server, x⟩) ∨
    ∃ o rc c, rc ≠ .done ∧ (m.request r).conn.phase = .parsed rc ∧ (m.connOf r).handle o rc = some c ∧
      m' = m.setRequest r ⟨c, (m.request r).server, none⟩ := by
  unfold handle at h
  simp only at h
  split at h
  · next hphase =>
    obtain ⟨⟨o, x, m₁⟩, h₁, h⟩ := Option.bind_eq_some_iff.mp h
    obtain ⟨c, hc, h⟩ := Option.bind_eq_some_iff.mp h
    cases h
    exact .inl ⟨o, x, m₁, c, hphase, callHandler_cases h₁, hc, rfl⟩
  · next rc hne hphase =>
    obtain ⟨c, hc, h⟩ := Option.bind_eq_some_iff.mp h
    cases h
    exact .inr ⟨_, rc, c, hne, hphase, hc, rfl⟩
  · cases h

/-- What happens to the item of a request at its end. -/
def Finalized (rt : Runtime) (q : Req) (m m' : Master) : Prop :=
  match q.item with
  | none => m' = m
  | some a => FinalizeCase rt a q.conn.processSize q.conn.diskError m m'

/-- `request_do_finalize`. -/
theorem requestDoFinalize_cases {r : Nat} (h : m.requestDoFinalize rt r = some m') :
    ∃ m₁, Finalized rt (m.request r) m m₁ ∧
      let x := m₁.server (m.request r).server
      let c := (m.request r).conn.requestDoFinalize x.conf.keepaliveTimeout
      (c.phase = .closed ∧ m' = { m₁.setServer (m.request r).server { x with connections := x.connections - 1 } with
          requests := m₁.requests.erase r } ∨
        c.phase ≠ .closed ∧ m' = m₁.setRequest r ⟨c, (m.request r).server, none⟩) := by
  obtain ⟨m₁, h₁, h⟩ : ∃ m₁, Finalized rt (m.request r) m m₁ ∧
      (let x := m₁.server (m.request r).server
      let c := (m.request r).conn.requestDoFinalize x.conf.keepaliveTimeout
      if c.phase = .closed then
        some { m₁.setServer (m.request r).server { x with connections := x.connections - 1 } with
          requests := m₁.requests.erase r }
      else some (m₁.setRequest r ⟨c, (m.request r).server, none⟩)) = some m' := by
    unfold requestDoFinalize at h
    unfold Finalized
    cases hi : (m.request r).item with
    | none =>
      simp only [hi] at h
      exact ⟨m, rfl, h⟩
    | some a =>
      simp only [hi] at h
      obtain ⟨m₁, h₁, h⟩ := Option.bind_eq_some_iff.mp h
      exact ⟨m₁, serverRequestFinalize_cases h₁, h⟩
  refine ⟨m₁, h₁, ?_⟩
  simp only at h ⊢
  split at h
  · next hc =>
    cases h
    exact .inl ⟨hc, rfl⟩
  · next hc =>
    cases h
    exact .inr ⟨hc, rfl⟩

/-! ## Loading -/

/-- The item at `a` as the record says, before it has its block. -/
def loadDraft (s d a : Nat) (x : FormatItem) (m : Master) : Master :=
  { m with calls := m.calls + 1 }.setItem a { m.space.item a with
    putting := false
    badblock := false
    deleted := false
    used := 0
    clear := 0
    serverIndex := (m.server s).index
    length := x.length
    expire := x.expire
    headersLen := x.headersLen
    offset := (x.offset % (2 ^ 40 : Nat)).toNat
    deviceIndex := (m.space.device d).index }

/-- The item at `a` has got its block of `bsize` bytes on device `d`. -/
def enter (rt : Runtime) (s d a bsize : Nat) (x : FormatItem) (m : Master) : Master :=
  let m := m.setItem a { m.space.item a with id := x.hashId }
  let m := (m.link rt s ⟨x.hashId, .item a⟩).lruAdd a (m.serverLruHead s)
  let y := m.server s
  { m.setServer s { y with
      consumed := y.consumed + bsize
      content := y.content + x.length
      itemNr := y.itemNr + 1 } with
    number := Function.update m.number a m.log.length
    log := .loaded m.log.length s d x.hashId :: m.log }

/-- `server_load_fm_item`. -/
inductive LoadCase (rt : Runtime) (s d : Nat) (x : FormatItem) (m : Master) : Master → Prop
  | noMem : rt.al.get m.calls m.space.items = none → LoadCase rt s d x m { m with calls := m.calls + 1 }
  | noFit {a : Nat} {sp : Space} : rt.al.get m.calls m.space.items = some a →
      (m.loadDraft s d a x).space.deviceCutFreeBlock rt.al a = some (0, sp) →
      LoadCase rt s d x m { m.loadDraft s d a x with space := sp.itemFree a }
  | ok {a k : Nat} {sp : Space} : rt.al.get m.calls m.space.items = some a →
      (m.loadDraft s d a x).space.deviceCutFreeBlock rt.al a = some (k, sp) → k ≠ 0 →
      LoadCase rt s d x m ({ m.loadDraft s d a x with space := sp }.enter rt s d a k x)

theorem serverLoadFmItem_cases {d : Nat} {x : FormatItem} (h : m.serverLoadFmItem rt s d x = some m') :
    LoadCase rt s d x m m' := by
  unfold serverLoadFmItem at h
  split at h
  · next hno =>
    cases h
    exact .noMem hno
  next a ha =>
  obtain ⟨⟨k, sp⟩, hk, h⟩ := Option.bind_eq_some_iff.mp h
  simp only at h
  split at h
  · next hzero =>
    subst hzero
    cases h
    exact .noFit ha hk
  · next hne =>
    cases h
    exact .ok ha hk hne

/-- What one record keeps, all of them keep. -/
theorem loadItems_rule {P : Master → Prop} {d : Nat} {io : FormatIo} {image : Nat → UInt8} {override : Int}
    {ports : Nat → Nat} (hstep : ∀ {m m' s x}, P m → s ∈ m.servers → m.serverLoadFmItem rt s d x = some m' → P m')
    {n i : Nat} {all : Bool} (hP : P m) (h : m.loadItems rt io d image override ports n i = some (all, m')) : P m' := by
  induction n generalizing m i with
  | zero =>
    cases h
    exact hP
  | succ n ih =>
    unfold loadItems at h
    split at h
    · cases h
      exact hP
    simp only at h
    split at h
    · exact ih hP h
    split at h
    · cases h
    split at h
    · exact ih hP h
    · next s hs =>
      obtain ⟨m₁, h₁, h⟩ := Option.bind_eq_some_iff.mp h
      exact ih (hstep hP (List.mem_of_find?_eq_some hs) h₁) h

/-- **`format_load_device`.** -/
theorem formatLoadDevice_rule {P : Master → Prop} {d : Nat} {io : FormatIo} {image image' : Nat → UInt8} {ok : Bool}
    (hstep : ∀ {m m' s x}, P m → s ∈ m.servers → m.serverLoadFmItem rt s d x = some m' → P m')
    (hpost : ∀ {m sp}, P m → m.space.deviceLoadPost d = some sp → P { m with space := sp }) (hP : P m)
    (h : m.formatLoadDevice rt io d image = some (ok, image', m')) : P m' := by
  unfold formatLoadDevice at h
  split at h
  · cases h
    exact hP
  simp only at h
  split at h
  · cases h
    exact hP
  split at h
  · cases h
    exact hP
  obtain ⟨⟨all, m₁⟩, h₁, h⟩ := Option.bind_eq_some_iff.mp h
  have hP₁ := loadItems_rule hstep hP h₁
  simp only at h
  split at h
  · cases h
    exact hP₁
  obtain ⟨sp, hsp, h⟩ := Option.bind_eq_some_iff.mp h
  have hP₂ := hpost hP₁ hsp
  split at h <;> cases h <;> exact hP₂

/-! ## What they leave alone -/

/-- The time, the requests and the servers are as before, up to the counters
of items. -/
structure Framed (m m' : Master) : Prop where
  now : m'.now = m.now
  request : m'.request = m.request
  requests : m'.requests = m.requests
  servers : m'.servers = m.servers
  deletedServers : m'.deletedServers = m.deletedServers
  serverIndexs : m'.serverIndexs = m.serverIndexs
  serverTotal : m'.serverTotal = m.serverTotal
  server : ∀ s, ∃ c n k p, m'.server s =
    { m.server s with consumed := c, content := n, itemNr := k, passbyItemNr := p }

namespace Framed

variable {m'' : Master}

theorem trans (h : Framed m m') (h' : Framed m' m'') : Framed m m'' where
  now := h'.now.trans h.now
  request := h'.request.trans h.request
  requests := h'.requests.trans h.requests
  servers := h'.servers.trans h.servers
  deletedServers := h'.deletedServers.trans h.deletedServers
  serverIndexs := h'.serverIndexs.trans h.serverIndexs
  serverTotal := h'.serverTotal.trans h.serverTotal
  server s := by
    obtain ⟨c, n, k, p, hs⟩ := h.server s
    obtain ⟨c', n', k', p', hs'⟩ := h'.server s
    exact ⟨c', n', k', p', by rw [hs', hs]⟩

theorem evicted (h : Evicted m m') : Framed m m' :=
  ⟨h.now, h.request, h.requests, h.servers, h.deletedServers, h.serverIndexs, h.serverTotal, h.server⟩

theorem refl (m : Master) : Framed m m := evicted (.refl m)

theorem allServers (h : Framed m m') : m'.allServers = m.allServers := by
  rw [Master.allServers, h.servers, h.deletedServers, Master.allServers]

/-- The counters of server `s` change. -/
theorem counters {f : Nat → Server} {x : Server} (hx : ∃ c n k p, x =
    { f s with consumed := c, content := n, itemNr := k, passbyItemNr := p }) (y : Nat) :
    ∃ c n k p, Function.update f s x y = { f y with consumed := c, content := n, itemNr := k, passbyItemNr := p } := by
  by_cases hy : y = s
  · rw [hy, Function.update_self]
    exact hx
  · rw [Function.update_of_ne hy]
    exact ⟨_, _, _, _, rfl⟩

/-- Nothing of it changes. -/
theorem rest (hnow : m'.now = m.now) (hreq : m'.request = m.request) (hreqs : m'.requests = m.requests)
    (hs : m'.servers = m.servers) (hd : m'.deletedServers = m.deletedServers) (hi : m'.serverIndexs = m.serverIndexs)
    (ht : m'.serverTotal = m.serverTotal) (hserver : m'.server = m.server) : Framed m m' :=
  ⟨hnow, hreq, hreqs, hs, hd, hi, ht, fun _ => ⟨_, _, _, _, congrFun hserver _⟩⟩

theorem lookup (s : Nat) (key : List UInt8) (m : Master) : Framed m (m.lookup rt s key).2 :=
  rest rfl rfl rfl rfl rfl rfl rfl rfl

theorem note {x : Happening} (h : Framed m m') : Framed m (m'.note x) :=
  h.trans (rest rfl rfl rfl rfl rfl rfl rfl rfl)

theorem getCase {n : Option (HashNode Entry)} {o : Option Nat} (h : GetCase rt s n m o m') : Framed m m' := by
  cases h with
  | miss | hidden => exact refl m
  | passby | hit => exact rest rfl rfl rfl rfl rfl rfl rfl rfl
  | stale _ hd => exact evicted (.serverItemDelete hd)

theorem deleteCase {n : Option (HashNode Entry)} {found : Bool} (h : DeleteCase rt s n m found m') : Framed m m' := by
  cases h with
  | miss => exact refl m
  | passby => exact evicted (.passbyItemDelete ..)
  | item hd => exact evicted (.serverItemDelete hd)

theorem passbyStore {id : HashId} {ok : Bool} (h : m.serverPassbyStore rt s id = (ok, m')) : Framed m m' := by
  unfold serverPassbyStore at h
  simp only at h
  split at h
  · cases h
    exact refl m
  split at h
  · cases h
    exact rest rfl rfl rfl rfl rfl rfl rfl rfl
  · cases h
    exact ⟨rfl, rfl, rfl, rfl, rfl, rfl, rfl, counters ⟨_, _, _, _, rfl⟩⟩

theorem freed {id : HashId} {n : Option (HashNode Entry)} (h : Freed rt s id n m m') : Framed m m' := by
  cases h with
  | absent hp => exact passbyStore hp
  | passby => exact evicted (.passbyItemDelete ..)
  | item hd => exact evicted (.serverItemDelete hd)

theorem tryAgain {fuel tries k : Nat} (h : m.tryAgain rt s a fuel tries = some (k, m')) : Framed m m' := by
  have hev : Evictions rt (fun _ => True) (Framed m) :=
    ⟨fun _ _ _ => trivial, fun h _ hd => h.trans (evicted (.serverItemDelete hd)),
      fun h => h.trans (evicted .expirePassbys)⟩
  rcases hev.tryAgain (fun h _ => h.trans (rest rfl rfl rfl rfl rfl rfl rfl rfl))
    (fun h he => h.trans (evicted ((Evicted.steps rt _).deviceFreeBlockExtend (.refl _) he))) (refl m) h with
    ⟨-, h₁⟩ | ⟨-, m₁, sp, h₁, -, rfl⟩
  · exact h₁
  · exact h₁.trans (rest rfl rfl rfl rfl rfl rfl rfl rfl)

theorem storeCase {id : HashId} {length headersLen : Nat} {expire : Int} {rc : PutRc}
    (h : StoreCase rt s id length headersLen expire m rc m') : Framed m m' := by
  have hdraft : ∀ a, Framed m (m.draft a length headersLen) := fun a => rest rfl rfl rfl rfl rfl rfl rfl rfl
  cases h with
  | noMem => exact rest rfl rfl rfl rfl rfl rfl rfl rfl
  | noSpace _ ht => exact ((hdraft _).trans (tryAgain ht)).trans (rest rfl rfl rfl rfl rfl rfl rfl rfl)
  | ok _ ht =>
    refine ((hdraft _).trans (tryAgain ht)).trans ?_
    exact ⟨rfl, rfl, rfl, rfl, rfl, rfl, rfl, counters ⟨_, _, _, _, rfl⟩⟩

theorem putCase {buffer : List UInt8} {r : Request} {rc : PutRc} (h : PutCase rt s buffer r m rc m') : Framed m m' := by
  cases h with
  | declined => exact refl m
  | passby _ _ hp => exact (lookup s _ m).trans (passbyStore hp)
  | exist => exact lookup s _ m
  | store _ _ hf hst => exact ((lookup s _ m).trans (freed hf)).trans (storeCase hst)

/-- **The handlers.** -/
theorem callCase {buffer : List UInt8} {r : Request} {o : Outcome} {x : Option Nat} (h : CallCase rt s buffer r m o x m') :
    Framed m m' := by
  cases h with
  | get _ hg =>
    obtain ⟨key, -, hc⟩ := serverRequestGetHandler_cases hg
    exact (lookup s key m).trans (getCase hc)
  | store _ hp | refused _ _ hp => exact putCase (serverRequestPutHandler_cases hp)
  | delete _ hd =>
    obtain ⟨key, -, hc⟩ := serverRequestDeleteHandler_cases hd
    exact (lookup s key m).note.trans (deleteCase hc)

theorem release (d : Nat) (diskError : Bool) : Framed m (m.release a d diskError) := rest rfl rfl rfl rfl rfl rfl rfl rfl

theorem finalizeCase {processSize : Nat} {diskError : Bool} (h : FinalizeCase rt a processSize diskError m m') :
    Framed m m' := by
  cases h with
  | delete _ _ _ hd => exact (release _ diskError).trans (evicted (.serverItemDelete hd))
  | finished => exact (release _ diskError).note
  | sent => exact release _ diskError

theorem finalized {q : Req} (h : Finalized rt q m m') : Framed m m' := by
  unfold Finalized at h
  split at h
  · rw [h]
    exact refl m
  · exact finalizeCase h

theorem loadCase {d : Nat} {x : FormatItem} (h : LoadCase rt s d x m m') : Framed m m' := by
  cases h with
  | noMem | noFit => exact rest rfl rfl rfl rfl rfl rfl rfl rfl
  | ok => exact ⟨rfl, rfl, rfl, rfl, rfl, rfl, rfl, counters ⟨_, _, _, _, rfl⟩⟩

end Framed

/-- A request that gets an item is one of these. -/
theorem CallCase.method {buffer : List UInt8} {r : Request} {o : Outcome} {x : Option Nat}
    (h : CallCase rt s buffer r m o x m') (hx : x ≠ none) : r.method.isStore = true ∨ r.method = .get ∨ r.method = .head := by
  cases h with
  | get hm => exact .inr hm
  | store hm => exact .inl hm
  | refused | delete => exact absurd rfl hx

end Master

end OliveHc
