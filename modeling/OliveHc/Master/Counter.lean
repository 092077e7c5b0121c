/-
The 16-bit counter of an item's readers, in runs of GETs on one server.

The number of readers is bounded only by `connections_limit`, which is
checked when a connection is accepted and may be any number that
`conf_set_int` takes. Up to 65535 the counter is right; above, hits by as
many connections as it can count bring it back to 0.
-/
import OliveHc.Conf.Parse
import OliveHc.Format.Duplicates
import OliveHc.Master.Pins
import OliveHc.Reload.Settings

namespace OliveHc

namespace Master

open Recent (InUse)

/-! ## What the counter is for -/

/-- The open GET and HEAD requests that hold item `a`. -/
def readers (a : Nat) (m : Master) : List Nat :=
  m.requests.filter fun r => (m.request r).item = some a ∧
    ((m.request r).conn.r.method = .get ∨ (m.request r).conn.r.method = .head)

/-- The counters are right, and an item that is being sent is not freed. -/
structure UsedOk (rt : Runtime) (m : Master) : Prop where
  count : ∀ a ∈ m.space.items, (m.space.item a).used = (m.readers a).length
  sent : ∀ a m', m.serverItemDelete rt a = some m' → m.readers a ≠ [] → a ∈ m'.space.items

theorem length_readers {m : Master} (hp : Pinning m) (a : Nat) : (m.readers a).length = m.holds false a := by
  rw [readers, ← List.countP_eq_length_filter, holds, holdsOf]
  refine List.countP_congr fun r hr => ?_
  simp only [decide_eq_true_eq, Bool.and_eq_true, beq_iff_eq]
  refine and_congr_right fun hi => ?_
  constructor
  · intro hm
    rcases hm with hm | hm <;> rw [hm] <;> rfl
  · intro hm
    have hne : (m.request r).item ≠ none := by
      rw [hi]
      exact Option.some_ne_none a
    exact (hp.method r hr hne).resolve_left fun hst => absurd (hm.symm.trans hst) Bool.false_ne_true

/-- The counters of the pinned items are right. -/
theorem Pinning.usedOk {rt : Runtime} {m : Master} (hp : Pinning m) (hk : Filed.Kept none m) : UsedOk rt m := by
  refine ⟨fun a ha => ?_, fun a m' hd hne => ?_⟩
  · obtain ⟨l, hl⟩ := hk.2.filed a ha nofun
    rw [length_readers hp]
    exact (hp.pins.pinned l a hl).used
  · have hpos : m.holds false a ≠ 0 := by
      rw [← length_readers hp]
      exact fun h0 => hne (List.eq_nil_of_length_eq_zero h0)
    obtain ⟨l, hl⟩ := hp.pins.held false a hpos
    have hu : InUse a m := .inl (by rw [(hp.pins.pinned l a hl).used]; exact hpos)
    rw [((hk.1.deleted hd).used hu).1]
    exact hk.1.listed l a hl

/-! ## Runs of GETs -/

/-- GETs on server `s` and the ends of requests. -/
def Gets (s : Nat) (m : Master) : MasterEvent → Prop
  | .accept s' _ _ _ _ => s' = s
  | .handle r _ _ => (m.request r).conn.phase = .parsed .done →
      (m.request r).conn.r.method = .get ∨ (m.request r).conn.r.method = .head
  | .conn _ _ | .finish _ | .tick _ => True
  | _ => False

/-- No connection is open, and nothing is in use. -/
structure Quiet (m : Master) : Prop where
  requests : m.requests = []
  connections : ∀ s ∈ m.servers, (m.server s).connections = 0
  items : ∀ a ∈ m.space.items, (m.space.item a).used = 0 ∧ (m.space.item a).putting = false

/-- In such a run all requests are of server `s`, and they are counted. -/
structure Serving (s limit : Nat) (m : Master) : Prop where
  server : ∀ r ∈ m.requests, (m.request r).server = s
  conf : (m.server s).conf.connectionsLimit = limit
  connections : (m.server s).connections = m.requests.length
  le : m.requests.length ≤ limit

namespace Serving

variable {rt : Runtime} {m m' : Master} {s limit : Nat}

/-- Nothing of it changes. -/
theorem same (h : Serving s limit m) (hreq : m'.requests = m.requests) (hserver : ∀ r ∈ m.requests, (m'.request r).server = s)
    (hlimit : (m'.server s).conf.connectionsLimit = (m.server s).conf.connectionsLimit)
    (hconn : (m'.server s).connections = (m.server s).connections) : Serving s limit m' := by
  refine ⟨fun r hr => hserver r (hreq ▸ hr), hlimit.trans h.conf, ?_, hreq ▸ h.le⟩
  rw [hreq, hconn]
  exact h.connections

/-- A request of the server changes, and what the handlers change. -/
theorem setRequest {r : Nat} {q : Req} (h : Serving s limit m) (hf : Framed m m') (hq : q.server = s) :
    Serving s limit (m'.setRequest r q) := by
  obtain ⟨_, _, _, _, hs⟩ := hf.server s
  have hs' : (m'.setRequest r q).server s = m'.server s := rfl
  refine h.same hf.requests (fun x hx => ?_) (by rw [hs', hs]) (by rw [hs', hs])
  show (Function.update m'.request r q x).server = s
  by_cases hxr : x = r
  · rw [hxr, Function.update_self]
    exact hq
  · rw [Function.update_of_ne hxr, hf.request]
    exact h.server x hx

theorem step {e : MasterEvent} (h : Serving s limit m) (hg : Gets s m e)
    (hs : masterStep rt m e = some m') : Serving s limit m' := by
  cases e with
  | tick now =>
    obtain ⟨-, hs⟩ := Option.ite_none_right_eq_some.mp hs
    cases hs
    exact h.same rfl h.server rfl rfl
  | accept s' r old buffer total =>
    cases hg
    obtain ⟨⟨-, hr, -, hlt⟩, hs⟩ := Option.ite_none_right_eq_some.mp hs
    cases hs
    have hserver : (m.accept s r old buffer total).server s = { m.server s with connections := (m.server s).connections + 1 } :=
      Function.update_self ..
    refine ⟨fun x hx => ?_, by rw [hserver]; exact h.conf, ?_, ?_⟩
    · show (Function.update m.request r _ x).server = s
      by_cases hxr : x = r
      · rw [hxr, Function.update_self]
      · rw [Function.update_of_ne hxr]
        exact h.server x ((List.mem_cons.mp hx).resolve_left hxr)
    · rw [hserver]
      show (m.server s).connections + 1 = (m.requests.length + 1 : Nat)
      rw [h.connections]
      push_cast
      rfl
    · show m.requests.length + 1 ≤ limit
      rw [h.connections, h.conf] at hlt
      exact_mod_cast hlt
  | conn r e =>
    obtain ⟨⟨hr, -⟩, hs⟩ := Option.ite_none_right_eq_some.mp hs
    obtain ⟨c, -, rfl⟩ := Option.map_eq_some_iff.mp hs
    exact h.setRequest (.refl m) (h.server r hr)
  | handle r dispatch send =>
    obtain ⟨⟨hr, -⟩, hs⟩ := Option.ite_none_right_eq_some.mp hs
    rcases handle_cases hs with ⟨o, x, m₁, c, -, hc, -, rfl⟩ | ⟨o, rc, c, -, -, -, rfl⟩
    · exact h.setRequest (.callCase hc) (h.server r hr)
    · exact h.setRequest (.refl m) (h.server r hr)
  | finish r =>
    obtain ⟨⟨hr, -⟩, hs⟩ := Option.ite_none_right_eq_some.mp hs
    obtain ⟨m₁, hfin, hm⟩ := requestDoFinalize_cases hs
    have hf := Framed.finalized hfin
    have hrs := h.server r hr
    rcases hm with ⟨-, rfl⟩ | ⟨-, rfl⟩
    · obtain ⟨_, _, _, _, hs⟩ := hf.server s
      rw [hrs]
      have hserver : (m₁.setServer s { m₁.server s with connections := (m₁.server s).connections - 1 }).server s =
          { m₁.server s with connections := (m₁.server s).connections - 1 } := Function.update_self ..
      have hlen : (m₁.requests.erase r).length = m.requests.length - 1 := by
        rw [hf.requests, List.length_erase_of_mem hr]
      have hpos : 0 < m.requests.length := List.length_pos_of_mem hr
      refine ⟨fun x hx => ?_, ?_, ?_, ?_⟩
      · show (m₁.request x).server = s
        rw [hf.request]
        exact h.server x (hf.requests ▸ List.mem_of_mem_erase hx)
      · show ((m₁.setServer s _).server s).conf.connectionsLimit = limit
        rw [hserver, hs]
        exact h.conf
      · show ((m₁.setServer s _).server s).connections = ((m₁.requests.erase r).length : Nat)
        rw [hserver, hlen, hs]
        show (m.server s).connections - 1 = _
        rw [h.connections]
        omega
      · show (m₁.requests.erase r).length ≤ limit
        rw [hlen]
        exact (Nat.sub_le _ _).trans h.le
    · exact h.setRequest hf hrs
  | clear | reload | load | serverRoutine | deviceRoutine => exact hg.elim

end Serving

/-- No item has more readers than the other connections. -/
theorem Pinning.countable {rt : Runtime} {m m' : Master} {e : MasterEvent} (hp : Pinning m) (hl : m.requests.length ≤ 65535)
    (hs : masterStep rt m e = some m') : Countable m e := by
  intro r dispatch send he l a ha
  rw [he] at hs
  obtain ⟨⟨hr, -⟩, hs⟩ := Option.ite_none_right_eq_some.mp hs
  have hused := (hp.pins.pinned l a ha).used
  rw [holds_split hr, hp.handled hr hs, Holds.add_none] at hused
  have hle : m.holdsOf (m.requests.erase r) false a ≤ (m.requests.erase r).length := List.countP_le_length
  rw [List.length_erase_of_mem hr] at hle
  have hpos : 0 < m.requests.length := List.length_pos_of_mem hr
  omega

/-- Where nothing is in use, nothing is held. -/
theorem Quiet.pinning {m : Master} (h : Quiet m) (hk : Recent m) : Pinning m := by
  have hholds : m.holds = fun _ _ => 0 := by
    funext k a
    rw [holds, holdsOf, h.requests]
    rfl
  refine ⟨h.requests ▸ List.nodup_nil, fun r hr => ?_, fun r hr => ?_, fun k a hne => ?_, fun l a ha => ?_⟩
  · rw [h.requests] at hr
    cases hr
  · rw [h.requests] at hr
    cases hr
  · rw [hholds] at hne
    exact absurd rfl hne
  · obtain ⟨hu, hp⟩ := h.items a (hk.listed l a ha)
    have hpin := Item.Pinned.fresh hu
    rw [hp] at hpin
    rw [hholds]
    exact hpin

/-- **Below the width of the counter** it is right in every such run. -/
theorem usedOk_of_gets {rt : Runtime} {m₀ m : Master} {s limit : Nat} (h₀ : (masterSystem rt).Reachable m₀) (hq : Quiet m₀)
    (hs : s ∈ m₀.servers) (hlimit : (m₀.server s).conf.connectionsLimit = limit) (hl : limit ≤ 65535)
    (h : ((masterSystem rt).startAt m₀).Reach (Gets s) m) : UsedOk rt m := by
  suffices hinv : (masterSystem rt).Reachable m ∧ Pinning m ∧ Serving s limit m from
    hinv.2.1.usedOk (filed_run hinv.1)
  refine System.Reach.invariant (I := fun m => (masterSystem rt).Reachable m ∧ Pinning m ∧ Serving s limit m)
    (fun m hm => ?_) (fun m e m' _ hI hg hn => ?_) h
  · cases hm
    refine ⟨h₀, hq.pinning (recent_run h₀), fun r hr => ?_, hlimit, ?_, ?_⟩
    · rw [hq.requests] at hr
      cases hr
    · rw [hq.requests]
      exact hq.connections s hs
    · rw [hq.requests]
      exact Nat.zero_le _
  · obtain ⟨hr, hp, hs⟩ := hI
    exact ⟨hr.step hn, masterStep_pinning (recent_run hr) hp (hp.countable (hs.le.trans hl) hn.1) hn.1, hs.step hg hn.1⟩

/-! ## Above the width of the counter -/

/-- A hit, with a worker to send the item. -/
theorem serverRequestGetHandler_hit {rt : Runtime} {m m₁ : Master} {s a d : Nat} {id : HashId} {key buffer : List UInt8}
    {r : Request} (hkey : serverKey (m.server s).conf buffer r = some key)
    (hfound : m.lookup rt s key = (some ⟨id, .item a⟩, m₁)) (hdel : (m₁.space.item a).deleted = false)
    (hput : (m₁.space.item a).putting = false) (hvalid : m₁.serverItemValid a = some true)
    (hd : m₁.space.deviceOfItem a = some d) : m.serverRequestGetHandler rt s buffer r = some (some a, m₁.hitItem s a d id) := by
  unfold serverRequestGetHandler
  simp only [hkey, hfound, Option.bind_eq_bind, Option.bind_some]
  rw [if_neg (by simp [hdel, hput])]
  simp only [hvalid, hd, Option.bind_some, Bool.not_true, Bool.false_eq_true, if_false]
  rfl

theorem Conn.handle_hit {c : Conn} {o : Outcome} {v : ItemView} (hm : c.r.method = .get) (ho : o.lookup = some v)
    (hd : o.dispatch = true) : ∃ c', c.handle o .done = some c' ∧ c'.r.method = .get := by
  rw [Conn.handle, hm]
  unfold Conn.handleGet Conn.dispatch
  simp only [ho, hd, if_true]
  split <;> exact ⟨_, rfl, hm⟩

theorem handle_hit {rt : Runtime} {m m' : Master} {r a : Nat} (hphase : (m.request r).conn.phase = .parsed .done)
    (hmethod : (m.request r).conn.r.method = .get)
    (hget : m.serverRequestGetHandler rt (m.request r).server (m.request r).conn.buffer (m.request r).conn.r =
      some (some a, m')) : ∃ c, c.r.method = .get ∧
      m.handle rt r true true = some (m'.setRequest r ⟨c, (m.request r).server, some a⟩) := by
  have hphase' : (m.connOf r).phase = .parsed .done := hphase
  have hmethod' : (m.connOf r).r.method = .get := hmethod
  have hcall : m.callHandler rt (m.request r).server true true (m.connOf r) =
      some ({ m.outcome (m.request r).server true true with lookup := some (m'.itemView a) }, some a, m') := by
    unfold callHandler
    simp only [hmethod']
    exact (congrArg (Option.bind · _) hget).trans rfl
  obtain ⟨c, hc, hm⟩ := Conn.handle_hit (o := { m.outcome (m.request r).server true true with
    lookup := some (m'.itemView a) }) hmethod' rfl rfl
  refine ⟨c, hm, ?_⟩
  unfold handle
  simp only [hphase', hcall, hc, Option.bind_eq_bind, Option.bind_some]

theorem hitItem_item {m : Master} {s a d : Nat} {id : HashId} :
    (m.hitItem s a d id).space.item a = { m.space.item a with used := ((m.space.item a).used + 1) % 2 ^ 16 } :=
  Function.update_self ..

theorem connStep_recv {c : Conn} {env : ParseEnv} {n : Nat}
    (h : c.phase = .readHeader ∧ 0 < n ∧ n ≤ c.stream.length ∧ c.bufPos + n ≤ reqBufSize - 1) :
    connStep c (.recv env n) = some (c.recvHeader env n) :=
  if_pos h

/-- The GET of the run. -/
def page : List UInt8 := lit "GET /a HTTP/1.1\r\n\r\n"

/-- A connection that sends it, before and after the parse. -/
def visitor : Conn where
  r := requestReset 60 .blank
  buffer := List.replicate reqBufSize 0
  bufPos := 0
  item := none
  worker := false
  active := false
  broken := false
  diskError := false
  processSize := 0
  outputSize := 0
  inputSize := 0
  phase := .readHeader
  stream := page
  received := []
  kept := []
  total := page

def visited : Conn := visitor.recvHeader ⟨0, 0, fun _ => -1⟩ page.length

theorem visitor_recv : connStep visitor (.recv ⟨0, 0, fun _ => -1⟩ page.length) = some visited :=
  connStep_recv (by decide +kernel)

theorem visited_parsed : visited.phase = .parsed .done ∧ visited.r.method = .get ∧
    serverKey (.default 80) visited.buffer visited.r = some (lit "/a") := by
  decide +kernel

/-- Server 0 has item 1 for this GET. -/
structure Stocked (limit used : Nat) (m : Master) : Prop where
  now : m.now = 0
  servers : m.servers = [0]
  conf : (m.server 0).conf = { ServerConf.default 80 with connectionsLimit := limit }
  item : 1 ∈ m.space.items
  deleted : (m.space.item 1).deleted = false
  putting : (m.space.item 1).putting = false
  used : (m.space.item 1).used = used
  valid : m.serverItemValid 1 = some true
  hash : ∃ id, ∀ callocOk, hashGet Runtime.plain.md5 callocOk (m.hash 0) (lit "/a") = (some ⟨id, .item 1⟩, m.hash 0)

namespace Stocked

variable {m : Master} {limit used r : Nat}

theorem accept {old : Request} {buffer total : List UInt8} (h : Stocked limit used m) :
    Stocked limit used (m.accept 0 r old buffer total) := by
  have hserver : ∀ x, ((m.accept 0 r old buffer total).server x).conf = (m.server x).conf ∧
      ((m.accept 0 r old buffer total).server x).deleted = (m.server x).deleted ∧
      ((m.accept 0 r old buffer total).server x).clear = (m.server x).clear := by
    intro x
    show (Function.update m.server 0 _ x).conf = _ ∧ (Function.update m.server 0 _ x).deleted = _ ∧
      (Function.update m.server 0 _ x).clear = _
    by_cases hx : x = 0
    · rw [hx, Function.update_self]
      exact ⟨rfl, rfl, rfl⟩
    · rw [Function.update_of_ne hx]
      exact ⟨rfl, rfl, rfl⟩
  refine ⟨h.now, h.servers, (hserver 0).1.trans h.conf, h.item, h.deleted, h.putting, h.used, ?_, h.hash⟩
  rw [← h.valid]
  unfold serverItemValid
  simp only [hserver]
  rfl

theorem setRequest {q : Req} (h : Stocked limit used m) : Stocked limit used (m.setRequest r q) :=
  ⟨h.now, h.servers, h.conf, h.item, h.deleted, h.putting, h.used, h.valid, h.hash⟩

theorem device (h : Stocked limit used m) : ∃ d, m.space.deviceOfItem 1 = some d := by
  obtain ⟨d, hd, -⟩ := Option.bind_eq_some_iff.mp h.valid
  exact ⟨d, hd⟩

theorem lookup (h : Stocked limit used m) : ∃ id m', m.lookup .plain 0 (lit "/a") = (some ⟨id, .item 1⟩, m') ∧
    m'.requests = m.requests ∧ m'.request = m.request ∧ m'.server = m.server ∧ Stocked limit used m' := by
  obtain ⟨id, hhash⟩ := h.hash
  have hx := hhash (Runtime.plain.calloc m.calls)
  refine ⟨id, { m with hash := Function.update m.hash 0 (m.hash 0), calls := m.calls + 1 }, ?_, rfl, rfl, rfl, ?_⟩
  · unfold Master.lookup
    rw [hx]
  · rw [Function.update_eq_self]
    exact ⟨h.now, h.servers, h.conf, h.item, h.deleted, h.putting, h.used, h.valid, id, hhash⟩

theorem hitItem {d : Nat} {id : HashId} (h : Stocked limit used m) :
    Stocked limit ((used + 1) % 2 ^ 16) (m.hitItem 0 1 d id) := by
  have hitem : (m.hitItem 0 1 d id).space.item 1 = { m.space.item 1 with used := ((m.space.item 1).used + 1) % 2 ^ 16 } :=
    hitItem_item
  have hdevice : ∀ x, ((m.hitItem 0 1 d id).space.device x).deleted = (m.space.device x).deleted := by
    intro x
    show (Function.update m.space.device d _ x).deleted = _
    by_cases hx : x = d
    · rw [hx, Function.update_self]
    · rw [Function.update_of_ne hx]
  refine ⟨h.now, h.servers, h.conf, h.item, ?_, ?_, ?_, ?_, h.hash⟩
  · rw [hitem]
    exact h.deleted
  · rw [hitem]
    exact h.putting
  · rw [hitem, h.used]
  · rw [← h.valid]
    simp only [serverItemValid, Space.deviceOfItem, serverOfItem, hitem, hdevice]
    rfl

end Stocked

/-- The item is sent to connections `0` to `n - 1`. -/
structure Crowded (limit n : Nat) (m : Master) : Prop extends Stocked limit (n % 2 ^ 16) m where
  connections : (m.server 0).connections = n
  length : m.requests.length = n
  lt : ∀ r ∈ m.requests, r < n
  held : ∀ r ∈ m.requests, (m.request r).item = some 1 ∧ (m.request r).conn.r.method = .get

/-- One more connection. -/
theorem Crowded.visit {limit n : Nat} {m₀ m : Master} (h : Crowded limit n m) (hn : n < limit)
    (hm : ((masterSystem .plain).startAt m₀).Reach (Gets 0) m) :
    ∃ m', ((masterSystem .plain).startAt m₀).Reach (Gets 0) m' ∧ Crowded limit (n + 1) m' := by
  obtain ⟨hphase, hmethod, hkey⟩ := visited_parsed
  have hr : n ∉ m.requests := fun hr => lt_irrefl n (h.lt n hr)
  let m₁ := m.accept 0 n .blank (List.replicate reqBufSize 0) page
  let m₂ := m₁.setRequest n ⟨visited, 0, none⟩
  have hs₁ : Stocked limit (n % 2 ^ 16) m₁ := h.toStocked.accept
  have hs₂ : Stocked limit (n % 2 ^ 16) m₂ := hs₁.setRequest
  have hall : 0 ∈ m.servers := h.servers ▸ List.mem_singleton_self 0
  -- The connection is accepted.
  have hstep₁ : masterStep .plain m (.accept 0 n .blank (List.replicate reqBufSize 0) page) = some m₁ := by
    refine if_pos ⟨hall, hr, List.length_replicate, ?_⟩
    rw [h.connections, h.conf]
    exact_mod_cast hn
  have hreq₁ : m₁.request n = ⟨visitor, 0, none⟩ := by
    show Function.update m.request n _ n = _
    rw [Function.update_self, h.conf]
    rfl
  -- Its request is parsed.
  have hstep₂ : masterStep .plain m₁ (.conn n (.recv ⟨0, 0, fun _ => -1⟩ page.length)) = some m₂ := by
    have hconn : m₁.connOf n = visitor := by
      rw [connOf, hreq₁]
      rfl
    have hok : n ∈ m₁.requests ∧ m₁.ConnEventOk n (.recv ⟨0, 0, fun _ => -1⟩ page.length) := by
      refine ⟨List.mem_cons_self, ?_, ?_, ?_⟩
      · rw [hreq₁]
        exact List.mem_append_left _ hall
      · rw [hreq₁, hs₁.conf]
        rfl
      · exact hs₁.now.symm
    refine (if_pos hok).trans ?_
    rw [hconn, visitor_recv, hreq₁]
    rfl
  have hreq₂ : m₂.request n = ⟨visited, 0, none⟩ := Function.update_self ..
  -- It is a hit.
  obtain ⟨id, m₃, hfound, hrequests, hrequest, hserver, hs₃⟩ := hs₂.lookup
  obtain ⟨d, hd⟩ := hs₃.device
  have hget : m₂.serverRequestGetHandler .plain 0 visited.buffer visited.r = some (some 1, m₃.hitItem 0 1 d id) := by
    refine serverRequestGetHandler_hit ?_ hfound hs₃.deleted hs₃.putting hs₃.valid hd
    rw [hs₂.conf]
    exact hkey
  obtain ⟨c, hc, hhandle⟩ := handle_hit (m := m₂) (r := n) (by rw [hreq₂]; exact hphase) (by rw [hreq₂]; exact hmethod)
    (by rw [hreq₂]; exact hget)
  rw [hreq₂] at hhandle
  have hstep₃ : masterStep .plain m₂ (.handle n true true) = some ((m₃.hitItem 0 1 d id).setRequest n ⟨c, 0, some 1⟩) := by
    refine (if_pos ⟨List.mem_cons_self, ?_⟩).trans hhandle
    rw [hreq₂]
    exact List.mem_append_left _ hall
  have hmod : (n % 2 ^ 16 + 1) % 2 ^ 16 = (n + 1) % 2 ^ 16 := Nat.mod_add_mod ..
  have hs₄ : Stocked limit ((n + 1) % 2 ^ 16) ((m₃.hitItem 0 1 d id).setRequest n ⟨c, 0, some 1⟩) :=
    hmod ▸ hs₃.hitItem.setRequest
  have hgets₁ : Gets 0 m (.accept 0 n .blank (List.replicate reqBufSize 0) page) := rfl
  have hgets₂ : Gets 0 m₁ (.conn n (.recv ⟨0, 0, fun _ => -1⟩ page.length)) := trivial
  have hgets₃ : Gets 0 m₂ (.handle n true true) := by
    intro _
    rw [hreq₂]
    exact .inl hmethod
  have hrequests : m₃.requests = n :: m.requests := hrequests
  refine ⟨_, ((hm.step hgets₁ ⟨hstep₁, nofun⟩).step hgets₂ ⟨hstep₂, nofun⟩).step hgets₃ ⟨hstep₃, nofun⟩,
    hs₄, ?_, ?_, fun x hx => ?_, fun x hx => ?_⟩
  · show (m₃.server 0).connections = ((n + 1 : Nat) : Int)
    rw [hserver]
    show (Function.update m.server 0 { m.server 0 with connections := (m.server 0).connections + 1 } 0).connections = _
    rw [Function.update_self, h.connections]
    push_cast
    rfl
  · show m₃.requests.length = n + 1
    rw [hrequests, List.length_cons, h.length]
  · replace hx : x ∈ m₃.requests := hx
    rw [hrequests] at hx
    rcases List.mem_cons.mp hx with rfl | hx
    · exact Nat.lt_succ_self _
    · exact Nat.lt_succ_of_lt (h.lt x hx)
  · replace hx : x ∈ m₃.requests := hx
    rw [hrequests] at hx
    show (Function.update m₃.request n _ x).item = _ ∧ (Function.update m₃.request n _ x).conn.r.method = _
    by_cases hxn : x = n
    · rw [hxn, Function.update_self]
      exact ⟨rfl, hc⟩
    · have hx₂ : m₂.request x = m.request x := (Function.update_of_ne hxn ..).trans (Function.update_of_ne hxn ..)
      rw [Function.update_of_ne hxn, hrequest, hx₂]
      exact h.held x ((List.mem_cons.mp hx).resolve_left hxn)

/-- As many connections as the limit allows. -/
theorem Crowded.visits {limit n : Nat} {m₀ : Master} (h : Crowded limit 0 m₀) (hn : n ≤ limit) :
    ∃ m, ((masterSystem .plain).startAt m₀).Reach (Gets 0) m ∧ Crowded limit n m := by
  induction n with
  | zero => exact ⟨m₀, .init rfl, h⟩
  | succ n ih =>
    obtain ⟨m, hm, hc⟩ := ih (Nat.le_of_succ_le hn)
    exact hc.visit hn hm

theorem Crowded.readers {limit n : Nat} {m : Master} (h : Crowded limit n m) : m.readers 1 = m.requests := by
  refine List.filter_eq_self.mpr fun r hr => ?_
  obtain ⟨hitem, hmethod⟩ := h.held r hr
  exact decide_eq_true ⟨hitem, .inl hmethod⟩

/-- With one reader more than it can count, the counter is 0. -/
theorem Crowded.not_usedOk {rt : Runtime} {limit : Nat} {m : Master} (h : Crowded limit (2 ^ 16) m) : ¬UsedOk rt m := by
  intro hok
  have hcount := hok.count 1 h.item
  rw [h.used, h.readers, h.length] at hcount
  cases hcount

/-! ## A server with any limit -/

theorem serverLoadFmItem_enter {rt : Runtime} {m : Master} {s d a k : Nat} {x : FormatItem} {sp : Space}
    (ha : rt.al.get m.calls m.space.items = some a)
    (hk : (m.loadDraft s d a x).space.deviceCutFreeBlock rt.al a = some (k, sp)) (hne : k ≠ 0) :
    m.serverLoadFmItem rt s d x = some ({ m.loadDraft s d a x with space := sp }.enter rt s d a k x) := by
  unfold serverLoadFmItem
  simp only [ha]
  exact (congrArg (Option.bind · _) hk).trans (if_neg hne)

theorem formatLoadDevice_accepted {rt : Runtime} {m : Master} {d : Nat} {n : Int} {ports : Nat → Nat} {image : Nat → UInt8}
    (hinfo : formatInfo image = some (n, ports)) :
    m.formatLoadDevice rt plainIo d image = m.loadAccepted rt plainIo d image n ports := by
  rw [formatLoadDevice_eq, hinfo, if_neg (by decide)]
  rfl

/-- The dump of one item is loaded. -/
theorem formatLoadDevice_one {rt : Runtime} {m m' : Master} {s d : Nat} {x : FormatItem} {ports : Nat → Nat}
    {old image : Nat → UInt8} {sp : Space} (hs : Stored ports [x] old image)
    (hpass : ¬(x.offset < toI64 (ohcFmInfoSize + 1 * formatItemSize) ∨ x.expire ≤ m.now)) (hi : x.serverIndex = 0)
    (hp : ports 0 ≠ 0) (hport : m.serverByPort (ports 0) = some s) (hx : m.serverLoadFmItem rt s d x = some m')
    (hpost : m'.space.deviceLoadPost d = some sp) :
    ∃ image', m.formatLoadDevice rt plainIo d image = some (true, image', { m' with space := sp }) := by
  obtain ⟨p, hinfo, hpp⟩ := hs.info
  replace hinfo : formatInfo image = some (1, p) := by simpa using hinfo
  have hrec : FormatItem.ofBytes (imageRead image (ohcFmInfoSize + 0 * formatItemSize) formatItemSize) = x :=
    hs.record 0 Nat.zero_lt_one
  have hp0 : p 0 = ports 0 := hpp 0 (by decide)
  have hitems : m.loadItems rt plainIo d image (toI64 (ohcFmInfoSize + 1 * formatItemSize)) p (1 : Int).toNat 0 =
      some (true, m') := by
    rw [Int.toNat_one, loadItems, if_neg (by simp [plainIo])]
    simp only [hrec]
    rw [if_neg hpass, hi, Int.toNat_zero, hp0, if_neg (by simp [iptArraySize, hp]), hport]
    simp only [hx, Option.bind_eq_bind, Option.bind_some, loadItems]
  have hclear : plainIo.clear = true := rfl
  refine ⟨imageWrite 0 (lit "FeiLiWuShi") image, ?_⟩
  rw [formatLoadDevice_accepted hinfo, loadAccepted, hitems]
  simp only [hpost, Option.bind_eq_bind, Option.bind_some, Bool.not_true, Bool.false_eq_true, if_false, hclear, if_true]

/-- The program with the configuration alone. -/
def configured (limit : Nat) : Master :=
  (masterStep .plain (Process.boot 0).master (.reload .plain (.limited limit))).getD (Process.boot 0).master

set_option maxRecDepth 10000 in
theorem configured_step (limit : Nat) :
    masterStep .plain (Process.boot 0).master (.reload .plain (.limited limit)) = some (configured limit) := rfl

/-- The item of the dump, on the device. -/
theorem configured_cut : (((configured 0).loadDraft 0 1 1 (storedRecord 0)).space.deviceCutFreeBlock .unbounded 1).bind (fun x =>
    ((x.2.setItem 1 { x.2.item 1 with id := (2, 0) }).deviceLoadPost 1).map fun sp =>
      (x.1, sp.items, sp.item 1, sp.deviceOfItem 1, (sp.device 1).deleted)) =
    some (512, [1], ⟨(2, 0), 43, 259200, 1048064, false, false, false, 0, 0, 38, 0, 0⟩, some 1, false) := by
  decide +kernel

set_option maxRecDepth 10000 in
theorem configured_space (limit : Nat) : ((configured limit).loadDraft 0 1 1 (storedRecord 0)).space =
      ((configured 0).loadDraft 0 1 1 (storedRecord 0)).space := rfl

/-- Server 0 is configured, and there has been no request. -/
structure Configured (limit : Nat) (hash : Hash Entry) (m : Master) : Prop where
  now : m.now = 0
  servers : m.servers = [0]
  requests : m.requests = []
  indexs : m.serverIndexs.get 0 = some 0
  conf : (m.server 0).conf = { ServerConf.default 80 with connectionsLimit := limit }
  running : (m.server 0).deleted = false
  clear : (m.server 0).clear = 0
  connections : (m.server 0).connections = 0
  hash : m.hash 0 = hash

set_option maxRecDepth 10000 in
theorem configured_configured (limit : Nat) : Configured limit ⟨fun _ => [], 16, 0, none, 0⟩ (configured limit) :=
  ⟨rfl, rfl, rfl, rfl, rfl, rfl, rfl, rfl, rfl⟩

theorem enter_server {rt : Runtime} {m : Master} {s d a k : Nat} {x : FormatItem} : (m.enter rt s d a k x).server s =
    { m.server s with
      consumed := (m.server s).consumed + k
      content := (m.server s).content + x.length
      itemNr := (m.server s).itemNr + 1 } :=
  Function.update_self ..

theorem enter_hash {rt : Runtime} {m : Master} {s d a k : Nat} {x : FormatItem} :
    (m.enter rt s d a k x).hash s = hashAdd (rt.calloc m.calls) (m.hash s) ⟨x.hashId, .item a⟩ :=
  Function.update_self ..

theorem Configured.enter {limit a k d : Nat} {hash : Hash Entry} {m : Master} {x : FormatItem} (h : Configured limit hash m) :
    Configured limit (hashAdd true hash ⟨x.hashId, .item a⟩) (m.enter .plain 0 d a k x) := by
  refine ⟨h.now, h.servers, h.requests, h.indexs, ?_, ?_, ?_, ?_, ?_⟩
  · rw [enter_server]
    exact h.conf
  · rw [enter_server]
    exact h.running
  · rw [enter_server]
    exact h.clear
  · rw [enter_server]
    exact h.connections
  · rw [enter_hash, h.hash]
    rfl

/-- A table with few nodes and no chains to move stays as it is. -/
theorem hashExpansion_small {callocOk : Bool} {h : Hash Entry} (hp : h.prevBuckets = none)
    (hfew : ¬h.items.tdiv h.bucketSize ≥ hashCollisions) : hashExpansion callocOk h = h := by
  rw [hashExpansion, if_neg fun hgrow => hfew hgrow.1, hashSplit, hp]

/-- The only node of a new table is found, and the table stays. -/
theorem hashGet_hashAdd {md5 : List UInt8 → HashId} {callocOk : Bool} {n : HashNode Entry} {str : List UInt8} (hid : md5 str = n.id) :
    hashGet md5 callocOk (hashAdd true ⟨fun _ => [], 16, 0, none, 0⟩ n) str =
      (some n, hashAdd true ⟨fun _ => [], 16, 0, none, 0⟩ n) := by
  have hadd : hashAdd true ⟨fun _ => [], 16, 0, none, 0⟩ n = ⟨hlistAddHead (fun _ => []) (hashIndex 16 n.id) n, 16, 1, none, 0⟩ :=
    hashExpansion_small rfl (by simp [hashCollisions])
  have hsame : hashExpansion callocOk (⟨hlistAddHead (fun _ => []) (hashIndex 16 n.id) n, 16, 1, none, 0⟩ : Hash Entry) =
      ⟨hlistAddHead (fun _ => []) (hashIndex 16 n.id) n, 16, 1, none, 0⟩ :=
    hashExpansion_small rfl (by simp [hashCollisions])
  have hfound : hashSearch (hlistAddHead (fun _ => []) (hashIndex 16 n.id) n (hashIndex 16 n.id)) n.id = some n := by
    simp [hashSearch, hlistAddHead]
  rw [hadd, hashGet, hsame]
  simp only [hid, hfound]

/-- Item 1 is there. -/
theorem Configured.crowded {limit : Nat} {hash : Hash Entry} {m : Master} (h : Configured limit hash m)
    (hhash : ∀ callocOk, hashGet Runtime.plain.md5 callocOk hash (lit "/a") = (some ⟨(2, 0), .item 1⟩, hash))
    (hitems : m.space.items = [1])
    (hitem : m.space.item 1 = ⟨(2, 0), 43, 259200, 1048064, false, false, false, 0, 0, 38, 0, 0⟩)
    (hdevice : m.space.deviceOfItem 1 = some 1) (hdeleted : (m.space.device 1).deleted = false) :
    Quiet m ∧ Crowded limit 0 m := by
  have hserver : m.serverOfItem 1 = some 0 := by
    rw [serverOfItem, hitem]
    exact h.indexs
  refine ⟨⟨h.requests, fun s hs => ?_, fun a ha => ?_⟩, ⟨h.now, h.servers, h.conf, ?_, ?_, ?_, ?_, ?_, (2, 0), ?_⟩,
    h.connections, ?_, fun r hr => ?_, fun r hr => ?_⟩
  · rw [h.servers, List.mem_singleton] at hs
    rw [hs]
    exact h.connections
  · rw [hitems, List.mem_singleton] at ha
    rw [ha, hitem]
    exact ⟨rfl, rfl⟩
  · rw [hitems]
    exact List.mem_singleton_self 1
  · rw [hitem]
  · rw [hitem]
  · rw [hitem]
    rfl
  · simp only [serverItemValid, hdevice, hserver, Option.bind_eq_bind, Option.bind_some, hdeleted, h.running, h.clear, h.now, hitem]
    rfl
  · rw [h.hash]
    exact hhash
  · rw [h.requests]
    rfl
  · rw [h.requests] at hr
    cases hr
  · rw [h.requests] at hr
    cases hr

set_option maxRecDepth 10000 in
/-- Whatever the limit, a server can have an item to send. -/
theorem exists_crowded (limit : Nat) : ∃ m, (masterSystem .plain).Reachable m ∧ Quiet m ∧ Crowded limit 0 m := by
  have hconf : (masterSystem .plain).Reachable (configured limit) :=
    System.Reachable.step (.init ⟨0, rfl⟩) ⟨configured_step limit, nofun⟩
  have htyped : ∀ x ∈ [storedRecord 0], x.Typed := by
    intro x hx
    rw [List.mem_singleton.mp hx]
    constructor <;> simp only [storedRecord] <;> omega
  obtain ⟨image, hstored⟩ : ∃ image, Stored (fun _ => 80) [storedRecord 0] (fun _ => 0) image :=
    ⟨dumpImage (fun _ => 80) [0, 0, 0, 0] (fun _ => [0, 0, 0, 0]) [storedRecord 0] fun _ => 0,
      dumpImage_stored (fun _ => 0) rfl (fun _ => rfl) (fun _ => by decide) htyped (by simp)⟩
  have hc := configured_configured limit
  have hcut := configured_cut
  rw [← configured_space limit] at hcut
  have hbooting : (configured limit).Booting := ⟨rfl, fun _ hx => (List.not_mem_nil hx).elim⟩
  have hal : Runtime.plain.al.get (configured limit).calls (configured limit).space.items = some 1 := rfl
  have hdevices : 1 ∈ (configured limit).space.devices := List.mem_singleton.mpr rfl
  have hport : (configured limit).serverByPort 80 = some 0 := rfl
  generalize configured limit = m at *
  obtain ⟨⟨k, sp₁⟩, hk, hview⟩ := Option.bind_eq_some_iff.mp hcut
  obtain ⟨sp, hsp, hview⟩ := Option.map_eq_some_iff.mp hview
  simp only [Prod.mk.injEq] at hview
  obtain ⟨rfl, hitems, hitem, hdevice, hdeleted⟩ := hview
  have hpass : ¬((storedRecord 0).offset < toI64 (ohcFmInfoSize + 1 * formatItemSize) ∨ (storedRecord 0).expire ≤ m.now) := by
    rw [hc.now]
    decide
  obtain ⟨image', hload⟩ := formatLoadDevice_one hstored hpass rfl (by decide) hport (serverLoadFmItem_enter hal hk (by decide)) hsp
  have hstep : masterStep .plain m (.load 1 plainIo image) = some _ := (if_pos hdevices).trans (congrArg (Option.map _) hload)
  have hdraft : Configured limit ⟨fun _ => [], 16, 0, none, 0⟩ { m.loadDraft 0 1 1 (storedRecord 0) with space := sp₁ } :=
    ⟨hc.now, hc.servers, hc.requests, hc.indexs, hc.conf, hc.running, hc.clear, hc.connections, hc.hash⟩
  have hentered := hdraft.enter (a := 1) (k := 512) (d := 1) (x := storedRecord 0)
  refine ⟨_, hconf.step ⟨hstep, fun _ _ _ _ => hbooting⟩, Configured.crowded ⟨hentered.now, hentered.servers,
    hentered.requests, hentered.indexs, hentered.conf, hentered.running, hentered.clear, hentered.connections, hentered.hash⟩
    (fun _ => hashGet_hashAdd (by decide)) hitems hitem hdevice hdeleted⟩

/-! ## The counter -/

/-- **The counter of readers.** Whatever `connections_limit` is set to, the
counter is the number of the open requests that hold the item, in every run
of GETs on the server, just if the limit is not above 65535. -/
theorem used_counts_iff (limit : Nat) :
    (∀ rt m₀ s m, (masterSystem rt).Reachable m₀ → Quiet m₀ → s ∈ m₀.servers →
      (m₀.server s).conf.connectionsLimit = limit → ((masterSystem rt).startAt m₀).Reach (Gets s) m → UsedOk rt m) ↔
    limit ≤ 65535 := by
  constructor
  · intro hall
    by_contra hlt
    obtain ⟨m₀, h₀, hq, hc⟩ := exists_crowded limit
    obtain ⟨m, hm, hfull⟩ := hc.visits (n := 2 ^ 16) (Nat.lt_of_not_le hlt)
    exact hfull.not_usedOk (hall .plain m₀ 0 m h₀ hq (hc.servers ▸ List.mem_singleton_self 0) (by rw [hc.conf]) hm)
  · intro hle rt m₀ s m h₀ hq hs hl hm
    exact usedOk_of_gets h₀ hq hs hl hle hm

/-- `connections_limit 100000`, and 65536 connections ask for one item. -/
theorem used_wraps : intArg (lit "100000") = .ok 100000 ∧ ∃ m₀ m, (masterSystem .plain).Reachable m₀ ∧ Quiet m₀ ∧
    0 ∈ m₀.servers ∧ (m₀.server 0).conf.connectionsLimit = 100000 ∧ ((masterSystem .plain).startAt m₀).Reach (Gets 0) m ∧
    (m.space.item 1).used = 0 ∧ (m.readers 1).length = 65536 ∧ ¬UsedOk .plain m := by
  obtain ⟨m₀, h₀, hq, hc⟩ := exists_crowded 100000
  obtain ⟨m, hm, hfull⟩ := hc.visits (n := 2 ^ 16) (by decide)
  refine ⟨by decide +kernel, m₀, m, h₀, hq, hc.servers ▸ List.mem_singleton_self 0, by rw [hc.conf], hm, hfull.used, ?_,
    hfull.not_usedOk⟩
  rw [hfull.readers, hfull.length]
  rfl

end Master

end OliveHc
