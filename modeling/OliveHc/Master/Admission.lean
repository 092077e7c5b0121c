/-
What `server_request_put_handler` stores: the sizes and the expiry of an
item that is admitted.

The length of an item has 32 bits and its expiry is a signed 32-bit number,
while the request has 64 bits for both. Making room does not touch them, so
an admitted item has what the handler computed at the beginning.
-/
import OliveHc.Master.Steps
import OliveHc.Reload.Rollback

namespace OliveHc

namespace Master

variable {rt : Runtime} {s a : Nat} {m m' : Master}

/-- The search for a block keeps the length that it is for. -/
theorem tryAgain_length {fuel tries k : Nat} (h : m.tryAgain rt s a fuel tries = some (k, m')) :
    (m'.space.item a).length = (m.space.item a).length := by
  have hstep : ∀ {m₁ m₂ : Master}, (m₁.space.item a).length = (m.space.item a).length → Evicted m₁ m₂ →
      (m₂.space.item a).length = (m.space.item a).length := by
    intro m₁ m₂ h₁ he
    obtain ⟨x, hx, -⟩ := he.item a
    rw [hx, ← h₁]
  have hget : ∀ {m₁ : Master} {k s'}, (m₁.space.item a).length = (m.space.item a).length →
      m₁.space.deviceGetFreeBlock a = some (k, s') → (s'.item a).length = (m.space.item a).length := by
    intro m₁ k s' h₁ hg
    obtain ⟨o, i, hi⟩ := (Space.getFreeBlock_located hg).1.item
    rw [hi, Function.update_self, ← h₁]
  have hev : Evictions rt (fun _ => True) fun m₁ => (m₁.space.item a).length = (m.space.item a).length :=
    ⟨fun _ _ _ => trivial, fun h₁ _ hd => hstep h₁ (.serverItemDelete hd), fun h₁ => hstep h₁ .expirePassbys⟩
  rcases hev.tryAgain hget (fun h₁ he => hstep h₁ ((Evicted.steps rt _).deviceFreeBlockExtend (.refl _) he)) rfl h with
    ⟨-, h₁⟩ | ⟨-, m₁, s', h₁, hg, rfl⟩
  · exact h₁
  · exact hget h₁ hg

/-- What an admitted item has of its request. -/
theorem StoreCase.item {id : HashId} {length headersLen : Nat} {expire : Int}
    (h : StoreCase rt s id length headersLen expire m (.ok a) m') :
    (m'.space.item a).length = length ∧ (m'.space.item a).expire = expire := by
  cases h with
  | ok _ ht =>
    rw [admitted_item]
    refine ⟨(tryAgain_length ht).trans ?_, rfl⟩
    simp [draft, setItem, Space.setItem]

/-- A store that is admitted has passed the checks. -/
theorem serverRequestPutHandler_item {buffer : List UInt8} {r : Request}
    (h : m.serverRequestPutHandler rt s buffer r = some (.ok a, m')) :
    (m'.space.item a).length = (r.storeLength % (2 ^ 32 : Nat)).toNat ∧
      ∃ expire, putExpire (m.server s).conf m.now r = some expire ∧ (m'.space.item a).expire = expire.bmod (2 ^ 32) := by
  cases serverRequestPutHandler_cases h with
  | store _ hexp _ hstore => exact ⟨hstore.item.1, _, hexp, hstore.item.2⟩

end Master

/-! ## Sizes -/

/-- No size of the stored item has wrapped: its length is the number of bytes
to write, what the expiry of other items is asked for is twice that, and all
bytes written from its offset on are in its block. -/
structure PutSizes (r : Request) (x : Item) : Prop where
  length : (x.length : Int) = r.storeLength
  target : ((x.length * 2 % 2 ^ 32 : Nat) : Int) = 2 * r.storeLength
  inside : (x.offset : Int) + r.storeLength ≤ (x.offset + ipbucketBlockSize x.length : Nat)

/-- **The sizes of an admitted store.** Whatever the server's limits are, they
are right exactly for a store of less than 2^31 bytes. -/
theorem put_sizes_iff {rt : Runtime} {s a : Nat} {m m' : Master} {buffer : List UInt8} {r : Request}
    (h : m.serverRequestPutHandler rt s buffer r = some (.ok a, m')) :
    PutSizes r (m'.space.item a) ↔ 0 ≤ r.storeLength ∧ r.storeLength < 2 ^ 31 := by
  obtain ⟨hlen, -⟩ := Master.serverRequestPutHandler_item h
  constructor
  · intro hs
    have hlt : (m'.space.item a).length * 2 % 2 ^ 32 < 2 ^ 32 := Nat.mod_lt _ (by norm_num)
    have h₁ := hs.length
    have h₂ := hs.target
    omega
  · intro ⟨h0, hlt⟩
    have hl : ((m'.space.item a).length : Int) = r.storeLength := by
      rw [hlen]
      omega
    have hle : (m'.space.item a).length ≤ ipbucketBlockSize (m'.space.item a).length :=
      le_ipbucketBlockSize (by omega)
    refine ⟨hl, ?_, ?_⟩
    · omega
    · push_cast
      omega

/-- A server without limits for its items. -/
def Conf.unlimited : Conf := { Conf.small 1 with servers := [{ ServerConf.default 80 with itemMaxSize := 0 }] }

/-- The request of a new connection. -/
def Request.blank : Request :=
  requestReset 60 ⟨.invalid, 0, false, 0, 0, none, none, none, none, [], 0, 0, false, 0, none⟩

/-- A request that is received in one piece at a time `now`, by a server
without `expire_force`. -/
def receive (now : Int) (text : String) : ParseRc × Request :=
  httpRequestParse ⟨0, now, fun _ => -1⟩ (lit text ++ [0]) (lit text).length .blank

/-- A store of five bytes. -/
theorem put_sizes_five : ∃ m m' a, (masterSystem .plain).Reachable m ∧
    m.serverRequestPutHandler .plain 0 (lit "PUT /a HTTP/1.1\r\nContent-Length:5\r\n\r\n")
      (receive 0 "PUT /a HTTP/1.1\r\nContent-Length:5\r\n\r\n").2 = some (.ok a, m') ∧
    PutSizes (receive 0 "PUT /a HTTP/1.1\r\nContent-Length:5\r\n\r\n").2 (m'.space.item a) := by
  have hrun : (masterStep .plain (Process.boot 0).master (.reload .plain .unlimited)).bind (fun m =>
      (m.serverRequestPutHandler .plain 0 (lit "PUT /a HTTP/1.1\r\nContent-Length:5\r\n\r\n")
        (receive 0 "PUT /a HTTP/1.1\r\nContent-Length:5\r\n\r\n").2).map (·.1)) = some (.ok 1) := by decide +kernel
  obtain ⟨m, hm, hrun⟩ := Option.bind_eq_some_iff.mp hrun
  obtain ⟨⟨rc, m'⟩, hput, rfl⟩ := Option.map_eq_some_iff.mp hrun
  have r₀ : (masterSystem .plain).Reachable (Process.boot 0).master := .init ⟨0, rfl⟩
  exact ⟨m, m', 1, r₀.step (a := .reload .plain .unlimited) ⟨hm, nofun⟩, hput, (put_sizes_iff hput).mpr (by decide +kernel)⟩

/-- A store of 2^32 bytes to the same server gets a block for its head only. -/
theorem put_sizes_wrap : ∃ m m' a, (masterSystem .plain).Reachable m ∧
    m.serverRequestPutHandler .plain 0 (lit "PUT /a HTTP/1.1\r\nContent-Length:4294967296\r\n\r\n")
      (receive 0 "PUT /a HTTP/1.1\r\nContent-Length:4294967296\r\n\r\n").2 = some (.ok a, m') ∧
    (m'.space.item a).length = 47 ∧
    ¬PutSizes (receive 0 "PUT /a HTTP/1.1\r\nContent-Length:4294967296\r\n\r\n").2 (m'.space.item a) := by
  have hrun : (masterStep .plain (Process.boot 0).master (.reload .plain .unlimited)).bind (fun m =>
      (m.serverRequestPutHandler .plain 0 (lit "PUT /a HTTP/1.1\r\nContent-Length:4294967296\r\n\r\n")
        (receive 0 "PUT /a HTTP/1.1\r\nContent-Length:4294967296\r\n\r\n").2).map fun x =>
        (x.1, (x.2.space.item 1).length)) = some (.ok 1, 47) := by decide +kernel
  obtain ⟨m, hm, hrun⟩ := Option.bind_eq_some_iff.mp hrun
  obtain ⟨⟨rc, m'⟩, hput, hview⟩ := Option.map_eq_some_iff.mp hrun
  simp only [Prod.mk.injEq] at hview
  obtain ⟨rfl, hlen⟩ := hview
  have r₀ : (masterSystem .plain).Reachable (Process.boot 0).master := .init ⟨0, rfl⟩
  refine ⟨m, m', 1, r₀.step (a := .reload .plain .unlimited) ⟨hm, nofun⟩, hput, hlen, fun hs => ?_⟩
  have hl := hs.length
  rw [hlen] at hl
  revert hl
  decide +kernel

end OliveHc
