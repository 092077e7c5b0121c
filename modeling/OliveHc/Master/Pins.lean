/-
Who holds an item: `used` and `putting` against the open requests.

The functions of `server.c` are given the number of holds that the requests
have on each item, for stores and for others (`Holds`), and say what it is
afterwards. The count of `used` is right as long as it does not wrap: no
item has 65535 readers when a request is handled.
-/
import OliveHc.Master.Filing

namespace OliveHc

/-- The item says who holds it: one store, or others. -/
structure Item.Pinned (x : Item) (stores gets : Nat) : Prop where
  putting : stores = if x.putting then 1 else 0
  used : x.used = gets
  apart : x.putting = true → gets = 0
  word : x.used < 2 ^ 16

/-- A new item, held by the store that creates it, or by nobody. -/
theorem Item.Pinned.fresh {x : Item} (hu : x.used = 0) : x.Pinned (if x.putting then 1 else 0) 0 :=
  ⟨rfl, hu, fun _ => rfl, by rw [hu]; decide⟩

theorem Item.Pinned.congr {x y : Item} {stores gets : Nat} (h : x.Pinned stores gets) (hu : y.used = x.used)
    (hp : y.putting = x.putting) : y.Pinned stores gets :=
  ⟨by rw [hp]; exact h.putting, hu.trans h.used, by rw [hp]; exact h.apart, hu ▸ h.word⟩

/-- An item that nobody uses has no holds. -/
theorem Item.Pinned.free {x : Item} {stores gets : Nat} (h : x.Pinned stores gets) (hu : ¬(x.used ≠ 0 ∨ x.putting = true)) :
    stores = 0 ∧ gets = 0 := by
  obtain ⟨hused, hput⟩ := not_or.mp hu
  refine ⟨?_, h.used.symm.trans (not_not.mp hused)⟩
  rw [h.putting, if_neg hput]

/-- The number of holds on each item, of stores (`true`) and of others. -/
abbrev Holds := Bool → Nat → Nat

/-- One more hold, if there is an item. -/
def Holds.add (H : Holds) (store : Bool) (o : Option Nat) : Holds := fun b a =>
  H b a + if b = store ∧ o = some a then 1 else 0

@[simp] theorem Holds.add_none (H : Holds) (store : Bool) : H.add store none = H := by
  funext b a
  simp [add]

theorem Holds.add_self (H : Holds) (store : Bool) (a : Nat) : H.add store (some a) store a = H store a + 1 := by simp [add]

theorem Holds.add_kind (H : Holds) (store : Bool) (a : Nat) : H.add store (some a) (!store) a = H (!store) a := by
  simp [add]

theorem Holds.add_other (H : Holds) (store : Bool) {a b : Nat} (hb : b ≠ a) (k : Bool) : H.add store (some a) k b = H k b := by
  simp [add, Ne.symm hb]

/-- The handler has not been called: the request has no item. -/
def Phase.early : Phase → Bool
  | .readHeader | .parsed _ => true
  | _ => false

namespace Conn

variable {c c₁ c' : Conn} {o : Outcome} {send page write : Bool}

/-- The connection is past the handler, with the method it had. -/
def Late (c c' : Conn) : Prop := c'.phase.early = false ∧ c'.r.method = c.r.method

theorem Late.finalize (h : c₁.requestFinalize send = some c') (hm : c₁.r.method = c.r.method) : Late c c' := by
  unfold requestFinalize at h
  split at h
  · obtain ⟨bytes, -, rfl⟩ := Option.map_eq_some_iff.mp h
    split <;> exact ⟨rfl, hm⟩
  · cases h
    exact ⟨rfl, hm⟩

theorem Late.dispatch {phase : Phase} (h : c₁.dispatch o phase = some c') (hp : phase.early = false)
    (hm : c₁.r.method = c.r.method) : Late c c' := by
  unfold Conn.dispatch at h
  split at h
  · cases h
    exact ⟨hp, hm⟩
  · exact Late.finalize h hm

theorem Late.bodyLoop (h : c₁.bodyLoop send = some c') (hm : c₁.r.method = c.r.method) : Late c c' := by
  unfold Conn.bodyLoop at h
  split at h
  · cases h
    exact ⟨rfl, hm⟩
  · exact Late.finalize h hm

/-- `request_write_disk`, and on to the next bytes or to the end. -/
theorem Late.written {n : Nat} (h : (if (c₁.writeDisk write n).2 then (c₁.writeDisk write n).1.bodyLoop send
    else (c₁.writeDisk write n).1.requestFinalize send) = some c') (hm : c₁.r.method = c.r.method) : Late c c' := by
  have hm : (c₁.writeDisk write n).1.r.method = c.r.method := by
    unfold writeDisk
    split <;> exact hm
  split at h
  · exact Late.bodyLoop h hm
  · exact Late.finalize h hm

theorem handleGet_late (h : c.handleGet o = some c') : Late c c' := by
  unfold handleGet at h
  split at h
  · exact Late.finalize h rfl
  · simp only at h
    split at h
    · exact Late.dispatch h rfl rfl
    · exact Late.dispatch h rfl rfl

theorem handlePut_late (h : c.handlePut o = some c') : Late c c' := by
  unfold handlePut at h
  split at h
  · exact Late.finalize h rfl
  · simp only at h
    split at h
    · exact Late.finalize h rfl
    · exact Late.dispatch h rfl rfl
  · exact Late.dispatch h rfl rfl

theorem handleDelete_late (h : c.handleDelete o = some c') : Late c c' := by
  unfold handleDelete at h
  split at h <;> exact Late.finalize h rfl

/-- **The handlers** leave the method as it is. -/
theorem handle_late (h : c.handle o .done = some c') : Late c c' := by
  unfold Conn.handle at h
  simp only at h
  split at h
  · exact handleGet_late h
  · exact handleGet_late h
  · exact handlePut_late h
  · exact handlePut_late h
  · exact handleDelete_late h
  · exact handleDelete_late h
  · cases h

theorem header206_late {item : ItemView} (h : c.header206 send page item = some c') : Late c c' := by
  have hm : ∀ b, (resolveRange b c.r).method = c.r.method := by
    intro b
    unfold resolveRange
    split
    · rfl
    split
    · rfl
    split <;> rfl
  unfold header206 at h
  simp only at h
  split at h
  · exact Late.finalize h (hm _)
  split at h
  · cases h
    exact ⟨rfl, hm _⟩
  · exact Late.finalize h (hm _)

theorem writeResponse_late {res : Sendfile} {item : ItemView} (hp : c.phase.early = false)
    (h : c.writeResponse res page item = some c') : Late c c' := by
  have hsend : ∀ len, (c.sendFile res len).1.phase = c.phase ∧ (c.sendFile res len).1.r.method = c.r.method := by
    intro len
    unfold sendFile
    split <;> exact ⟨rfl, rfl⟩
  unfold writeResponse at h
  simp only at h
  split at h
  · cases h
    exact ⟨by rw [(hsend _).1]; exact hp, (hsend _).2⟩
  · exact Late.finalize h (hsend _).2
  · split at h
    · cases h
      exact ⟨rfl, (hsend _).2⟩
    · exact Late.finalize h (hsend _).2

end Conn

/-- The events after the head has been read. -/
theorem connStep_late {c c' : Conn} {e : ConnEvent} (hh : ∀ o, e ≠ .handle o) (hf : ∀ k, e ≠ .finish k)
    (h : connStep c e = some c') : c.phase = .readHeader ∨ Conn.Late c c' := by
  cases e with
  | recv env n => exact .inl (Option.ite_none_right_eq_some.mp h).1.1
  | recvFail reason => exact .inr (Conn.Late.finalize (Option.ite_none_right_eq_some.mp h).2 rfl)
  | handle o => exact absurd rfl (hh o)
  | preread write send => exact .inr (Conn.Late.written (Option.ite_none_right_eq_some.mp h).2 rfl)
  | recvBody n write send =>
    obtain ⟨-, h⟩ := Option.ite_none_right_eq_some.mp h
    unfold Conn.recvBody at h
    simp only at h
    split at h
    · exact .inr (Conn.Late.finalize h rfl)
    · exact .inr (Conn.Late.written h rfl)
  | header206 send page =>
    unfold connStep at h
    simp only at h
    split at h
    · exact .inr (Conn.header206_late h)
    · cases h
  | sendfile res page =>
    unfold connStep at h
    simp only at h
    split at h
    · obtain ⟨⟨hp, -⟩, h⟩ := Option.ite_none_right_eq_some.mp h
      refine .inr (Conn.writeResponse_late ?_ h)
      rcases hp with hp | hp | hp <;> rw [hp] <;> rfl
    · cases h
  | interrupt reason => exact .inr (Conn.Late.finalize (Option.ite_none_right_eq_some.mp h).2 rfl)
  | retry =>
    obtain ⟨⟨hp, -⟩, h⟩ := Option.ite_none_right_eq_some.mp h
    cases h
    exact .inr ⟨by rw [hp]; rfl, rfl⟩
  | finish k => exact absurd rfl (hf k)

namespace Master

open Recent (InUse)

/-- The items of the lists are held as they say, and no others are. -/
structure Pins (H : Holds) (m : Master) : Prop where
  held : ∀ k a, H k a ≠ 0 → ∃ l, a ∈ m.lru l
  pinned : ∀ l, ∀ a ∈ m.lru l, (m.space.item a).Pinned (H true a) (H false a)

namespace Pins

variable {rt : Runtime} {H : Holds} {m m' : Master} {s a : Nat}

/-- Nobody holds an item that is in no list. -/
theorem absent_eq (h : Pins H m) (ha : Absent a m) (k : Bool) : H k a = 0 := by
  by_contra hne
  obtain ⟨l, hl⟩ := h.held k a hne
  exact ha l hl

theorem frame (h : Pins H m) (hlru : m'.lru = m.lru) (hitem : ∀ l, ∀ a ∈ m.lru l,
      (m'.space.item a).used = (m.space.item a).used ∧ (m'.space.item a).putting = (m.space.item a).putting) :
    Pins H m' := by
  refine ⟨fun k a ha => hlru ▸ h.held k a ha, fun l a ha => ?_⟩
  rw [hlru] at ha
  exact (h.pinned l a ha).congr (hitem l a ha).1 (hitem l a ha).2

/-- Only what is not part of the invariant changes. -/
theorem same (h : Pins H m) (hlru : m'.lru = m.lru) (hitem : m'.space.item = m.space.item) : Pins H m' :=
  h.frame hlru fun _ _ _ => by rw [hitem]; exact ⟨rfl, rfl⟩

/-- **`server_item_delete`** frees only what nobody holds. -/
theorem serverItemDelete (h : Pins H m) (hr : Recent m) (hd : m.serverItemDelete rt a = some m') : Pins H m' := by
  have he := Evicted.serverItemDelete hd
  have hdel := hr.deleted hd
  have hitem : ∀ b, (m'.space.item b).used = (m.space.item b).used ∧ (m'.space.item b).putting = (m.space.item b).putting := by
    intro b
    obtain ⟨_, hb, -⟩ := he.item b
    rw [hb]
    exact ⟨rfl, rfl⟩
  by_cases hu : InUse a m
  · exact h.frame (hdel.used hu).2.1 fun _ b _ => hitem b
  · have hlru := (hdel.free hu).2
    refine ⟨fun k b hb => ?_, fun l b hb => ?_⟩
    · obtain ⟨l, hl⟩ := h.held k b hb
      refine ⟨l, ?_⟩
      rw [hlru, List.mem_filter]
      refine ⟨hl, ?_⟩
      by_contra hba
      have hba : b = a := by simpa using hba
      subst hba
      have hfree := (h.pinned l b hl).free hu
      cases k with
      | true => exact hb hfree.1
      | false => exact hb hfree.2
    · rw [hlru, List.mem_filter] at hb
      exact (h.pinned l b hb.1).congr (hitem b).1 (hitem b).2

theorem expirePassbys {l : List Nat} {count : Nat} (h : Pins H m) : Pins H (m.expirePassbys s count l) := by
  induction l generalizing m count with
  | nil => exact h
  | cons p l ih =>
    have hp : Pins H (m.serverPassbyItemDelete s p) := h.same rfl rfl
    unfold Master.expirePassbys
    simp only
    split
    · exact h
    · split
      · exact hp
      · exact ih hp

/-- With the invariant of the lists, which the deletions rely on. -/
def Kept (H : Holds) (m : Master) : Prop := Recent m ∧ Pins H m

theorem Kept.itemDelete (h : Kept H m) (hd : m.serverItemDelete rt a = some m') : Kept H m' :=
  ⟨h.1.serverItemDelete hd, h.2.serverItemDelete h.1 hd⟩

theorem Kept.space {sp : Space} (h : Kept H m) (hsp : ItemsSame m.space sp) : Kept H { m with space := sp } :=
  ⟨h.1.space hsp, h.2.same rfl hsp.item⟩

theorem evictions (rt : Runtime) (H : Holds) : Evictions rt (fun _ => True) (Kept H) :=
  ⟨fun _ _ _ => trivial, fun h _ hd => h.itemDelete hd, fun h => ⟨h.1.expirePassbys, h.2.expirePassbys⟩⟩

theorem steps (rt : Runtime) (H : Holds) : (Master.host rt).Steps (Kept H) :=
  ⟨fun h hs => h.space (.fblockDelete hs), fun h hd => h.itemDelete hd, fun h => h.space ⟨rfl, rfl⟩⟩

/-! ## The handlers -/

/-- A hit: one more reader, if the counter can count it. -/
theorem hitItem (h : Pins H m) {d : Nat} {id : HashId} {l : Option Nat} (ha : a ∈ m.lru l)
    (hput : (m.space.item a).putting = false) (hused : (m.space.item a).used < 65535) :
    Pins (H.add false (some a)) (m.hitItem s a d id) := by
  have hmem : ∀ {l b}, b ∈ (m.hitItem s a d id).lru l → b = a ∨ b ∈ m.lru l := fun hb =>
    (Filed.mem_lruAdd hb).imp And.left List.mem_of_mem_erase
  have hitem : ∀ b, b ≠ a → (m.hitItem s a d id).space.item b = m.space.item b := fun b hb => Function.update_of_ne hb ..
  have hself : (m.hitItem s a d id).space.item a =
      { m.space.item a with used := ((m.space.item a).used + 1) % 2 ^ 16 } := Function.update_self ..
  refine ⟨fun k b hb => ?_, fun l b hb => ?_⟩
  · show ∃ l, b ∈ Function.update (m.lruDel a).lru (m.serverLruHead s) (a :: (m.lruDel a).lru (m.serverLruHead s)) l
    by_cases hba : b = a
    · exact ⟨m.serverLruHead s, by rw [hba, Function.update_self]; exact List.mem_cons_self⟩
    · rw [Holds.add_other _ _ hba] at hb
      obtain ⟨l, hl⟩ := h.held k b hb
      exact ⟨l, Filed.mem_of_lruAdd ((List.mem_erase_of_ne hba).mpr hl)⟩
  · by_cases hba : b = a
    · subst hba
      have hpin := h.pinned _ b ha
      have hmod : ((m.space.item b).used + 1) % 2 ^ 16 = (m.space.item b).used + 1 := Nat.mod_eq_of_lt (by omega)
      rw [hself, hmod, Holds.add_self, show H.add false (some b) true b = H true b from H.add_kind false b]
      refine ⟨hpin.putting, congrArg (· + 1) hpin.used, fun hp => ?_, Nat.succ_lt_succ hused⟩
      exact absurd (hput.symm.trans hp) Bool.false_ne_true
    · rw [hitem b hba, Holds.add_other _ _ hba, Holds.add_other _ _ hba]
      exact h.pinned l b ((hmem hb).resolve_left hba)

theorem getCase (h : Kept H m) {n : Option (HashNode Entry)} {o : Option Nat}
    (hn : ∀ id a, n = some ⟨id, .item a⟩ → ∃ l, a ∈ m.lru l) (hused : ∀ l, ∀ a ∈ m.lru l, (m.space.item a).used < 65535)
    (hc : GetCase rt s n m o m') : Pins (H.add false o) m' := by
  cases hc with
  | miss | hidden =>
    rw [Holds.add_none]
    exact h.2
  | passby =>
    rw [Holds.add_none]
    exact h.2.same rfl rfl
  | stale _ hd =>
    rw [Holds.add_none]
    exact (h.itemDelete hd).2
  | hit _ hput =>
    obtain ⟨l, ha⟩ := hn _ _ rfl
    exact h.2.hitItem ha hput (hused l _ ha)

theorem deleteCase (h : Kept H m) {n : Option (HashNode Entry)} {found : Bool} (hc : DeleteCase rt s n m found m') :
    Pins H m' := by
  cases hc with
  | miss => exact h.2
  | passby => exact h.2.same rfl rfl
  | item hd => exact (h.itemDelete hd).2

theorem passbyStore (h : Pins H m) {id : HashId} {ok : Bool} (hp : m.serverPassbyStore rt s id = (ok, m')) : Pins H m' := by
  unfold serverPassbyStore at hp
  simp only at hp
  split at hp
  · cases hp
    exact h
  split at hp <;> cases hp <;> exact h.same rfl rfl

theorem freed (h : Kept H m) {id : HashId} {n : Option (HashNode Entry)} (hf : Freed rt s id n m m') : Kept H m' := by
  refine ⟨h.1.freed hf, ?_⟩
  cases hf with
  | absent hp => exact h.2.passbyStore hp
  | passby => exact h.2.same rfl rfl
  | item hd => exact (h.itemDelete hd).2

/-- Whatever happens to an item that is in no list. -/
theorem absent (h : Pins H m) (ha : Absent a m) (hlru : m'.lru = m.lru)
    (hitem : ∀ b, b ≠ a → m'.space.item b = m.space.item b) : Pins H m' := by
  refine h.frame hlru fun l b hb => ?_
  rw [hitem b fun he => ha l (he ▸ hb)]
  exact ⟨rfl, rfl⟩

/-- Item `a` is linked, with the hold of a store if it is one. -/
theorem insert (m' : Master) (h : Pins H m) (ha : Absent a m) {head : Option Nat} (hitem : ∀ b, b ≠ a → m'.space.item b = m.space.item b)
    (hused : (m'.space.item a).used = 0) (hlru : m'.lru = Function.update m.lru head (a :: m.lru head)) :
    Pins (H.add true (if (m'.space.item a).putting then some a else none)) m' := by
  have hzero := h.absent_eq ha
  -- The other items have the holds they had.
  have hother : ∀ k b, b ≠ a → H.add true (if (m'.space.item a).putting then some a else none) k b = H k b := by
    intro k b hb
    split
    · exact H.add_other _ hb k
    · rw [Holds.add_none]
  refine ⟨fun k b hb => ?_, fun l b hb => ?_⟩
  · rw [hlru]
    by_cases hba : b = a
    · exact ⟨head, by rw [hba, Function.update_self]; exact List.mem_cons_self⟩
    · rw [hother k b hba] at hb
      obtain ⟨l, hl⟩ := h.held k b hb
      exact ⟨l, Filed.mem_of_lruAdd hl⟩
  · by_cases hba : b = a
    · subst hba
      have hpin := Item.Pinned.fresh hused
      cases hput : (m'.space.item b).putting with
      | true =>
        rw [hput] at hpin
        rw [if_pos rfl, Holds.add_self, show H.add true (some b) false b = H false b from H.add_kind true b, hzero, hzero]
        exact hpin
      | false =>
        rw [hput] at hpin
        rw [if_neg Bool.false_ne_true, Holds.add_none, hzero, hzero]
        exact hpin
    · rw [hlru] at hb
      rw [hitem b hba, hother _ b hba, hother _ b hba]
      exact h.pinned l b ((Filed.mem_lruAdd hb).resolve_left fun hb => hba hb.1)

/-- In the search for a block of item `a` of server `s`. -/
def Searching (H : Holds) (s a : Nat) (m : Master) : Prop := Recent.Searching s a m ∧ Pins H m

theorem Searching.located {sp : Space} (h : Searching H s a m) (hsp : Located a m.space sp) :
    Searching H s a { m with space := sp } := by
  refine ⟨h.1.located hsp, h.2.absent h.1.2.1 rfl fun b hb => ?_⟩
  obtain ⟨_, _, hitem⟩ := hsp.item
  show sp.item b = _
  rw [hitem, Function.update_of_ne hb]

theorem Searching.kept (h : Searching H s a m) : Kept H m := ⟨h.1.1, h.2⟩

theorem Searching.evicted (h : Searching H s a m) (hk : Kept H m') (he : Evicted m m') : Searching H s a m' :=
  ⟨h.1.evicted hk.1 he, hk.2⟩

theorem Searching.tryAgain {m₁ : Master} {fuel tries k : Nat} (h : Searching H s a m)
    (ht : m.tryAgain rt s a fuel tries = some (k, m₁)) : Searching H s a m₁ := by
  have hev : Evictions rt (fun _ => True) (Searching H s a) :=
    ⟨fun _ _ _ => trivial, fun h _ hd => h.evicted (h.kept.itemDelete hd) (.serverItemDelete hd),
      fun h => h.evicted ⟨h.1.1.expirePassbys, h.2.expirePassbys⟩ .expirePassbys⟩
  rcases hev.tryAgain (fun h hg => h.located (Space.getFreeBlock_located hg).1)
    (fun h he => h.evicted ((steps rt H).deviceFreeBlockExtend h.kept he) ((Evicted.steps rt _).deviceFreeBlockExtend (.refl _) he))
    h ht with ⟨-, h₁⟩ | ⟨-, m₂, sp, h₂, hg, rfl⟩
  · exact h₁
  · exact h₂.located (Space.getFreeBlock_located hg).1

theorem draft (h : Kept H m) (hs : s < m.serverTotal) {t : Nat} (ha : rt.al.get t m.space.items = some a)
    (length headersLen : Nat) : Searching H s a (m.draft a length headersLen) :=
  ⟨h.1.draft hs ha length headersLen, h.2.absent (h.1.absent_of_get ha) rfl fun _ hb => Function.update_of_ne hb ..⟩

/-- The item that a store has, when it returns. -/
def PutRc.item : PutRc → Option Nat
  | .ok a => some a
  | _ => none

theorem storeCase (h : Kept H m) (hs : s < m.serverTotal) {id : HashId} {length headersLen : Nat} {expire : Int}
    {rc : PutRc} (hc : StoreCase rt s id length headersLen expire m rc m') : Pins (H.add true (PutRc.item rc)) m' := by
  cases hc with
  | noMem => exact (H.add_none true).symm ▸ h.2.same rfl rfl
  | noSpace ha ht => exact (H.add_none true).symm ▸ ((draft h hs ha ..).tryAgain ht).2.same rfl rfl
  | @ok a d k m₁ ha ht =>
    have h₁ := (draft h hs ha ..).tryAgain ht
    have hitem : (m₁.admitted rt s a d k id expire).space.item a = _ := admitted_item
    have hpins := h₁.2.insert (m₁.admitted rt s a d k id expire) h₁.1.2.1
      (fun b hb => Function.update_of_ne hb ..) (by rw [hitem]) rfl
    rw [hitem] at hpins
    exact hpins

theorem putCase (h : Kept H m) (hs : s < m.serverTotal) {buffer : List UInt8} {r : Request} {rc : PutRc}
    (hc : PutCase rt s buffer r m rc m') : Pins (H.add true (PutRc.item rc)) m' := by
  have hl : ∀ key, Kept H (m.lookup rt s key).2 := fun key => ⟨h.1.lookup s key, h.2.same rfl rfl⟩
  cases hc with
  | declined => exact (H.add_none true).symm ▸ h.2
  | passby _ _ hp => exact (H.add_none true).symm ▸ (hl _).2.passbyStore hp
  | exist => exact (H.add_none true).symm ▸ (hl _).2
  | store _ _ hf hst =>
    have htotal := Recent.freed_serverTotal hf
    exact storeCase (freed (hl _) hf) (htotal ▸ hs) hst

/-- **The handlers.** The item that a request has got counts for it. -/
theorem callCase (h : Kept H m) (hs : s ∈ m.allServers) (hused : ∀ l, ∀ a ∈ m.lru l, (m.space.item a).used < 65535)
    {buffer : List UInt8} {r : Request} {o : Outcome} {x : Option Nat} (hc : CallCase rt s buffer r m o x m') :
    Pins (H.add r.method.isStore x) m' := by
  cases hc with
  | get hm hg =>
    obtain ⟨key, -, hc⟩ := serverRequestGetHandler_cases hg
    have hst : r.method.isStore = false := by rcases hm with hm | hm <;> rw [hm] <;> rfl
    rw [hst]
    exact getCase ⟨h.1.lookup s key, h.2.same rfl rfl⟩ (fun id a hn => (h.1.lookup_visible hs hn).1) hused hc
  | store hm hp =>
    rw [hm]
    exact putCase h (h.1.table.total s hs) (serverRequestPutHandler_cases hp)
  | @refused _ rc _ _ hno hp =>
    rw [Holds.add_none]
    have hnone : PutRc.item rc = none := by
      cases rc with
      | ok a => exact absurd rfl (hno a)
      | decline | error => rfl
    have hpins := putCase h (h.1.table.total s hs) (serverRequestPutHandler_cases hp)
    rwa [hnone, Holds.add_none] at hpins
  | delete _ hd =>
    rw [Holds.add_none]
    obtain ⟨key, -, hc⟩ := serverRequestDeleteHandler_cases hd
    exact deleteCase ⟨(h.1.lookup s key).note fun _ => rfl, h.2.same rfl rfl⟩ hc

/-! ## The end of a request -/

/-- The hold of a request is given back. -/
theorem release {store : Bool} (h : Pins (H.add store (some a)) m) (d : Nat) (diskError : Bool) :
    Pins H (m.release a d diskError) := by
  have hitem : ∀ b, b ≠ a → (m.release a d diskError).space.item b = m.space.item b := fun b hb => Function.update_of_ne hb ..
  refine ⟨fun k b hb => h.held k b fun h0 => hb (Nat.eq_zero_of_add_eq_zero_right h0), fun l b hb => ?_⟩
  by_cases hba : b = a
  · subst hba
    have hpin := h.pinned l b hb
    show (Function.update m.space.item b (released (m.space.item b) diskError) b).Pinned _ _
    rw [Function.update_self]
    suffices hs : H true b = 0 ∧ (if (m.space.item b).putting then (m.space.item b).used else
        ((m.space.item b).used + 2 ^ 16 - 1) % 2 ^ 16) = H false b by
      refine ⟨?_, (released_used _ _).trans hs.2, fun hp => ?_, ?_⟩
      · rw [released_putting]
        exact hs.1
      · rw [released_putting] at hp
        cases hp
      · rw [released_used]
        split
        · exact hpin.word
        · exact Nat.mod_lt _ (by norm_num)
    have hw := hpin.word
    have hp := hpin.putting
    have hu := hpin.used
    have hx := hpin.apart
    cases store with
    | true =>
      -- The item was written: nobody else holds it.
      rw [Holds.add_self] at hp
      rw [show H.add true (some b) false b = H false b from H.add_kind true b] at hu hx
      split at hp
      · next hput =>
        rw [if_pos hput]
        exact ⟨by omega, hu⟩
      · cases hp
    | false =>
      rw [show H.add false (some b) true b = H true b from H.add_kind false b] at hp
      rw [Holds.add_self] at hu hx
      have hput : ¬(m.space.item b).putting = true := fun hput => absurd (hx hput) (Nat.succ_ne_zero _)
      rw [if_neg hput] at hp ⊢
      exact ⟨hp, by omega⟩
  · have hpin := h.pinned l b hb
    rw [Holds.add_other _ _ hba, Holds.add_other _ _ hba] at hpin
    rw [hitem b hba]
    exact hpin

theorem finalizeCase {store : Bool} (h : Kept (H.add store (some a)) m) {processSize : Nat} {diskError : Bool}
    (hc : FinalizeCase rt a processSize diskError m m') : Pins H m' := by
  cases hc with
  | delete _ _ _ hd => exact (h.2.release _ diskError).serverItemDelete (h.1.release a _ diskError) hd
  | finished => exact (h.2.release _ diskError).same rfl rfl
  | sent => exact h.2.release _ diskError

theorem loadCase (h : Kept H m) {d : Nat} {x : FormatItem} (hc : LoadCase rt s d x m m') : Pins H m' := by
  cases hc with
  | noMem => exact h.2.same rfl rfl
  | @noFit a sp ha hcut =>
    obtain ⟨hitem, -⟩ := Space.deviceCutFreeBlock_located hcut
    refine h.2.absent (h.1.absent_of_get ha) rfl fun b hb => ?_
    show sp.item b = _
    rw [hitem]
    exact Function.update_of_ne hb ..
  | @ok a k sp ha hcut hk =>
    obtain ⟨hitem, -⟩ := Space.deviceCutFreeBlock_located hcut
    have hself : (({ m.loadDraft s d a x with space := sp } : Master).enter rt s d a k x).space.item a =
        { (m.loadDraft s d a x).space.item a with id := x.hashId } := by
      rw [← hitem]
      exact Function.update_self ..
    have hdraft : ((m.loadDraft s d a x).space.item a).used = 0 ∧ ((m.loadDraft s d a x).space.item a).putting = false := by
      have he : (m.loadDraft s d a x).space.item a = _ := Function.update_self ..
      rw [he]
      exact ⟨rfl, rfl⟩
    have hpins := h.2.insert (({ m.loadDraft s d a x with space := sp } : Master).enter rt s d a k x)
      (h.1.absent_of_get ha) (fun b hb => ?_) (by rw [hself]; exact hdraft.1) rfl
    · rw [hself, if_neg (by simp [hdraft.2]), Holds.add_none] at hpins
      exact hpins
    · show Function.update sp.item a _ b = _
      rw [Function.update_of_ne hb, hitem]
      exact Function.update_of_ne hb ..

/-! ## Servers -/

theorem serverCreate {conf : ServerConf} (h : Kept H m) (hc : m.serverCreate conf = some m') : Pins H m' := by
  unfold Master.serverCreate at hc
  obtain ⟨⟨i, t⟩, -, hc⟩ := Option.bind_eq_some_iff.mp hc
  obtain ⟨hash, -, hc⟩ := Option.bind_eq_some_iff.mp hc
  cases hc
  refine h.2.same ?_ rfl
  show Function.update m.lru (some m.serverTotal) [] = m.lru
  rw [← h.1.unborn m.serverTotal (Nat.le_refl _), Function.update_eq_self]

theorem serverConfLoad {plan : List ServerPlan} (h : Kept H m) (hplan : ServerPlanOk m plan)
    (hl : m.serverConfLoad plan = some m') : Kept H m' :=
  serverConfLoad_rule (P := Kept H) (fun _ h => (List.nodup_append.mp h.1.table.nodup).1)
    (fun h hs => ⟨h.1.serverDelete hs, h.2.same rfl rfl⟩) (fun h hs => ⟨h.1.serverUpdate hs, h.2.same rfl rfl⟩)
    (fun h hc => ⟨h.1.serverCreate hc, serverCreate h hc⟩) hplan h hl

theorem frees (H : Holds) : Evictions.Frees (Kept H) where
  nodup h := Recent.frees.nodup h.1
  free h hs ht hi hp := ⟨Recent.frees.free h.1 hs ht hi hp, h.2.same rfl rfl⟩

end Pins

/-! ## The requests -/

/-- The holds of the requests in a list. -/
def holdsOf (l : List Nat) (m : Master) : Holds := fun k a =>
  l.countP fun r => decide ((m.request r).item = some a) && ((m.request r).conn.r.method.isStore == k)

/-- The holds of the open requests. -/
def holds (m : Master) : Holds := m.holdsOf m.requests

theorem holdsOf_cons (r : Nat) (l : List Nat) (m : Master) :
    m.holdsOf (r :: l) = (m.holdsOf l).add (m.request r).conn.r.method.isStore (m.request r).item := by
  funext k a
  simp only [holdsOf, Holds.add, List.countP_cons, Bool.and_eq_true, decide_eq_true_eq, beq_iff_eq]
  congr 1
  simp only [and_comm, eq_comm]

theorem holdsOf_congr {l : List Nat} {m m' : Master} (h : ∀ r ∈ l, m'.request r = m.request r) : m'.holdsOf l = m.holdsOf l := by
  funext k a
  exact List.countP_congr fun r hr => by rw [h r hr]

/-- The holds of a request, and of the others. -/
theorem holds_split {m : Master} {r : Nat} (hr : r ∈ m.requests) :
    m.holds = (m.holdsOf (m.requests.erase r)).add (m.request r).conn.r.method.isStore (m.request r).item := by
  rw [← holdsOf_cons]
  funext k a
  exact (List.perm_cons_erase hr).countP_eq _

/-- One request changes. -/
theorem holds_setRequest {m : Master} {r : Nat} {q : Req} (hn : m.requests.Nodup) (hr : r ∈ m.requests) :
    (m.setRequest r q).holds = (m.holdsOf (m.requests.erase r)).add q.conn.r.method.isStore q.item := by
  have hself : (m.setRequest r q).request r = q := Function.update_self ..
  rw [holds_split (m := m.setRequest r q) hr, hself, holdsOf_congr fun x hx => ?_]
  · rfl
  · have hne : x ≠ r := fun he => hn.not_mem_erase (he ▸ hx)
    exact Function.update_of_ne hne ..

/-- The requests and the holds they have. -/
structure Pinning (m : Master) : Prop where
  nodup : m.requests.Nodup
  early : ∀ r ∈ m.requests, (m.request r).conn.phase.early = true → (m.request r).item = none
  method : ∀ r ∈ m.requests, (m.request r).item ≠ none →
    (m.request r).conn.r.method.isStore = true ∨ (m.request r).conn.r.method = .get ∨ (m.request r).conn.r.method = .head
  pins : Pins m.holds m

namespace Pinning

variable {rt : Runtime} {m m' : Master} {r : Nat}

/-- The requests stay as they are. -/
theorem same (h : Pinning m) (hreq : m'.requests = m.requests) (hr : m'.request = m.request) (hp : Pins m.holds m') :
    Pinning m' := by
  refine ⟨hreq ▸ h.nodup, fun r hm => ?_, fun r hm => ?_, ?_⟩
  · rw [hr]
    exact h.early r (hreq ▸ hm)
  · rw [hr]
    exact h.method r (hreq ▸ hm)
  · rw [show m'.holds = m.holds from by rw [holds, hreq, holdsOf_congr fun _ _ => congrFun hr _]; rfl]
    exact hp

/-- One request changes, and its hold with it. -/
theorem setRequest {q : Req} (h : Pinning m) (hr : r ∈ m.requests) (hreq : m'.requests = m.requests)
    (hreq' : m'.request = m.request) (hearly : q.conn.phase.early = true → q.item = none)
    (hmethod : q.item ≠ none → q.conn.r.method.isStore = true ∨ q.conn.r.method = .get ∨ q.conn.r.method = .head)
    (hp : Pins ((m.holdsOf (m.requests.erase r)).add q.conn.r.method.isStore q.item) m') : Pinning (m'.setRequest r q) := by
  have hcases : ∀ x, (x = r ∧ (m'.setRequest r q).request x = q) ∨ (m'.setRequest r q).request x = m.request x := by
    intro x
    by_cases hx : x = r
    · subst hx
      exact .inl ⟨rfl, Function.update_self ..⟩
    · refine .inr ?_
      rw [← hreq']
      exact Function.update_of_ne hx ..
  refine ⟨hreq ▸ h.nodup, fun x hx => ?_, fun x hx => ?_, ?_⟩
  · rcases hcases x with ⟨-, he⟩ | he
    · rw [he]
      exact hearly
    · rw [he]
      exact h.early x (hreq ▸ hx)
  · rcases hcases x with ⟨-, he⟩ | he
    · rw [he]
      exact hmethod
    · rw [he]
      exact h.method x (hreq ▸ hx)
  · rw [holds_setRequest (hreq ▸ h.nodup) (hreq ▸ hr), holdsOf_congr fun _ _ => congrFun hreq' _, hreq]
    exact hp.same rfl rfl

/-- `request_process_entry`: a request without an item. -/
theorem accept {s : Nat} {old : Request} {buffer total : List UInt8} (h : Pinning m) (hr : r ∉ m.requests) :
    Pinning (m.accept s r old buffer total) := by
  have hself : ((m.accept s r old buffer total).request r).item = none := by
    show (Function.update m.request r _ r).item = none
    rw [Function.update_self]
  have hother : ∀ x ∈ m.requests, (m.accept s r old buffer total).request x = m.request x := by
    intro x hx
    have hne : x ≠ r := fun he => hr (he ▸ hx)
    exact Function.update_of_ne hne ..
  refine ⟨List.nodup_cons.mpr ⟨hr, h.nodup⟩, fun x hx => ?_, fun x hx => ?_, ?_⟩
  · rcases List.mem_cons.mp hx with rfl | hx
    · exact fun _ => hself
    · rw [hother x hx]
      exact h.early x hx
  · rcases List.mem_cons.mp hx with rfl | hx
    · exact fun hne => absurd hself hne
    · rw [hother x hx]
      exact h.method x hx
  · have hholds : (m.accept s r old buffer total).holds = m.holds := by
      show (m.accept s r old buffer total).holdsOf (r :: m.requests) = _
      rw [holdsOf_cons, hself, Holds.add_none, holdsOf_congr hother]
      rfl
    rw [hholds]
    exact h.pins.same rfl rfl

/-- An event of a connection. -/
theorem conn {e : ConnEvent} {c : Conn} (h : Pinning m) (hr : r ∈ m.requests) (hok : m.ConnEventOk r e)
    (hc : connStep (m.connOf r) e = some c) : Pinning (m.setRequest r { m.request r with conn := c }) := by
  have hearly := h.early r hr
  have hlate := connStep_late (c := m.connOf r) (fun o he => by rw [he] at hok; exact hok) (fun k he => by rw [he] at hok; exact hok) hc
  have hpins := h.pins
  rw [holds_split hr] at hpins
  rcases hlate with hphase | ⟨hphase, hmethod⟩
  · have hnone := hearly (by rw [show (m.request r).conn.phase = .readHeader from hphase]; rfl)
    rw [hnone, Holds.add_none] at hpins
    refine h.setRequest hr rfl rfl (fun _ => hnone) (fun hne => absurd hnone hne) ?_
    rw [show ({ m.request r with conn := c } : Req).item = none from hnone, Holds.add_none]
    exact hpins
  · have hmethod : c.r.method = (m.request r).conn.r.method := hmethod
    refine h.setRequest hr rfl rfl (fun hl => ?_) (fun hne => ?_) ?_
    · exact absurd (hphase.symm.trans hl) Bool.false_ne_true
    · show c.r.method.isStore = true ∨ c.r.method = .get ∨ c.r.method = .head
      rw [hmethod]
      exact h.method r hr hne
    · show Pins (Holds.add _ c.r.method.isStore (m.request r).item) m
      rw [hmethod]
      exact hpins

/-- The request that is handled holds nothing yet. -/
theorem handled {dispatch send : Bool} (h : Pinning m) (hr : r ∈ m.requests) (hh : m.handle rt r dispatch send = some m') :
    (m.request r).item = none := by
  rcases handle_cases hh with ⟨_, _, _, _, hphase, -⟩ | ⟨_, _, _, -, hphase, -⟩ <;>
  · refine h.early r hr ?_
    rw [hphase]
    rfl

/-- The rest of `request_read_request_header`. -/
theorem handle {dispatch send : Bool} (h : Pinning m) (hrec : Recent m) (hr : r ∈ m.requests)
    (hs : (m.request r).server ∈ m.allServers) (hused : ∀ l, ∀ a ∈ m.lru l, (m.space.item a).used < 65535)
    (hh : m.handle rt r dispatch send = some m') : Pinning m' := by
  have hpins := h.pins
  rw [holds_split hr, h.handled hr hh, Holds.add_none] at hpins
  rcases handle_cases hh with ⟨o, x, m₁, c, -, hc, hconn, rfl⟩ | ⟨o, rc, c, -, -, -, rfl⟩
  · obtain ⟨hphase, hmethod⟩ := Conn.handle_late hconn
    have hun := Framed.callCase hc
    refine h.setRequest hr hun.requests hun.request (fun he => ?_) (fun hne => ?_) ?_
    · exact absurd (hphase.symm.trans he) Bool.false_ne_true
    · show c.r.method.isStore = true ∨ c.r.method = .get ∨ c.r.method = .head
      rw [hmethod]
      exact hc.method hne
    · show Pins (Holds.add _ c.r.method.isStore x) m₁
      rw [hmethod]
      exact Pins.callCase ⟨hrec, hpins⟩ hs hused hc
  · refine h.setRequest hr rfl rfl (fun _ => rfl) (fun hne => absurd rfl hne) ?_
    rw [Holds.add_none]
    exact hpins

/-- `request_do_finalize`. -/
theorem finish (h : Pinning m) (hrec : Recent m) (hr : r ∈ m.requests) (hf : m.requestDoFinalize rt r = some m') :
    Pinning m' := by
  obtain ⟨m₁, hfin, hm⟩ := requestDoFinalize_cases hf
  have hun := Framed.finalized hfin
  have hpins : Pins (m.holdsOf (m.requests.erase r)) m₁ := by
    have hp := h.pins
    rw [holds_split hr] at hp
    unfold Finalized at hfin
    split at hfin
    · next hnone =>
      rw [hnone, Holds.add_none] at hp
      rw [hfin]
      exact hp
    · next hsome =>
      rw [hsome] at hp
      exact Pins.finalizeCase ⟨hrec, hp⟩ hfin
  rcases hm with ⟨-, rfl⟩ | ⟨-, rfl⟩
  · have hsub : ∀ x ∈ m₁.requests.erase r, x ∈ m.requests := fun x hx => List.mem_of_mem_erase (hun.requests ▸ hx)
    refine ⟨(hun.requests ▸ h.nodup).erase r, fun x hx => ?_, fun x hx => ?_, ?_⟩
    · show (m₁.request x).conn.phase.early = true → (m₁.request x).item = none
      rw [hun.request]
      exact h.early x (hsub x hx)
    · show (m₁.request x).item ≠ none → (m₁.request x).conn.r.method.isStore = true ∨ (m₁.request x).conn.r.method = .get ∨
        (m₁.request x).conn.r.method = .head
      rw [hun.request]
      exact h.method x (hsub x hx)
    · refine Pins.same (m := m₁) ?_ rfl rfl
      show Pins (m₁.holdsOf (m₁.requests.erase r)) m₁
      rw [hun.requests, holdsOf_congr fun _ _ => congrFun hun.request _]
      exact hpins
  · refine h.setRequest hr hun.requests hun.request (fun _ => rfl) (fun hne => absurd rfl hne) ?_
    rw [Holds.add_none]
    exact hpins

end Pinning

/-- Whoever the servers are, the requests stay. -/
def SameRequests (m m' : Master) : Prop := Recent m' ∧ m'.requests = m.requests ∧ m'.request = m.request

theorem confLoad_requests {m m' : Master} {al : Allocator} {conf : Conf} {devices : List DevicePlan} {servers : List ServerPlan}
    (hrec : Recent m) (hplan : ServerPlanOk m servers) (h : m.confLoad al conf devices servers = some m') :
    SameRequests m m' := by
  unfold confLoad at h
  obtain ⟨sp, hsp, h⟩ := Option.bind_eq_some_iff.mp h
  have hsame : SameRequests m { m with space := sp } := ⟨hrec.space (.deviceConfLoad hsp), rfl, rfl⟩
  have hplan : ServerPlanOk { m with space := sp } servers := ⟨hplan.ports, hplan.existing, hplan.count⟩
  refine serverConfLoad_rule (P := SameRequests m) (fun _ h => (List.nodup_append.mp h.1.table.nodup).1)
    (fun h hs => ⟨h.1.serverDelete hs, h.2⟩) (fun h hs => ⟨h.1.serverUpdate hs, h.2⟩) (fun h hc => ⟨h.1.serverCreate hc, ?_⟩)
    hplan hsame h
  unfold serverCreate at hc
  obtain ⟨_, -, hc⟩ := Option.bind_eq_some_iff.mp hc
  obtain ⟨_, -, hc⟩ := Option.bind_eq_some_iff.mp hc
  cases hc
  exact h.2

theorem serverRoutine_requests {rt : Runtime} {m m' : Master} (hrec : Recent m) (h : m.serverRoutine rt = some m') :
    SameRequests m m' := by
  have hev : Evictions rt (fun _ => True) (SameRequests m) := by
    refine ⟨fun _ _ _ => trivial, fun h _ hd => ⟨h.1.serverItemDelete hd, ?_⟩, fun {m₁ s count} h => ⟨h.1.expirePassbys, ?_⟩⟩
    · have he := Evicted.serverItemDelete hd
      exact ⟨he.requests.trans h.2.1, he.request.trans h.2.2⟩
    · have he : Evicted m₁ (m₁.expirePassbys s count (m₁.passbyLru s).reverse) := Evicted.expirePassbys
      exact ⟨he.requests.trans h.2.1, he.request.trans h.2.2⟩
  exact hev.serverRoutine ⟨fun h => Recent.frees.nodup h.1, fun h hs ht hi hp => ⟨Recent.frees.free h.1 hs ht hi hp, h.2⟩⟩
    ⟨hrec, rfl, rfl⟩ h

/-- No item has as many readers as the counter can count, when a request is
handled. -/
def Countable (m : Master) (e : MasterEvent) : Prop :=
  ∀ r dispatch send, e = .handle r dispatch send → ∀ l, ∀ a ∈ m.lru l, (m.space.item a).used < 65535

/-- **One step** of the master. -/
theorem masterStep_pinning {rt : Runtime} {m m' : Master} {e : MasterEvent} (hrec : Recent m) (hp : Pinning m)
    (hok : Countable m e) (h : masterStep rt m e = some m') : Pinning m' := by
  cases e with
  | tick now =>
    obtain ⟨-, h⟩ := Option.ite_none_right_eq_some.mp h
    cases h
    exact hp.same rfl rfl (hp.pins.same rfl rfl)
  | accept s r old buffer total =>
    obtain ⟨⟨-, hr, -⟩, h⟩ := Option.ite_none_right_eq_some.mp h
    cases h
    exact hp.accept hr
  | conn r e =>
    obtain ⟨⟨hr, hev⟩, h⟩ := Option.ite_none_right_eq_some.mp h
    obtain ⟨c, hc, rfl⟩ := Option.map_eq_some_iff.mp h
    exact hp.conn hr hev hc
  | handle r dispatch send =>
    obtain ⟨⟨hr, hs⟩, h⟩ := Option.ite_none_right_eq_some.mp h
    exact hp.handle hrec hr hs (hok r dispatch send rfl) h
  | finish r =>
    obtain ⟨⟨hr, -⟩, h⟩ := Option.ite_none_right_eq_some.mp h
    exact hp.finish hrec hr h
  | clear port =>
    obtain ⟨s, -, rfl⟩ := Option.map_eq_some_iff.mp h
    exact hp.same rfl rfl (hp.pins.same rfl rfl)
  | reload env conf =>
    unfold masterStep at h
    simp only at h
    split at h
    · next devices servers _ hplan =>
      have hplan := (serverConfCheck_ok hplan).1
      obtain ⟨-, hreqs, hreq⟩ := confLoad_requests hrec hplan h
      unfold confLoad at h
      obtain ⟨sp, hsp, h⟩ := Option.bind_eq_some_iff.mp h
      have hk : Pins.Kept m.holds { m with space := sp } := Pins.Kept.space ⟨hrec, hp.pins⟩ (.deviceConfLoad hsp)
      exact hp.same hreqs hreq (Pins.serverConfLoad hk ⟨hplan.ports, hplan.existing, hplan.count⟩ h).2
    · cases h
  | load d io image =>
    obtain ⟨-, h⟩ := Option.ite_none_right_eq_some.mp h
    obtain ⟨⟨ok, image', m₁⟩, h₁, rfl⟩ := Option.map_eq_some_iff.mp h
    obtain ⟨hun, hpins⟩ := formatLoadDevice_rule (P := fun m₁ => Framed m m₁ ∧ Pins.Kept m.holds m₁)
      (fun hP hs hx => by
        have hc := serverLoadFmItem_cases hx
        exact ⟨hP.1.trans (.loadCase hc), hP.2.1.loadCase (hP.2.1.table.total _ (List.mem_append_left _ hs)) hc,
          Pins.loadCase hP.2 hc⟩)
      (fun hP hpost => ⟨hP.1.trans (.rest rfl rfl rfl rfl rfl rfl rfl rfl), hP.2.space (.loadPost hpost)⟩)
      ⟨.refl m, hrec, hp.pins⟩ h₁
    exact hp.same hun.requests hun.request hpins.2
  | serverRoutine =>
    obtain ⟨-, hreqs, hreq⟩ := serverRoutine_requests hrec h
    exact hp.same hreqs hreq ((Pins.evictions rt m.holds).serverRoutine (Pins.frees m.holds) ⟨hrec, hp.pins⟩ h).2
  | deviceRoutine =>
    have he := (Evicted.steps rt m).deviceRoutine (.refl m) h
    exact hp.same he.requests he.request ((Pins.steps rt m.holds).deviceRoutine ⟨hrec, hp.pins⟩ h).2

end Master

end OliveHc
