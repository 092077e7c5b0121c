/-
The devices against the open requests, in every run.

The items that the open requests hold (`Master.held`) are those of `Pins`,
so none of them is given back; then the devices are as `Moor` says, and the
items stay what they are and where they are (`Fixed`). What a request holds
it gets from `server_request_get_handler` or from a store, both on an active
device, and gives back in `server_request_finalize`.
-/
import OliveHc.Master.Counter
import OliveHc.Master.Lives
import OliveHc.Master.Moor

namespace OliveHc

namespace Master

variable {rt : Runtime} {H : Holds} {hs : List Nat} {m₀ m m' : Master} {s a : Nat}

/-- The items `hs` are among those that are held. -/
def Tied (H : Holds) (hs : List Nat) : Prop := ∀ a ∈ hs, ∃ k, H k a ≠ 0

/-- The items `hs` have the numbers that they had, in the lists that they were in. -/
structure Fixed (hs : List Nat) (m₀ m : Master) : Prop where
  stay : Stay hs m₀.space m.space
  number : ∀ a ∈ hs, m.number a = m₀.number a

namespace Fixed

variable {m'' : Master}

theorem refl (hs : List Nat) (m : Master) : Fixed hs m m := ⟨.of_eq rfl, fun _ _ => rfl⟩

theorem trans (h : Fixed hs m m') (h' : Fixed hs m' m'') : Fixed hs m m'' :=
  ⟨h.stay.trans h'.stay, fun a ha => (h'.number a ha).trans (h.number a ha)⟩

theorem same (hstay : Stay hs m.space m'.space) (hn : m'.number = m.number) : Fixed hs m m' := ⟨hstay, fun a _ => congrFun hn a⟩

end Fixed

/-- The holds on the items, the devices, and what has happened to the items
since `m₀`. -/
structure Moored (H : Holds) (hs : List Nat) (m₀ m : Master) : Prop where
  kept : Pins.Kept H m
  moor : Moor hs m.space
  fixed : Fixed hs m₀ m

namespace Moored

/-! ## Deleting items -/

/-- Nobody holds an item that is freed. -/
theorem not_mem (h : Pins H m) (ht : Tied H hs) (hu : ¬((m.space.item a).used ≠ 0 ∨ (m.space.item a).putting = true)) : a ∉ hs := by
  intro ha
  obtain ⟨k, hk⟩ := ht a ha
  obtain ⟨l, hl⟩ := h.held k a hk
  have hfree := (h.pinned l a hl).free hu
  cases k with
  | true => exact hk hfree.1
  | false => exact hk hfree.2

/-- **`server_item_delete`.** -/
theorem itemDelete (h : Moored H hs m₀ m) (ht : Tied H hs) (hd : m.serverItemDelete rt a = some m') : Moored H hs m₀ m' := by
  have he := Evicted.serverItemDelete hd
  have hkept := h.kept.itemDelete hd
  cases serverItemDelete_cases hd with
  | @marked s ha hs hu =>
    have hsp : ((m.unhash s a).setItem a { m.space.item a with deleted := true }).space =
        m.space.setItem a { m.space.item a with deleted := true } := by rw [unhash_eq]; rfl
    refine ⟨hkept, ?_, h.fixed.trans (.same (.of_eq (by rw [hsp]; rfl)) he.number)⟩
    rw [hsp]
    exact h.moor.setItem fun _ => ⟨rfl, rfl, rfl⟩
  | freed ha _ hu hr =>
    have hno := not_mem h.kept.2 ht hu
    exact ⟨hkept, h.moor.giveBack ha hno hr, h.fixed.trans (.same (.giveBack h.moor.links ha hno h.moor.held hr) he.number)⟩

theorem passbys {count : Nat} {l : List Nat} (h : Moored H hs m₀ m) : Moored H hs m₀ (m.expirePassbys s count l) := by
  have hsp : (m.expirePassbys s count l).space = m.space := expirePassbys_space
  exact ⟨⟨h.kept.1.expirePassbys, h.kept.2.expirePassbys⟩, by rw [hsp]; exact h.moor,
    h.fixed.trans (.same (.of_eq (by rw [hsp])) Evicted.expirePassbys.number)⟩

theorem evictions (rt : Runtime) (m₀ : Master) (ht : Tied H hs) : Evictions rt (fun _ => True) (Moored H hs m₀) :=
  ⟨fun _ _ _ => trivial, fun h _ hd => h.itemDelete ht hd, fun h => h.passbys⟩

/-- Nothing of it changes. -/
theorem same (h : Moored H hs m₀ m) (hk : Pins.Kept H m') (hsp : m'.space = m.space) (hnumber : m'.number = m.number) :
    Moored H hs m₀ m' := by
  exact ⟨hk, by rw [hsp]; exact h.moor, h.fixed.trans (.same (.of_eq (by rw [hsp])) hnumber)⟩

theorem frees (H : Holds) (hs : List Nat) (m₀ : Master) : Evictions.Frees (Moored H hs m₀) where
  nodup h := (Pins.frees H).nodup h.kept
  free h hs ht hi hp := h.same ((Pins.frees H).free h.kept hs ht hi hp) rfl rfl

/-- The loops of `device.c`, with the master around them. -/
theorem keeps (rt : Runtime) (m₀ : Master) (ht : Tied H hs) : (Master.host rt).Keeps (Moored H hs m₀) where
  space_withSpace _ _ := rfl
  withSpace_space _ := rfl
  withSpace_withSpace _ _ _ := rfl
  inv _ h := h.moor.links
  fblockDelete _ _ _ _ h _ hf hd := by
    have hi : ItemsSame _ _ := .fblockDelete hd
    exact ⟨h.kept.space hi, h.moor.fblockDelete (Space.mem_nodes_fblock.mp (h.moor.links.order.mem_nodes hf)) hd,
      h.fixed.trans (.same (.fblockDelete hd) rfl)⟩
  itemDelete _ _ _ h _ hd := ⟨h.itemDelete ht hd, (serverItemDelete_space (LinkInv.rule rt.al) h.moor.links hd).2⟩
  close _ _ h hd hu := ⟨h.kept.space ⟨rfl, rfl⟩, h.moor.close hd hu, h.fixed.trans (.same (.of_eq rfl) rfl)⟩
  destroy _ _ _ h hd ho ht := ⟨h.kept.space ⟨rfl, rfl⟩, h.moor.destroy hd ho ht, h.fixed.trans (.same (.of_eq rfl) rfl)⟩

/-! ## The handlers -/

/-- A request has got `x`, on an active device. -/
structure Boarded (x : Option Nat) (hs : List Nat) (m₀ m : Master) : Prop where
  moor : Moor (x.toList ++ hs) m.space
  fixed : Fixed hs m₀ m
  active : ∀ a, x = some a → ∃ d ∈ m.space.devices, .item a ∈ m.space.order d

theorem Boarded.nothing (hm : Moor hs m.space) (hf : Fixed hs m₀ m) : Boarded none hs m₀ m :=
  ⟨hm, hf, fun _ hx => by cases hx⟩

theorem boarded (h : Moored H hs m₀ m) : Boarded none hs m₀ m := .nothing h.moor h.fixed

theorem hit {d : Nat} {id : HashId} (h : Moored H hs m₀ m) (ha : a ∈ m.space.items) (hv : m.serverItemValid a = some true)
    (hd : m.space.deviceOfItem a = some d) : Boarded (some a) hs m₀ (m.hitItem s a d id) := by
  have hl := h.moor.links
  have hmem := hl.order.item_mem hl.dev ha hd
  have hdel : (m.space.device d).deleted = false := by
    unfold serverItemValid at hv
    obtain ⟨e, he, hv⟩ := Option.bind_eq_some_iff.mp hv
    obtain rfl : d = e := Option.some.inj (hd.symm.trans he)
    obtain ⟨x, -, hv⟩ := Option.bind_eq_some_iff.mp hv
    have hv := Option.some.inj hv
    simp only [Bool.and_eq_true, Bool.not_eq_true'] at hv
    exact hv.1.1.1
  have hactive := hl.mem_devices hmem hdel
  refine ⟨(h.moor.hold hmem hactive).setItem fun _ => ⟨rfl, rfl, rfl⟩, h.fixed.trans (.same (.of_eq rfl) rfl), fun b hb => ?_⟩
  cases hb
  exact ⟨d, hactive, hmem⟩

theorem getCase (h : Moored H hs m₀ m) (ht : Tied H hs) {n : Option (HashNode Entry)} {o : Option Nat}
    (hn : ∀ id a, n = some ⟨id, .item a⟩ → a ∈ m.space.items) (hc : GetCase rt s n m o m') : Boarded o hs m₀ m' := by
  cases hc with
  | miss | hidden => exact h.boarded
  | passby => exact .nothing h.moor (h.fixed.trans (.same (.of_eq rfl) rfl))
  | stale _ hd => exact (h.itemDelete ht hd).boarded
  | hit _ _ hv hd => exact h.hit (hn _ _ rfl) hv hd

theorem deleteCase (h : Moored H hs m₀ m) (ht : Tied H hs) {n : Option (HashNode Entry)} {found : Bool}
    (hc : DeleteCase rt s n m found m') : Boarded none hs m₀ m' := by
  cases hc with
  | miss => exact h.boarded
  | passby => exact .nothing h.moor (h.fixed.trans (.same (.of_eq rfl) rfl))
  | item hd => exact (h.itemDelete ht hd).boarded

theorem passbyStore {id : HashId} {ok : Bool} (h : Moored H hs m₀ m) (hp : m.serverPassbyStore rt s id = (ok, m')) :
    Fixed hs m₀ m' ∧ m'.space = m.space := by
  have hsp := serverPassbyStore_space hp
  refine ⟨h.fixed.trans (.same (.of_eq (by rw [hsp])) ?_), hsp⟩
  unfold serverPassbyStore at hp
  simp only at hp
  split at hp
  · cases hp
    rfl
  split at hp <;> cases hp <;> rfl

theorem freed (h : Moored H hs m₀ m) (ht : Tied H hs) {id : HashId} {n : Option (HashNode Entry)} (hf : Freed rt s id n m m') :
    Moored H hs m₀ m' := by
  have hkept := Pins.freed h.kept hf
  cases hf with
  | absent hp =>
    obtain ⟨hfix, hsp⟩ := h.passbyStore hp
    exact ⟨hkept, by rw [hsp]; exact h.moor, hfix⟩
  | passby => exact ⟨hkept, h.moor, h.fixed.trans (.same (.of_eq rfl) rfl)⟩
  | item hd => exact h.itemDelete ht hd

/-- In the search for a block of item `a`, of `n` bytes. -/
structure Searching (H : Holds) (hs : List Nat) (m₀ : Master) (n s a : Nat) (m : Master) : Prop where
  pins : Pins.Searching H s a m
  moor : Moor hs m.space
  fixed : Fixed hs m₀ m
  seek : Seeking LinkInv n a m

theorem Searching.evicted {n : Nat} (h : Searching H hs m₀ n s a m) (hm : Moored H hs m₀ m') (he : Evicted m m') :
    Searching H hs m₀ n s a m' :=
  ⟨h.pins.evicted hm.kept he, hm.moor, hm.fixed, h.seek.evicted hm.moor.links he⟩

theorem Searching.moored {n : Nat} (h : Searching H hs m₀ n s a m) : Moored H hs m₀ m := ⟨h.pins.kept, h.moor, h.fixed⟩

/-- Nobody holds the new item. -/
theorem Searching.not_mem {n : Nat} (h : Searching H hs m₀ n s a m) : a ∉ hs := fun ha => h.seek.fresh (h.moor.held a ha)

/-- **`try_again`**: no block, or one of an active device. -/
theorem Searching.tryAgain (ht : Tied H hs) {n fuel tries k : Nat} (hn : n ≠ 0) (hlt : n < 2 ^ 32) (h : Searching H hs m₀ n s a m)
    (htry : m.tryAgain rt s a fuel tries = some (k, m')) :
    Moor hs m'.space ∧ Fixed hs m₀ m' ∧ (k = 0 → a ∉ m'.space.items) ∧
      (k ≠ 0 → ∃ d ∈ m'.space.devices, .item a ∈ m'.space.order d) := by
  have hev : Evictions rt (fun _ => True) (Searching H hs m₀ n s a) :=
    ⟨fun _ _ _ => trivial, fun h _ hd => h.evicted (h.moored.itemDelete ht hd) (.serverItemDelete hd),
      fun h => h.evicted h.moored.passbys .expirePassbys⟩
  have hmiss : ∀ {m sp}, Searching H hs m₀ n s a m → m.space.deviceGetFreeBlock a = some (0, sp) →
      Searching H hs m₀ n s a { m with space := sp } := fun h hg =>
    ⟨h.pins.located (Space.getFreeBlock_located hg).1, h.moor.getFreeBlock hg, h.fixed.trans (.same (.getFreeBlock hg) rfl),
      (h.seek.miss (LinkInv.rule rt.al) hn hlt hg).1⟩
  have hextend : ∀ {m ok m'}, Searching H hs m₀ n s a m →
      (Master.host rt).deviceFreeBlockExtend (m.space.item a).length m = some (ok, m') → Searching H hs m₀ n s a m' := fun h he =>
    h.evicted ((keeps rt m₀ ht).extend h.moored he) ((Evicted.steps rt _).deviceFreeBlockExtend (.refl _) he)
  rcases hev.tryAgain hmiss hextend h htry with ⟨h0, h₁⟩ | ⟨hk, m₁, sp, h₁, hg, rfl⟩
  · exact ⟨h₁.moor, h₁.fixed, fun _ => h₁.seek.fresh, fun hk => absurd h0 hk⟩
  · refine ⟨h₁.moor.getFreeBlock hg, h₁.fixed.trans (.same (.getFreeBlock hg) rfl), fun h0 => absurd h0 hk, fun _ => ?_⟩
    obtain ⟨-, hsame, hcase⟩ := getFreeBlock_links h₁.moor.links hg
    rcases hcase with ⟨h0, -⟩ | ⟨d, hd, htaken⟩
    · exact absurd h0 hk
    · exact ⟨d, hsame.devices ▸ hd, htaken.linked⟩

theorem storeCase (h : Moored H hs m₀ m) (ht : Tied H hs) (hs' : s < m.serverTotal) {id : HashId} {length headersLen : Nat}
    {expire : Int} {rc : PutRc} (hn : length ≠ 0) (hlt : length < 2 ^ 32)
    (hc : StoreCase rt s id length headersLen expire m rc m') : Boarded (Pins.PutRc.item rc) hs m₀ m' := by
  have hdraft : ∀ {a}, rt.al.get m.calls m.space.items = some a → Searching H hs m₀ length s a (m.draft a length headersLen) := by
    intro a ha
    have hfresh : a ∉ m.space.items := rt.al.fresh ha
    have hmoor : Moor hs (m.draft a length headersLen).space := h.moor.setItem fun hmem => absurd hmem hfresh
    refine ⟨Pins.draft h.kept hs' ha .., hmoor, h.fixed.trans (.same (.of_eq rfl) rfl), hmoor.links, hfresh, ?_⟩
    show (Function.update m.space.item a _ a).length = length
    rw [Function.update_self]
  cases hc with
  | noMem => exact .nothing h.moor (h.fixed.trans (.same (.of_eq rfl) rfl))
  | noSpace ha htry =>
    obtain ⟨h₁, hfix, hfresh, -⟩ := (hdraft ha).tryAgain ht hn hlt htry
    refine .nothing ?_ (hfix.trans (.same (.of_eq rfl) rfl))
    show Moor hs (Space.itemFree _ _)
    rw [itemFree_of_not_mem (hfresh rfl)]
    exact h₁
  | @ok a d k m₁ ha htry hk hd =>
    obtain ⟨h₁, hfix, -, hlinked⟩ := (hdraft ha).tryAgain ht hn hlt htry
    obtain ⟨e, he, hmem⟩ := hlinked hk
    obtain rfl : d = e := h₁.links.order.device_eq h₁.links.dev hmem hd
    have hset := h₁.setItem (a := a) (x := { m₁.space.item a with
      putting := true, badblock := false, deleted := false, used := 0, clear := (m₁.server s).clear, expire
      serverIndex := (m₁.server s).index, id }) fun _ => ⟨rfl, rfl, rfl⟩
    refine ⟨hset.hold hmem he, hfix.trans ⟨.of_eq rfl, fun b hb => ?_⟩, fun b hb => ?_⟩
    · have hne : b ≠ a := fun heq => (hdraft ha).not_mem (heq ▸ hb)
      exact Function.update_of_ne hne ..
    · cases hb
      exact ⟨d, he, hmem⟩

theorem putCase (h : Moored H hs m₀ m) (ht : Tied H hs) (hs' : s < m.serverTotal) {buffer : List UInt8} {r : Request} {rc : PutRc}
    (hw : Writes r) (hc : PutCase rt s buffer r m rc m') : Boarded (Pins.PutRc.item rc) hs m₀ m' := by
  have hl : ∀ key, Moored H hs m₀ (m.lookup rt s key).2 := fun key =>
    h.same ⟨h.kept.1.lookup s key, h.kept.2.same rfl rfl⟩ rfl rfl
  cases hc with
  | declined => exact h.boarded
  | exist => exact (hl _).boarded
  | passby _ _ hp =>
    obtain ⟨hfix, hsp⟩ := (hl _).passbyStore hp
    exact .nothing (by rw [hsp]; exact h.moor) hfix
  | store _ _ hf hst =>
    unfold Writes at hw
    have htotal := Recent.freed_serverTotal hf
    exact storeCase (freed (hl _) ht hf) ht (htotal ▸ hs') (by omega) (by omega) hst

/-- **The handlers.** -/
theorem callCase (h : Moored H hs m₀ m) (ht : Tied H hs) (hs' : s ∈ m.allServers) {buffer : List UInt8} {r : Request} {o : Outcome}
    {x : Option Nat} (hw : r.method.isStore = true → Writes r) (hc : CallCase rt s buffer r m o x m') : Boarded x hs m₀ m' := by
  have hl : ∀ key, Moored H hs m₀ (m.lookup rt s key).2 := fun key =>
    h.same ⟨h.kept.1.lookup s key, h.kept.2.same rfl rfl⟩ rfl rfl
  cases hc with
  | get _ hg =>
    obtain ⟨key, -, hc⟩ := serverRequestGetHandler_cases hg
    refine (hl key).getCase ht (fun id a hn => ?_) hc
    obtain ⟨l, hl⟩ := (h.kept.1.lookup_visible hs' hn).1
    exact h.kept.1.listed l a hl
  | store hm hp => exact putCase h ht (h.kept.1.table.total s hs') (hw hm) (serverRequestPutHandler_cases hp)
  | @refused _ rc _ hm hno hp =>
    have hnone : Pins.PutRc.item rc = none := by
      cases rc with
      | ok a => exact absurd rfl (hno a)
      | decline | error => rfl
    have hput := putCase h ht (h.kept.1.table.total s hs') (hw hm) (serverRequestPutHandler_cases hp)
    rwa [hnone] at hput
  | delete _ hd =>
    obtain ⟨key, -, hc⟩ := serverRequestDeleteHandler_cases hd
    have hnote : Moored H hs m₀ ((m.lookup rt s key).2.note (.deleted s (rt.md5 key))) :=
      (hl key).same ⟨(h.kept.1.lookup s key).note fun _ => rfl, h.kept.2.same rfl rfl⟩ rfl rfl
    exact hnote.deleteCase ht hc

/-! ## The end of a request -/

theorem release {d : Nat} (diskError : Bool) (h : Moor (a :: hs) m.space) (ha : a ∈ m.space.items)
    (hd : m.space.deviceOfItem a = some d) : Moor hs (m.release a d diskError).space ∧ Fixed hs m (m.release a d diskError) := by
  refine ⟨(h.release (h.links.order.item_mem h.links.dev ha hd)).setItem fun _ => ?_, .same (.of_eq rfl) rfl⟩
  obtain ⟨_, _, _, _, hx⟩ := Lives.released_same (m.space.item a) diskError
  rw [hx]
  exact ⟨rfl, rfl, rfl⟩

theorem finalizeCase {store : Bool} (hk : Pins.Kept (H.add store (some a)) m) (h : Moor (a :: hs) m.space) (ht : Tied H hs)
    {processSize : Nat} {diskError : Bool} (hc : FinalizeCase rt a processSize diskError m m') :
    Moor hs m'.space ∧ Fixed hs m m' := by
  cases hc with
  | delete ha hd _ hdel =>
    obtain ⟨hmoor, hfix⟩ := release diskError h ha hd
    have hmoored : Moored H hs m (m.release a _ diskError) :=
      ⟨⟨hk.1.release a _ diskError, hk.2.release _ diskError⟩, hmoor, hfix⟩
    exact ⟨(hmoored.itemDelete ht hdel).moor, (hmoored.itemDelete ht hdel).fixed⟩
  | finished ha hd | sent ha hd =>
    obtain ⟨hmoor, hfix⟩ := release diskError h ha hd
    exact ⟨hmoor, hfix.trans (.same (.of_eq rfl) rfl)⟩

/-! ## Loading -/

theorem loadCase {d : Nat} {x : FormatItem} (hl : Loadable d m.space) (h : Moor hs m.space)
    (hx : x.length ≠ 0) (hlt : x.length < 2 ^ 32) (hc : LoadCase rt s d x m m') : Moor hs m'.space ∧ Fixed hs m m' := by
  have hdraft : ∀ {a}, rt.al.get m.calls m.space.items = some a → Moor hs (m.loadDraft s d a x).space :=
    fun ha => h.setItem fun hmem => absurd hmem (rt.al.fresh ha)
  cases hc with
  | noMem => exact ⟨h, .same (.of_eq rfl) rfl⟩
  | noFit ha hcut =>
    rw [hl.noFit hx hlt ha hcut]
    exact ⟨hdraft ha, .same (.of_eq rfl) rfl⟩
  | @ok a k sp ha hcut =>
    obtain ⟨hmoor, hstay⟩ := (hdraft ha).cutFreeBlock hl.listed hl.active (loadDraft_item ..).2 hcut
    refine ⟨hmoor.setItem fun _ => ⟨rfl, rfl, rfl⟩, ⟨hstay.order⟩, fun b hb => ?_⟩
    have hne : b ≠ a := fun heq => rt.al.fresh ha (h.held a (heq ▸ hb))
    exact Function.update_of_ne hne ..

theorem formatLoadDevice {d : Nat} {io : FormatIo} {image image' : Nat → UInt8} {ok : Bool} (hl : Loadable d m.space)
    (h : Moor hs m.space) (hx : ∀ x ∈ recordsOn io image, x.length ≠ 0)
    (hload : m.formatLoadDevice rt io d image = some (ok, image', m')) : Moor hs m'.space ∧ Fixed hs m m' := by
  refine (formatLoadDevice_records (Q := fun m₁ => Loadable d m₁.space ∧ Moor hs m₁.space ∧ Fixed hs m m₁)
    (fun h _ hmem hc => ?_) (fun h hp => ?_) ⟨hl, h, .refl hs m⟩ hload).2
  · obtain ⟨h₁, hfix⟩ := loadCase h.1 h.2.1 (hx _ hmem) (length_recordsOn hmem) (serverLoadFmItem_cases hc)
    exact ⟨h.1.loadCase (hx _ hmem) (length_recordsOn hmem) (serverLoadFmItem_cases hc), h₁, h.2.2.trans hfix⟩
  · obtain ⟨hlinks, hsame, -⟩ := deviceLoadPost_links h.1.links hp
    exact ⟨h.1.keep hlinks hsame, h.2.1.loadPost hp, h.2.2.trans (.same (.loadPost hp) rfl)⟩

end Moored

/-! ## The requests -/

/-- The items that the requests in a list hold. -/
def heldOf (l : List Nat) (m : Master) : List Nat := l.filterMap fun r => (m.request r).item

/-- The items that the open requests hold, each as often as it is held. -/
def held (m : Master) : List Nat := m.heldOf m.requests

theorem mem_heldOf {l : List Nat} : a ∈ m.heldOf l ↔ ∃ r ∈ l, (m.request r).item = some a := List.mem_filterMap

theorem heldOf_congr {l : List Nat} (h : ∀ r ∈ l, m'.request r = m.request r) : m'.heldOf l = m.heldOf l :=
  List.filterMap_congr fun r hr => by rw [h r hr]

theorem heldOf_cons (r : Nat) (l : List Nat) (m : Master) : m.heldOf (r :: l) = (m.request r).item.toList ++ m.heldOf l := by
  unfold heldOf
  rw [List.filterMap_cons]
  cases (m.request r).item <;> rfl

/-- The item of a request, and those of the others. -/
theorem held_split {r : Nat} (hr : r ∈ m.requests) :
    m.held.Perm ((m.request r).item.toList ++ m.heldOf (m.requests.erase r)) := by
  rw [← heldOf_cons]
  exact (List.perm_cons_erase hr).filterMap _

/-- One request changes. -/
theorem held_setRequest {r : Nat} {q : Req} (hn : m.requests.Nodup) (hr : r ∈ m.requests) :
    (m.setRequest r q).held.Perm (q.item.toList ++ m.heldOf (m.requests.erase r)) := by
  have hself : (m.setRequest r q).request r = q := Function.update_self ..
  have hrest : (m.setRequest r q).heldOf (m.requests.erase r) = m.heldOf (m.requests.erase r) := by
    refine heldOf_congr fun x hx => ?_
    have hne : x ≠ r := fun he => hn.not_mem_erase (he ▸ hx)
    exact Function.update_of_ne hne ..
  have hsplit := held_split (m := m.setRequest r q) hr
  rw [hself] at hsplit
  exact hsplit.trans (by rw [← hrest]; rfl)

/-- The items that requests hold are held. -/
theorem tied_heldOf (l : List Nat) (m : Master) : Tied (m.holdsOf l) (m.heldOf l) := by
  intro a ha
  obtain ⟨r, hr, hi⟩ := mem_heldOf.mp ha
  refine ⟨(m.request r).conn.r.method.isStore, fun h0 => ?_⟩
  have hno := List.countP_eq_zero.mp h0 r hr
  simp [hi] at hno

/-- The requests, the items they hold, and the devices of these. -/
structure Mooring (m : Master) : Prop where
  pinning : Pinning m
  moor : Moor m.held m.space

/-- What request `r` holds after a step: the item that it held, in its place,
or one that it has got, on an active device. -/
inductive Holding (m m' : Master) (r a : Nat) : Prop
  | kept : r ∈ m.requests → (m.request r).item = some a → m'.number a = m.number a →
      (m.space.item a).Same (m'.space.item a) → (∀ d, .item a ∈ m.space.order d → .item a ∈ m'.space.order d) →
      Holding m m' r a
  | got {d : Nat} : r ∈ m.requests → (m.request r).item = none → d ∈ m'.space.devices → .item a ∈ m'.space.order d →
      Holding m m' r a

/-- The request that an event is about. -/
def subject : MasterEvent → Option Nat
  | .accept _ r _ _ _ | .conn r _ | .handle r _ _ | .finish r => some r
  | _ => none

/-- A step of the requests, about request `j`. -/
structure Voyage (j : Option Nat) (m m' : Master) : Prop where
  mooring : Mooring m'
  others : ∀ x ∈ m'.requests, j ≠ some x → x ∈ m.requests ∧ m'.request x = m.request x
  holding : ∀ r ∈ m'.requests, ∀ a, (m'.request r).item = some a → r ∈ m.requests ∧
    ((m.request r).item = some a ∧ Fixed [a] m m' ∨
      (m.request r).item = none ∧ ∃ d ∈ m'.space.devices, .item a ∈ m'.space.order d)

/-- A request that is what it was. -/
theorem Fixed.only {l : List Nat} (hf : Fixed (m.heldOf l) m m') {r : Nat} (hl : r ∈ l) (ha : (m.request r).item = some a) :
    Fixed [a] m m' := by
  have hmem : ∀ b ∈ [a], b ∈ m.heldOf l := fun b hb => mem_heldOf.mpr ⟨r, hl, List.mem_singleton.mp hb ▸ ha⟩
  exact ⟨⟨fun b hb => hf.stay.order b (hmem b hb)⟩, fun b hb => hf.number b (hmem b hb)⟩

/-- It is the same item, since it has its number. -/
theorem Voyage.kept {j : Option Nat} {r : Nat} (h : Voyage j m m') (hm : Mooring m) (hrec : Recent m) (hl : Lives m m') (hr : r ∈ m'.requests)
    (ha : (m'.request r).item = some a) : Holding m m' r a := by
  obtain ⟨hr₀, ⟨hitem, hfix⟩ | ⟨hnone, d, hd, hmem⟩⟩ := h.holding r hr a ha
  · have hself := List.mem_singleton_self a
    refine .kept hr₀ hitem (hfix.number a hself) ?_ fun d hd => hfix.stay.order a hself d hd
    rcases hl.item a (h.mooring.moor.held a (mem_heldOf.mpr ⟨r, hr, ha⟩)) with ⟨-, -, hsame⟩ | ⟨hnew, -⟩
    · exact hsame
    · obtain ⟨k, hk⟩ := tied_heldOf m.requests m a (mem_heldOf.mpr ⟨r, hr₀, hitem⟩)
      obtain ⟨l, hlist⟩ := hm.pinning.pins.held k a hk
      rw [hfix.number a hself] at hnew
      exact absurd (hrec.ranked.bound l a hlist) (Nat.not_lt.mpr hnew)
  · exact .got hr₀ hnone hd hmem

namespace Mooring

variable {r : Nat}

/-- The requests stay as they are. -/
theorem same (h : Mooring m) (hp : Pinning m') (hreq : m'.requests = m.requests) (hr : m'.request = m.request)
    (hmoor : Moor m.held m'.space) (hfix : Fixed m.held m m') {j : Option Nat} : Voyage j m m' := by
  refine ⟨⟨hp, ?_⟩, fun x hx _ => ⟨hreq ▸ hx, by rw [hr]⟩, fun x hx a ha => ?_⟩
  · rw [show m'.held = m.held from by rw [held, hreq, heldOf_congr fun _ _ => congrFun hr _]; rfl]
    exact hmoor
  · rw [hr] at ha
    rw [hreq] at hx
    exact ⟨hx, .inl ⟨ha, hfix.only hx ha⟩⟩

/-- One request changes; the others have what they had. -/
theorem setRequest {q : Req} (h : Mooring m) (hr : r ∈ m.requests) (hreq : m'.requests = m.requests) (hreq' : m'.request = m.request)
    (hp : Pinning (m'.setRequest r q)) (hm : Moor (q.item.toList ++ m.heldOf (m.requests.erase r)) m'.space)
    (hfix : Fixed (m.heldOf (m.requests.erase r)) m m')
    (hself : ∀ a, q.item = some a → (m.request r).item = some a ∧ Fixed [a] m m' ∨
      (m.request r).item = none ∧ ∃ d ∈ m'.space.devices, .item a ∈ m'.space.order d) : Voyage (some r) m (m'.setRequest r q) := by
  have hset : ∀ {l : List Nat}, Fixed l m m' → Fixed l m (m'.setRequest r q) := fun hf => hf.trans (.same (.of_eq rfl) rfl)
  refine ⟨⟨hp, hm.perm ?_⟩, fun x hx hne => ⟨hreq ▸ hx, ?_⟩, fun x hx a ha => ?_⟩
  · have hset := held_setRequest (m := m') (q := q) (hreq ▸ h.pinning.nodup) (hreq ▸ hr)
    rwa [hreq, heldOf_congr fun _ _ => congrFun hreq' _] at hset
  · rw [← hreq']
    exact Function.update_of_ne (fun he => hne (congrArg some he.symm)) ..
  · have hx : x ∈ m.requests := hreq ▸ hx
    have ha : (Function.update m'.request r q x).item = some a := ha
    by_cases hxr : x = r
    · subst hxr
      rw [Function.update_self] at ha
      exact ⟨hr, (hself a ha).imp_left fun h => ⟨h.1, hset h.2⟩⟩
    · rw [Function.update_of_ne hxr, hreq'] at ha
      exact ⟨hx, .inl ⟨ha, (hset hfix).only ((List.mem_erase_of_ne hxr).mpr hx) ha⟩⟩

/-- The rest of `request_read_request_header`. -/
theorem handle {dispatch send : Bool} (h : Mooring m) (hp : Pinning m') (hrec : Recent m) (hr : r ∈ m.requests)
    (hs : (m.request r).server ∈ m.allServers)
    (hw : (m.request r).conn.r.method.isStore = true → Writes (m.request r).conn.r)
    (hh : m.handle rt r dispatch send = some m') : Voyage (some r) m m' := by
  have hnone := h.pinning.handled hr hh
  have hsplit := held_split hr
  have hpins := h.pinning.pins
  rw [holds_split hr, hnone, Holds.add_none] at hpins
  rw [hnone] at hsplit
  have hmoor : Moor (m.heldOf (m.requests.erase r)) m.space := h.moor.perm hsplit.symm
  rcases handle_cases hh with ⟨o, x, m₁, c, -, hc, hconn, rfl⟩ | ⟨o, rc, c, -, -, -, rfl⟩
  · have hun := Framed.callCase hc
    obtain ⟨hm₁, hfix, hactive⟩ := Moored.callCase ⟨⟨hrec, hpins⟩, hmoor, .refl _ m⟩ (tied_heldOf _ m) hs hw hc
    exact h.setRequest hr hun.requests hun.request hp hm₁ hfix fun a ha => .inr ⟨hnone, hactive a ha⟩
  · exact h.setRequest hr rfl rfl hp hmoor (.refl _ m) fun a ha => by cases ha

/-- `request_do_finalize`. -/
theorem finish (h : Mooring m) (hp : Pinning m') (hrec : Recent m) (hr : r ∈ m.requests)
    (hf : m.requestDoFinalize rt r = some m') : Voyage (some r) m m' := by
  obtain ⟨m₁, hfin, hm⟩ := requestDoFinalize_cases hf
  have hun := Framed.finalized hfin
  have hrest : Moor (m.heldOf (m.requests.erase r)) m₁.space ∧ Fixed (m.heldOf (m.requests.erase r)) m m₁ := by
    have hm := h.moor.perm (held_split hr).symm
    have hpins := h.pinning.pins
    rw [holds_split hr] at hpins
    unfold Finalized at hfin
    split at hfin
    · next hnone =>
      rw [hnone] at hm
      rw [hfin]
      exact ⟨hm, .refl _ m⟩
    · next hsome =>
      rw [hsome] at hm hpins
      exact Moored.finalizeCase ⟨hrec, hpins⟩ hm (tied_heldOf _ m) hfin
  obtain ⟨hmoor, hfix⟩ := hrest
  rcases hm with ⟨-, rfl⟩ | ⟨-, rfl⟩
  · refine ⟨⟨hp, ?_⟩, fun x hx _ => ⟨hun.requests ▸ List.mem_of_mem_erase hx, congrFun hun.request x⟩, fun x hx a ha => ?_⟩
    · show Moor (m₁.heldOf (m₁.requests.erase r)) m₁.space
      rw [hun.requests, heldOf_congr fun _ _ => congrFun hun.request _]
      exact hmoor
    · have hx : x ∈ m.requests.erase r := hun.requests ▸ hx
      have ha : (m₁.request x).item = some a := ha
      rw [hun.request] at ha
      exact ⟨List.mem_of_mem_erase hx, .inl ⟨ha, (hfix.only hx ha).trans (.same (.of_eq rfl) rfl)⟩⟩
  · exact h.setRequest hr hun.requests hun.request hp hmoor hfix fun a ha => by cases ha

end Mooring

/-- **One step** of the master. -/
theorem masterStep_voyage {e : MasterEvent} (hrec : Recent m) (hm : Mooring m) (hok : Substantial m e) (hc : Countable m e)
    (h : masterStep rt m e = some m') : Voyage (subject e) m m' := by
  have hp := masterStep_pinning hrec hm.pinning hc h
  have hstart : Moored m.holds m.held m m := ⟨⟨hrec, hm.pinning.pins⟩, hm.moor, .refl _ m⟩
  cases e with
  | tick now =>
    obtain ⟨-, h⟩ := Option.ite_none_right_eq_some.mp h
    cases h
    exact hm.same hp rfl rfl hm.moor (.same (.of_eq rfl) rfl)
  | accept s r old buffer total =>
    obtain ⟨⟨-, hr, -⟩, h⟩ := Option.ite_none_right_eq_some.mp h
    cases h
    have hself : ((m.accept s r old buffer total).request r).item = none := by
      show (Function.update m.request r _ r).item = none
      rw [Function.update_self]
    have hother : ∀ x ∈ m.requests, (m.accept s r old buffer total).request x = m.request x := by
      intro x hx
      have hne : x ≠ r := fun he => hr (he ▸ hx)
      exact Function.update_of_ne hne ..
    refine ⟨⟨hp, ?_⟩, fun x hx hne => ?_, fun x hx a ha => ?_⟩
    · show Moor ((m.accept s r old buffer total).heldOf (r :: m.requests)) m.space
      rw [heldOf_cons, hself, heldOf_congr hother]
      exact hm.moor
    · have hx := (List.mem_cons.mp hx).resolve_left fun he => hne (congrArg some he.symm)
      exact ⟨hx, hother x hx⟩
    · rcases List.mem_cons.mp hx with rfl | hx
      · rw [hself] at ha
        cases ha
      · rw [hother x hx] at ha
        exact ⟨hx, .inl ⟨ha, .same (.of_eq rfl) rfl⟩⟩
  | conn r e =>
    obtain ⟨⟨hr, -⟩, h⟩ := Option.ite_none_right_eq_some.mp h
    obtain ⟨c, -, rfl⟩ := Option.map_eq_some_iff.mp h
    exact hm.setRequest hr rfl rfl hp (hm.moor.perm (held_split hr).symm) (.refl _ m) fun a ha => .inl ⟨ha, .refl _ m⟩
  | handle r dispatch send =>
    obtain ⟨⟨hr, hs⟩, h⟩ := Option.ite_none_right_eq_some.mp h
    exact hm.handle hp hrec hr hs hok h
  | finish r =>
    obtain ⟨⟨hr, -⟩, h⟩ := Option.ite_none_right_eq_some.mp h
    exact hm.finish hp hrec hr h
  | clear port =>
    obtain ⟨s, -, rfl⟩ := Option.map_eq_some_iff.mp h
    exact hm.same hp rfl rfl hm.moor (.same (.of_eq rfl) rfl)
  | reload env conf =>
    unfold masterStep at h
    simp only at h
    split at h
    · next devices servers hcheck hplan =>
      have hplan := (serverConfCheck_ok hplan).1
      have hdevs := (Space.deviceConfCheck_ok hcheck).1
      obtain ⟨-, hreqs, hreq⟩ := confLoad_requests hrec hplan h
      obtain ⟨sp, hsp, h⟩ := Option.bind_eq_some_iff.mp h
      have hdone : Moored m.holds m.held m { m with space := sp } := ⟨hstart.kept.space (.deviceConfLoad hsp),
        hm.moor.confLoad hdevs hsp, .same (.confLoad hm.moor.links hdevs hsp) rfl⟩
      have hplan : ServerPlanOk { m with space := sp } servers := ⟨hplan.ports, hplan.existing, hplan.count⟩
      have hservers : Moored m.holds m.held m m' := serverConfLoad_rule (P := Moored m.holds m.held m)
        (fun _ h => (List.nodup_append.mp h.kept.1.table.nodup).1)
        (fun h hs => h.same ⟨h.kept.1.serverDelete hs, h.kept.2.same rfl rfl⟩ rfl rfl)
        (fun h hs => h.same ⟨h.kept.1.serverUpdate hs, h.kept.2.same rfl rfl⟩ rfl rfl)
        (fun h hc => h.same ⟨h.kept.1.serverCreate hc, Pins.serverCreate h.kept hc⟩ (serverCreate_frame hc).2.2.1
          (by
            unfold serverCreate at hc
            obtain ⟨_, -, hc⟩ := Option.bind_eq_some_iff.mp hc
            obtain ⟨_, -, hc⟩ := Option.bind_eq_some_iff.mp hc
            cases hc
            rfl))
        hplan hdone h
      exact hm.same hp hreqs hreq hservers.moor hservers.fixed
    · cases h
  | load d io image =>
    obtain ⟨hd, h⟩ := Option.ite_none_right_eq_some.mp h
    obtain ⟨⟨ok, image', m₁⟩, h₁, rfl⟩ := Option.map_eq_some_iff.mp h
    have hun := formatLoadDevice_rule (P := Framed m) (fun hP _ hx => hP.trans (.loadCase (serverLoadFmItem_cases hx)))
      (fun hP _ => hP.trans (.rest rfl rfl rfl rfl rfl rfl rfl rfl)) (.refl m) h₁
    obtain ⟨hmoor, hfix⟩ := Moored.formatLoadDevice ⟨hm.moor.links, List.mem_append_left _ hd, hok.1⟩ hm.moor hok.2 h₁
    exact hm.same hp hun.requests hun.request hmoor hfix
  | serverRoutine =>
    obtain ⟨-, hreqs, hreq⟩ := serverRoutine_requests hrec h
    have hdone := (Moored.evictions rt m (tied_heldOf _ m)).serverRoutine (Moored.frees _ _ m) hstart h
    exact hm.same hp hreqs hreq hdone.moor hdone.fixed
  | deviceRoutine =>
    have he := (Evicted.steps rt m).deviceRoutine (.refl m) h
    have hdone := (Moored.keeps rt m (tied_heldOf _ m)).deviceRoutine hstart h
    exact hm.same hp he.requests he.request hdone.moor hdone.fixed

/-! ## Every run -/

/-- The conditions on a step: no block is asked for nothing, and no more
connections are open than the counter of an item can count. -/
def Modest (m : Master) (e : MasterEvent) : Prop := Substantial m e ∧ m.requests.length ≤ 65535

instance (m : Master) (e : MasterEvent) : Decidable (Modest m e) := inferInstanceAs (Decidable (_ ∧ _))

theorem mooring_run (h : (masterSystem rt).Reach Modest m) : Mooring m := by
  refine h.invariant (fun m hm => ?_) fun m e m' hr hm hok hn =>
    (masterStep_voyage (recent_run hr.reachable) hm hok.1 (hm.pinning.countable hok.2 hn.1) hn.1).mooring
  have hrec := recent_run (.init hm)
  obtain ⟨now, rfl⟩ := hm
  have hempty : SpaceInv False (Space.empty 0) := Space.empty_inv 0
  have hpins : Pins (Process.boot now).master.holds (Process.boot now).master :=
    ⟨fun _ _ hne => absurd rfl hne, fun _ => List.forall_mem_nil _⟩
  exact ⟨⟨List.nodup_nil, List.forall_mem_nil _, List.forall_mem_nil _, hpins⟩, hempty.links, List.forall_mem_nil _,
    List.forall_mem_nil _, List.forall_mem_nil _, List.nodup_nil, List.forall_mem_nil _, List.Pairwise.nil⟩

/-- The open stores that hold item `a`. -/
def writers (a : Nat) (m : Master) : List Nat :=
  m.requests.filter fun r => (m.request r).item = some a ∧ (m.request r).conn.r.method.isStore = true

/-- The open requests that hold an item of device `d`. -/
def users (d : Nat) (m : Master) : List Nat :=
  m.requests.filter fun r => (m.request r).item.any fun a => decide (.item a ∈ m.space.order d)

theorem mem_users {d r : Nat} : r ∈ m.users d ↔ r ∈ m.requests ∧ ∃ a, (m.request r).item = some a ∧ .item a ∈ m.space.order d := by
  simp only [users, List.mem_filter, Option.any_eq_true, decide_eq_true_eq]

theorem length_writers (m : Master) (a : Nat) : (m.writers a).length = m.holds true a := by
  rw [writers, ← List.countP_eq_length_filter, holds, holdsOf]
  exact List.countP_congr fun r _ => by simp

theorem length_users (m : Master) (d : Nat) : (m.users d).length = m.space.holders m.held d := by
  rw [users, ← List.countP_eq_length_filter, Space.holders, held, heldOf, List.countP_filterMap]
  refine List.countP_congr fun r _ => ?_
  cases (m.request r).item <;> simp

/-- The counters of items and devices against the open requests. -/
structure Accounted (m : Master) : Prop where
  readers : ∀ a ∈ m.space.items, (m.space.item a).used = (m.readers a).length
  writers : ∀ a ∈ m.space.items, (m.writers a).length = if (m.space.item a).putting then 1 else 0
  apart : ∀ a ∈ m.space.items, m.readers a = [] ∨ m.writers a = []
  live : ∀ r ∈ m.requests, ∀ a, (m.request r).item = some a → a ∈ m.space.items
  users : ∀ d ∈ m.space.registered, (m.space.device d).used = (m.users d).length
  opened : ∀ d ∈ m.space.registered, m.users d ≠ [] → (m.space.device d).fdOpen = true

theorem users_open {d : Nat} (h : Moor m.held m.space) (hd : d ∈ m.space.registered) (hne : m.users d ≠ []) :
    (m.space.device d).fdOpen = true := by
  by_contra hopen
  have hzero := (h.opened d hd (by simpa using hopen)).2
  rw [h.used d hd, ← length_users] at hzero
  exact hne (List.eq_nil_of_length_eq_zero (Int.ofNat.inj hzero))

/-- **The counters are right** in every run: an item counts the GETs that
send it, or belongs to the one store that writes it; a device counts the
requests that use its items and is open as long as there are any; and what a
request refers to has not been freed. -/
theorem accounted_run (h : (masterSystem rt).Reach Modest m) : Accounted m := by
  obtain ⟨hp, hm⟩ := mooring_run h
  obtain ⟨hrec, hfiled⟩ := filed_run h.reachable
  have hpin : ∀ a ∈ m.space.items, (m.space.item a).Pinned (m.holds true a) (m.holds false a) := by
    intro a ha
    obtain ⟨l, hl⟩ := hfiled.filed a ha (Option.some_ne_none a)
    exact hp.pins.pinned l a hl
  refine ⟨fun a ha => ?_, fun a ha => ?_, fun a ha => ?_, fun r hr a ha => ?_, fun d hd => ?_, fun d hd hne => ?_⟩
  · rw [length_readers hp]
    exact (hpin a ha).used
  · rw [length_writers]
    exact (hpin a ha).putting
  · by_cases hput : (m.space.item a).putting = true
    · refine .inl (List.eq_nil_of_length_eq_zero ?_)
      rw [length_readers hp]
      exact (hpin a ha).apart hput
    · refine .inr (List.eq_nil_of_length_eq_zero ?_)
      rw [length_writers, (hpin a ha).putting, if_neg hput]
  · exact hm.held a (mem_heldOf.mpr ⟨r, hr, ha⟩)
  · rw [length_users]
    exact hm.used d hd
  · exact users_open hm hd hne

/-- `/a` is stored and asked for; then the device is taken out of the
configuration, while the item is sent. -/
def readingMoved : List MasterEvent := storingOn 0 "a" ++
  [.accept 0 8 .blank (List.replicate reqBufSize 0) (lit "GET /a HTTP/1.1\r\n\r\n"), .conn 8 (.recv ⟨0, 0, fun _ => -1⟩ 19),
    .handle 8 true true, .reload LoadEnv.twoFiles (Conf.onDevices ["b"]), .deviceRoutine]

/-- What the run leaves, and `device_routine` once more. -/
theorem readingMoved_run : ∃ m m', (masterSystem .plain).Reach (fun m e => Modest m e ∧ e.isLoad = false) m ∧
    (masterSystem .plain).next m .deviceRoutine m' ∧
    (m.requests = [8, 7] ∧ m.space.items = [1] ∧ m.space.devices = [2] ∧ m.space.deletedDevices = [1] ∧ m.users 1 = [8] ∧
      ((m.space.item 1).used = 1 ∧ (m.space.device 1).file = 1 ∧ (m.space.device 2).file = 2) ∧
      m'.requests = [8, 7] ∧ m'.users 1 = [8] ∧ m'.space.deletedDevices = [1] ∧ (m'.request 8).item = some 1 ∧
      (m.request 8).item = some 1 ∧ m.space.deviceOfItem 1 = some 1) ∧
    (m.space.device 1).used = 1 ∧ (m.space.device 1).fdOpen = true ∧ (m.connOf 8).phase = .response := by
  have hrun : (System.run (System.guarded (fun m e => Modest m e ∧ e.isLoad = false) (masterStep .plain))
      (Process.boot 0).master readingMoved).bind (fun m => (masterStep .plain m .deviceRoutine).map fun m' =>
        ([m.requests, m.space.items, m.space.devices, m.space.deletedDevices, m.users 1,
          [(m.space.item 1).used, (m.space.device 1).file, (m.space.device 2).file], m'.requests, m'.users 1,
          m'.space.deletedDevices, (m'.request 8).item.toList, (m.request 8).item.toList, (m.space.deviceOfItem 1).toList],
        (m.space.device 1).used, (m.space.device 1).fdOpen, (m.connOf 8).phase)) =
      some ([[8, 7], [1], [2], [1], [8], [1, 1, 2], [8, 7], [8], [1], [1], [1], [1]], 1, true, .response) := by
    decide +kernel
  obtain ⟨m, hm, hrun⟩ := Option.bind_eq_some_iff.mp hrun
  obtain ⟨m', hm', hview⟩ := Option.map_eq_some_iff.mp hrun
  simp only [Prod.mk.injEq, List.cons.injEq, Option.toList_eq_singleton_iff, and_true] at hview
  exact ⟨m, m', masterSystem_guarded rfl (.init ⟨0, rfl⟩) hm, ⟨hm', fun _ _ _ he => MasterEvent.noConfusion he⟩, hview⟩

/-- The item is deleted and its device as well, but both are there. -/
theorem accounted_moved : ∃ m, (masterSystem .plain).Reach Modest m ∧ m.requests = [8, 7] ∧ m.space.items = [1] ∧
    m.space.deletedDevices = [1] ∧ (m.space.item 1).used = 1 ∧ (m.space.device 1).used = 1 ∧ Accounted m := by
  obtain ⟨m, -, hr, -, ⟨h1, h2, -, h3, -, ⟨h4, -⟩, -⟩, h5, -⟩ := readingMoved_run
  have hr := hr.mono fun _ _ => And.left
  exact ⟨m, hr, h1, h2, h3, h4, h5, accounted_run hr⟩

/-- One owner for each file. -/
structure Ownership (m : Master) : Prop where
  active : ∀ d ∈ m.space.devices, (m.space.device d).kicked = false → (m.space.device d).fdOpen = true
  owner : ∀ d ∈ m.space.registered, (m.space.device d).fdOpen = true → ∀ e ∈ m.space.registered, e ≠ d →
    (m.space.device e).file = (m.space.device d).file →
    (m.space.device e).fdOpen = false ∧ (m.space.device e).deleted = true ∧ m.users e = []

theorem Mooring.ownership (h : Mooring m) : Ownership m := by
  have hm := h.moor
  have hactive : ∀ d ∈ m.space.devices, (m.space.device d).kicked = false → (m.space.device d).fdOpen = true := by
    intro d hd hk
    by_contra hopen
    have hdel := (hm.opened d (Space.mem_registered.mpr ⟨List.mem_append_left _ hd, hk⟩) (by simpa using hopen)).1
    rw [hm.links.dev.active d hd] at hdel
    cases hdel
  refine ⟨hactive, fun d hd hopen e he hne hf => ?_⟩
  have hclosed : (m.space.device e).fdOpen = false := by
    obtain ⟨hd, hdk⟩ := Space.mem_registered.mp hd
    obtain ⟨he, hek⟩ := Space.mem_registered.mp he
    rcases List.mem_append.mp hd with hd | hd <;> rcases List.mem_append.mp he with he | he
    · exact absurd hf (hm.file_ne he hd hne)
    · exact hm.owner d hd hdk e he hf
    · -- The active device is open, so the deleted one is not.
      have hno := hm.owner e he hek d hd hf.symm
      rw [hopen] at hno
      cases hno
    · refine (hm.older_or hd he hne.symm hf).resolve_right fun hno => ?_
      rw [hopen] at hno
      cases hno
  obtain ⟨hdel, hused⟩ := hm.opened e he hclosed
  refine ⟨hclosed, hdel, List.eq_nil_of_length_eq_zero ?_⟩
  rw [hm.used e he, ← length_users] at hused
  exact Int.ofNat.inj hused

/-- **One open device for each file.** However often devices are removed,
added again and kicked, and whatever requests are open on them: the devices
that the configuration names are open, and any other object for the file of
an open device is deleted, unused and closed. -/
theorem ownership_run (h : (masterSystem rt).Reach Modest m) : Ownership m := (mooring_run h).ownership

/-- The device that is taken out keeps its file while the item is sent; the
other one has another file. -/
theorem ownership_moved : ∃ m, (masterSystem .plain).Reach Modest m ∧ m.space.devices = [2] ∧ m.space.deletedDevices = [1] ∧
    (m.space.device 1).fdOpen = true ∧ m.users 1 = [8] ∧ (m.space.device 1).file = 1 ∧ (m.space.device 2).file = 2 ∧
    Ownership m := by
  obtain ⟨m, -, hr, -, ⟨-, -, h1, h2, h3, ⟨-, h4, h5⟩, -⟩, -, h6, -⟩ := readingMoved_run
  have hr := hr.mono fun _ _ => And.left
  exact ⟨m, hr, h1, h2, h6, h3, h4, h5, ownership_run hr⟩

/-- **What a request holds is its own.** In every step of a run a request
that holds an item holds the item that it held before, with its number, its
block and its device, or one that it has got in this step on an active
device. So a deleted device gets no new users. -/
theorem held_items_stay {e : MasterEvent} (h : (masterSystem rt).Reach Modest m) (hok : Modest m e)
    (hn : (masterSystem rt).next m e m') :
    (∀ r ∈ m'.requests, ∀ a, (m'.request r).item = some a → Holding m m' r a) ∧
      ∀ d ∈ m.space.deletedDevices, d ∈ m'.space.deletedDevices →
        m'.users d ⊆ m.users d ∧ (m'.space.device d).used ≤ (m.space.device d).used := by
  have hm := mooring_run h
  have hm' : (masterSystem rt).Reach Modest m' := .step h hok hn
  have hrec := recent_run h.reachable
  have hstep := masterStep_voyage hrec hm hok.1 (hm.pinning.countable hok.2 hn.1) hn.1
  obtain ⟨hp', hmoor'⟩ := hstep.mooring
  have hold := fun r hr a ha => hstep.kept hm hrec (masterStep_lives hn.1) (r := r) (a := a) hr ha
  refine ⟨hold, fun d hd hd' => ?_⟩
  have hsub : m'.users d ⊆ m.users d := by
    intro r hr
    obtain ⟨hr, a, ha, had⟩ := mem_users.mp hr
    cases hold r hr a ha with
    | kept hr hitem _ _ hstay =>
      refine mem_users.mpr ⟨hr, a, hitem, ?_⟩
      obtain ⟨x, hx⟩ := (hm.moor.links.order.owned.covers (.item a)).mp
        (Space.mem_nodes_item.mpr (hm.moor.held a (mem_heldOf.mpr ⟨r, hr, hitem⟩)))
      rw [hmoor'.links.order.owned.unique had (hstay x hx)]
      exact hx
    | @got x _ _ hx hmem =>
      -- The item would be on an active device.
      obtain rfl : d = x := hmoor'.links.order.owned.unique had hmem
      exact absurd rfl ((List.nodup_append.mp hmoor'.links.dev.nodup).2.2 d hx d hd')
  refine ⟨hsub, ?_⟩
  have hreg : ∀ {m : Master}, Moor m.held m.space → d ∈ m.space.deletedDevices → (m.space.device d).used = (m.users d).length := by
    intro m hmoor hd
    rw [length_users]
    exact hmoor.used d (Space.mem_registered.mpr ⟨List.mem_append_right _ hd, (hmoor.links.dev.gone d hd).2⟩)
  rw [hreg hm.moor hd, hreg hmoor' hd']
  exact Int.ofNat_le.mpr ((hp'.nodup.filter _).subperm hsub).length_le

/-- The device is asked to go once more, and waits for its reader. -/
theorem held_items_moved : ∃ m m', (masterSystem .plain).Reach Modest m ∧ (masterSystem .plain).next m .deviceRoutine m' ∧
    m'.users 1 = [8] ∧ Holding m m' 8 1 ∧ (m'.space.device 1).used ≤ (m.space.device 1).used := by
  obtain ⟨m, m', hr, hn, ⟨h1, -, -, h2, -, -, h3, h4, h5, h6, -⟩, -⟩ := readingMoved_run
  have hr := hr.mono fun _ _ => And.left
  obtain ⟨hold, hdrain⟩ := held_items_stay (e := .deviceRoutine) hr ⟨trivial, by rw [h1]; decide⟩ hn
  exact ⟨m, m', hr, hn, h4, hold 8 (by rw [h3]; decide) 1 h6, (hdrain 1 (by rw [h2]; decide) (by rw [h5]; decide)).2⟩

end Master

end OliveHc
