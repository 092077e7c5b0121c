/-
How items are filed, in every state of the program.

Every item is in one list, and one in the list of a server belongs to this
server. An item of a list
that is marked as deleted, or lies on a bad block, is still in use: its last
request deletes it. So a loop over the lists never gives a bad block back,
and never kicks a device.
-/
import OliveHc.Master.Recency

namespace OliveHc

/-- Only an item in use is marked, and one on a bad block is marked. -/
structure Item.Settled (x : Item) : Prop where
  marked : x.deleted = true → x.used ≠ 0 ∨ x.putting = true
  bad : x.badblock = true → x.deleted = true

/-- An item that nobody has marked. -/
theorem Item.Settled.fresh {x : Item} (hd : x.deleted = false) (hb : x.badblock = false) : x.Settled :=
  ⟨fun h => absurd (hd.symm.trans h) Bool.false_ne_true, fun h => absurd (hb.symm.trans h) Bool.false_ne_true⟩

namespace Item.Settled

variable {x : Item}

/-- The mark is all that an item in use needs. -/
theorem mark (hu : x.used ≠ 0 ∨ x.putting = true) : ({ x with deleted := true } : Item).Settled := ⟨fun _ => hu, fun _ => rfl⟩

theorem badblock_eq_false (h : x.Settled) (hu : ¬(x.used ≠ 0 ∨ x.putting = true)) : x.badblock = false :=
  Bool.eq_false_iff.mpr fun hb => hu (h.marked (h.bad hb))

end Item.Settled

namespace Master

open Recent (InUse)

/-- The servers and the items of the lists. Item `x`, if there is one, is
just being given back by its request, or gets its block. -/
structure Filed (x : Option Nat) (m : Master) : Prop where
  retired : ∀ s ∈ m.deletedServers, (m.server s).deleted = true
  owned : ∀ s, ∀ a ∈ m.lru (some s), (m.space.item a).serverIndex = (m.server s).index
  once : ∀ l l' a, a ∈ m.lru l → a ∈ m.lru l' → l = l'
  filed : ∀ a ∈ m.space.items, some a ≠ x → ∃ l, a ∈ m.lru l
  settled : ∀ l, ∀ a ∈ m.lru l, some a ≠ x → (m.space.item a).Settled

namespace Filed

variable {rt : Runtime} {x : Option Nat} {m m' : Master} {s a : Nat}

/-- Nothing comes to a list, and the items there are settled as before. -/
theorem frame {y : Option Nat} (h : Filed x m) (hret : ∀ s ∈ m'.deletedServers, s ∈ m.deletedServers)
    (hserver : ∀ s, (m'.server s).index = (m.server s).index ∧ (m'.server s).deleted = (m.server s).deleted)
    (hlru : ∀ l, ∀ a ∈ m'.lru l, a ∈ m.lru l)
    (hsi : ∀ l, ∀ a ∈ m'.lru l, (m'.space.item a).serverIndex = (m.space.item a).serverIndex)
    (hfiled : ∀ a ∈ m'.space.items, some a ≠ y → ∃ l, a ∈ m'.lru l)
    (hset : ∀ l, ∀ a ∈ m'.lru l, some a ≠ y → (m'.space.item a).Settled) : Filed y m' := by
  refine ⟨fun s hs => ?_, fun s a ha => ?_, fun l l' a ha ha' => h.once l l' a (hlru l a ha) (hlru l' a ha'), hfiled, hset⟩
  · rw [(hserver s).2]
    exact h.retired s (hret s hs)
  · rw [(hserver s).1, hsi _ a ha]
    exact h.owned s a (hlru _ a ha)

/-- Only what is not part of the invariant changes. -/
theorem same (h : Filed x m) (hret : m'.deletedServers = m.deletedServers)
    (hserver : ∀ s, (m'.server s).index = (m.server s).index ∧ (m'.server s).deleted = (m.server s).deleted)
    (hlru : m'.lru = m.lru) (hsp : ItemsSame m.space m'.space) : Filed x m' := by
  refine h.frame (fun s hs => hret ▸ hs) hserver (fun l a ha => hlru ▸ ha) (fun l a _ => by rw [hsp.item]) (fun a ha hx => ?_)
    fun l a ha hx => ?_
  · rw [hlru]
    exact h.filed a (hsp.items ▸ ha) hx
  · rw [hsp.item]
    exact h.settled l a (hlru ▸ ha) hx

/-- A field of a server changes. -/
theorem setServer {y : Server} (h : Filed x m) (hi : y.index = (m.server s).index)
    (hd : y.deleted = (m.server s).deleted) : Filed x (m.setServer s y) := by
  refine h.same rfl (fun z => ?_) rfl ⟨rfl, rfl⟩
  show (Function.update m.server s y z).index = _ ∧ (Function.update m.server s y z).deleted = _
  by_cases hz : z = s
  · rw [hz, Function.update_self]
    exact ⟨hi, hd⟩
  · rw [Function.update_of_ne hz]
    exact ⟨rfl, rfl⟩

theorem space {sp : Space} (h : Filed x m) (hsp : ItemsSame m.space sp) : Filed x { m with space := sp } :=
  h.same rfl (fun _ => ⟨rfl, rfl⟩) rfl hsp

/-- What `Evicted` leaves alone in the servers. -/
theorem server_evicted (he : Evicted m m') (s : Nat) :
    (m'.server s).index = (m.server s).index ∧ (m'.server s).deleted = (m.server s).deleted := by
  obtain ⟨_, _, _, _, hs⟩ := he.server s
  rw [hs]
  exact ⟨rfl, rfl⟩

/-- **`server_item_delete`** settles the item. -/
theorem serverItemDelete {y : Option Nat} (h : Filed x m) (hx : ∀ b, b ≠ a → some b ≠ y → some b ≠ x)
    (hfiled : ∀ b ∈ m.space.items, some b ≠ y → ∃ l, b ∈ m.lru l) (hr : Recent m)
    (hd : m.serverItemDelete rt a = some m') : Filed y m' := by
  have he := Evicted.serverItemDelete hd
  have hdel := hr.deleted hd
  refine h.frame (fun s hs => he.deletedServers ▸ hs) (server_evicted he) (fun l b hb => (he.lru l).subset hb)
    (fun l b _ => ?_) (fun b hb hy => ?_) fun l b hb hy => ?_
  · obtain ⟨_, hb, -⟩ := he.item b
    rw [hb]
  · obtain ⟨l, hl⟩ := hfiled b (he.items.subset hb) hy
    refine ⟨l, ?_⟩
    by_cases hu : InUse a m
    · rw [(hdel.used hu).2.1]
      exact hl
    · rw [(hdel.free hu).1] at hb
      rw [(hdel.free hu).2]
      exact List.mem_filter.mpr ⟨hl, (List.mem_filter.mp hb).2⟩
  by_cases hba : b = a
  · subst hba
    by_cases hu : InUse b m
    · rw [(hdel.used hu).2.2]
      exact .mark hu
    · rw [(hdel.free hu).2 l, List.mem_filter] at hb
      simp at hb
  · rw [hdel.item b hba]
    exact h.settled l b ((he.lru l).subset hb) (hx b hba hy)

theorem passbyItemDelete (h : Filed x m) (s p : Nat) : Filed x (m.serverPassbyItemDelete s p) :=
  (h.setServer (s := s) (y := { m.server s with passbyItemNr := (m.server s).passbyItemNr - 1 }) rfl rfl).same rfl
    (fun _ => ⟨rfl, rfl⟩) rfl ⟨rfl, rfl⟩

theorem expirePassbys {l : List Nat} {count : Nat} (h : Filed x m) : Filed x (m.expirePassbys s count l) := by
  induction l generalizing m count with
  | nil => exact h
  | cons p l ih =>
    unfold Master.expirePassbys
    simp only
    split
    · exact h
    · split
      · exact h.passbyItemDelete s p
      · exact ih (h.passbyItemDelete s p)

/-- With the invariant of the lists, which the deletions rely on. -/
def Kept (x : Option Nat) (m : Master) : Prop := Recent m ∧ Filed x m

theorem Kept.itemDelete (h : Kept x m) (hd : m.serverItemDelete rt a = some m') : Kept x m' :=
  ⟨h.1.serverItemDelete hd, h.2.serverItemDelete (fun _ _ hb => hb) h.2.filed h.1 hd⟩

theorem Kept.expirePassbys {l : List Nat} {count : Nat} (h : Kept x m) : Kept x (m.expirePassbys s count l) :=
  ⟨h.1.expirePassbys, h.2.expirePassbys⟩

theorem Kept.space {sp : Space} (h : Kept x m) (hsp : ItemsSame m.space sp) : Kept x { m with space := sp } :=
  ⟨h.1.space hsp, h.2.space hsp⟩

theorem evictions (rt : Runtime) (x : Option Nat) : Evictions rt (fun _ => True) (Kept x) :=
  ⟨fun _ _ _ => trivial, fun h _ hd => h.itemDelete hd, fun h => h.expirePassbys⟩

theorem steps (rt : Runtime) (x : Option Nat) : (Master.host rt).Steps (Kept x) :=
  ⟨fun h hs => h.space (.fblockDelete hs), fun h hd => h.itemDelete hd, fun h => h.space ⟨rfl, rfl⟩⟩

/-! ## Lookups -/

/-- What is in a list after item `a` has come to the head of one. -/
theorem mem_lruAdd {lru : Option Nat → List Nat} {head l : Option Nat} {b : Nat}
    (hb : b ∈ Function.update lru head (a :: lru head) l) : b = a ∧ l = head ∨ b ∈ lru l := by
  by_cases hl : l = head
  · subst hl
    rw [Function.update_self] at hb
    exact (List.mem_cons.mp hb).imp (⟨·, rfl⟩) id
  · rw [Function.update_of_ne hl] at hb
    exact .inr hb

/-- A server's items go to its own list, or to the shared one. -/
theorem serverLruHead_eq {y : Nat} (h : m.serverLruHead s = some y) : y = s := by
  unfold serverLruHead at h
  obtain ⟨-, h⟩ := Option.ite_none_right_eq_some.mp h
  exact (Option.some.inj h).symm

theorem mem_of_lruAdd {lru : Option Nat → List Nat} {head l : Option Nat} {b : Nat} (hb : b ∈ lru l) :
    b ∈ Function.update lru head (a :: lru head) l := by
  by_cases hl : l = head
  · subst hl
    rw [Function.update_self]
    exact List.mem_cons_of_mem a hb
  · rwa [Function.update_of_ne hl]

theorem hitItem (h : Filed none m) (hr : Recent m) {d : Nat} {id : HashId} (hdel : (m.space.item a).deleted = false)
    (hsi : (m.space.item a).serverIndex = (m.server s).index) {l : Option Nat} (ha : a ∈ m.lru l) :
    Filed none (m.hitItem s a d id) := by
  have hitem : ∀ b, ((m.hitItem s a d id).space.item b).serverIndex = (m.space.item b).serverIndex ∧
      (b ≠ a → (m.hitItem s a d id).space.item b = m.space.item b) := by
    intro b
    show (Function.update m.space.item a _ b).serverIndex = _ ∧ (_ → Function.update m.space.item a _ b = _)
    by_cases hb : b = a
    · subst hb
      rw [Function.update_self]
      exact ⟨rfl, fun hne => absurd rfl hne⟩
    · rw [Function.update_of_ne hb]
      exact ⟨rfl, fun _ => rfl⟩
  -- The item is not marked, so whatever the counter says it is settled.
  have hself : ((m.hitItem s a d id).space.item a).Settled := by
    have hbad := Bool.eq_false_iff.mpr fun hb => absurd (hdel.symm.trans ((h.settled l a ha nofun).bad hb)) (by simp)
    show (Function.update m.space.item a _ a).Settled
    rw [Function.update_self]
    exact .fresh hdel hbad
  have hmem : ∀ {l b}, b ∈ (m.hitItem s a d id).lru l → b = a ∧ l = m.serverLruHead s ∨ b ∈ m.lru l := by
    intro l b hb
    exact (mem_lruAdd hb).imp_right List.mem_of_mem_erase
  have hself' : ∀ {l}, a ∈ (m.hitItem s a d id).lru l → l = m.serverLruHead s := by
    intro l hl
    by_contra hne
    have hl : a ∈ Function.update (m.lruDel a).lru (m.serverLruHead s) _ l := hl
    rw [Function.update_of_ne hne] at hl
    exact (hr.ranked.nodup l).not_mem_erase hl
  refine ⟨h.retired, fun y b hb => ?_, fun l l' b hb hb' => ?_, fun b hb _ => ?_, fun l b hb _ => ?_⟩
  · rw [(hitem b).1]
    rcases hmem hb with ⟨rfl, hy⟩ | hb
    · rw [serverLruHead_eq hy.symm]
      exact hsi
    · exact h.owned y b hb
  · by_cases hba : b = a
    · subst hba
      exact (hself' hb).trans (hself' hb').symm
    · exact h.once l l' b ((hmem hb).resolve_left fun hb => hba hb.1) ((hmem hb').resolve_left fun hb => hba hb.1)
  · show ∃ l, b ∈ Function.update (m.lruDel a).lru (m.serverLruHead s) (a :: (m.lruDel a).lru (m.serverLruHead s)) l
    by_cases hba : b = a
    · exact ⟨m.serverLruHead s, by rw [hba, Function.update_self]; exact List.mem_cons_self⟩
    · obtain ⟨l, hl⟩ := h.filed b hb nofun
      exact ⟨l, mem_of_lruAdd ((List.mem_erase_of_ne hba).mpr hl)⟩
  · by_cases hba : b = a
    · rw [hba]
      exact hself
    · rw [(hitem b).2 hba]
      exact h.settled l b ((hmem hb).resolve_left fun hb => hba hb.1) nofun

theorem lookup (h : Filed x m) (s : Nat) (key : List UInt8) : Filed x (m.lookup rt s key).2 :=
  h.same rfl (fun _ => ⟨rfl, rfl⟩) rfl ⟨rfl, rfl⟩

theorem note {y : Happening} (h : Filed x m) : Filed x (m.note y) := h.same rfl (fun _ => ⟨rfl, rfl⟩) rfl ⟨rfl, rfl⟩

theorem getCase (h : Kept none m) {n : Option (HashNode Entry)} {o : Option Nat}
    (hn : ∀ id a, n = some ⟨id, .item a⟩ → m.Visible s a id) (hc : GetCase rt s n m o m') : Filed none m' := by
  cases hc with
  | miss | hidden => exact h.2
  | passby => exact h.2.same rfl (fun _ => ⟨rfl, rfl⟩) rfl ⟨rfl, rfl⟩
  | stale _ hd => exact (h.itemDelete hd).2
  | hit hdel =>
    obtain ⟨⟨l, ha⟩, -, -, hsi⟩ := hn _ _ rfl
    exact h.2.hitItem h.1 hdel hsi ha

theorem deleteCase (h : Kept none m) {n : Option (HashNode Entry)} {found : Bool} (hc : DeleteCase rt s n m found m') :
    Filed none m' := by
  cases hc with
  | miss => exact h.2
  | passby => exact h.2.passbyItemDelete ..
  | item hd => exact (h.itemDelete hd).2

/-! ## Stores -/

theorem passbyStore (h : Filed x m) {id : HashId} {ok : Bool} (hp : m.serverPassbyStore rt s id = (ok, m')) :
    Filed x m' := by
  unfold serverPassbyStore at hp
  simp only at hp
  split at hp
  · cases hp
    exact h
  split at hp
  · cases hp
    exact h.same rfl (fun _ => ⟨rfl, rfl⟩) rfl ⟨rfl, rfl⟩
  · cases hp
    exact (h.setServer (s := s) (y := { m.server s with passbyItemNr := (m.server s).passbyItemNr + 1 }) rfl rfl).same rfl
      (fun _ => ⟨rfl, rfl⟩) rfl ⟨rfl, rfl⟩

theorem freed (h : Kept none m) {id : HashId} {n : Option (HashNode Entry)} (hf : Freed rt s id n m m')  : Kept none m' := by
  refine ⟨h.1.freed hf, ?_⟩
  cases hf with
  | absent hp => exact h.2.passbyStore hp
  | passby => exact h.2.passbyItemDelete ..
  | item hd => exact (h.itemDelete hd).2

/-- Whatever happens to an item that is in no list. -/
theorem absent {y : Option Nat} (h : Filed x m) (hx : x = none ∨ x = some a) (ha : Absent a m)
    (hret : m'.deletedServers = m.deletedServers) (hserver : m'.server = m.server) (hlru : m'.lru = m.lru)
    (hitem : ∀ b, b ≠ a → m'.space.item b = m.space.item b)
    (hitems : ∀ b ∈ m'.space.items, some b ≠ y → b ∈ m.space.items ∧ b ≠ a) : Filed y m' := by
  have hne : ∀ b, b ≠ a → some b ≠ x := by
    intro b hb hbx
    rcases hx with rfl | rfl
    · cases hbx
    · exact hb (Option.some.inj hbx)
  have hba : ∀ l, ∀ b ∈ m.lru l, b ≠ a := fun l b hb he => ha l (he ▸ hb)
  have hb : ∀ l, ∀ b ∈ m.lru l, m'.space.item b = m.space.item b := fun l b hb => hitem b (hba l b hb)
  refine h.frame (fun s hs => hret ▸ hs) (fun s => by rw [hserver]; exact ⟨rfl, rfl⟩) (fun l b hb => hlru ▸ hb)
    (fun l b hm => by rw [hb l b (hlru ▸ hm)]) (fun b hm hy => ?_) fun l b hm _ => ?_
  · obtain ⟨hm, hne'⟩ := hitems b hm hy
    rw [hlru]
    exact h.filed b hm (hne b hne')
  · rw [hb l b (hlru ▸ hm)]
    exact h.settled l b (hlru ▸ hm) (hne b (hba l b (hlru ▸ hm)))

/-- Item `a` is linked, at the head of a list of its server. -/
theorem insert (h : Filed x m) (hx : x = none ∨ x = some a) (ha : Absent a m) (hret : m'.deletedServers = m.deletedServers)
    (hserver : ∀ s, (m'.server s).index = (m.server s).index ∧ (m'.server s).deleted = (m.server s).deleted)
    (hitem : ∀ b, b ≠ a → m'.space.item b = m.space.item b) (hset : (m'.space.item a).Settled)
    (hitems : ∀ b ∈ m'.space.items, b = a ∨ b ∈ m.space.items)
    (hsi : (m'.space.item a).serverIndex = (m.server s).index)
    (hlru : m'.lru = Function.update m.lru (m.serverLruHead s) (a :: m.lru (m.serverLruHead s))) : Filed none m' := by
  have hmem : ∀ {l b}, b ∈ m'.lru l → b = a ∧ l = m.serverLruHead s ∨ b ∈ m.lru l ∧ m'.space.item b = m.space.item b := by
    intro l b hb
    rw [hlru] at hb
    exact (mem_lruAdd hb).imp id fun hb => ⟨hb, hitem b fun he => ha l (he ▸ hb)⟩
  have hne : ∀ b, b ≠ a → some b ≠ x := by
    intro b hb hbx
    rcases hx with rfl | rfl
    · cases hbx
    · exact hb (Option.some.inj hbx)
  refine ⟨fun s hs => ?_, fun y b hb => ?_, fun l l' b hb hb' => ?_, fun b hb _ => ?_, fun l b hb _ => ?_⟩
  · rw [(hserver s).2]
    exact h.retired s (hret ▸ hs)
  · rw [(hserver y).1]
    rcases hmem hb with ⟨rfl, hy⟩ | ⟨hb, he⟩
    · rw [serverLruHead_eq hy.symm]
      exact hsi
    · rw [he]
      exact h.owned y b hb
  · rcases hmem hb with ⟨rfl, rfl⟩ | ⟨hb, -⟩
    · rcases hmem hb' with ⟨-, rfl⟩ | ⟨hb', -⟩
      · rfl
      · exact absurd hb' (ha l')
    · rcases hmem hb' with ⟨rfl, -⟩ | ⟨hb', -⟩
      · exact absurd hb (ha l)
      · exact h.once l l' b hb hb'
  · rw [hlru]
    by_cases hba : b = a
    · exact ⟨m.serverLruHead s, by rw [hba, Function.update_self]; exact List.mem_cons_self⟩
    · obtain ⟨l, hl⟩ := h.filed b ((hitems b hb).resolve_left hba) (hne b hba)
      exact ⟨l, mem_of_lruAdd hl⟩
  · rcases hmem hb with ⟨rfl, -⟩ | ⟨hb, he⟩
    · exact hset
    · rw [he]
      exact h.settled l b hb (hne b fun he => ha l (he ▸ hb))

/-- In the search for a block of item `a` of server `s`. -/
def Searching (s a : Nat) (m : Master) : Prop := Recent.Searching s a m ∧ Filed (some a) m

theorem Searching.located {sp : Space} (h : Searching s a m) (hsp : Located a m.space sp) :
    Searching s a { m with space := sp } := by
  refine ⟨h.1.located hsp, h.2.absent (.inr rfl) h.1.2.1 rfl rfl rfl (fun b hb => ?_) fun b hb hba => ?_⟩
  · obtain ⟨_, _, hitem⟩ := hsp.item
    show sp.item b = _
    rw [hitem, Function.update_of_ne hb]
  · have hba : b ≠ a := fun he => hba (congrArg some he)
    rcases hsp.items with he | ⟨-, he⟩
    · exact ⟨he ▸ hb, hba⟩
    · exact ⟨(List.mem_cons.mp (he ▸ hb)).resolve_left hba, hba⟩

theorem Searching.kept (h : Searching s a m) : Kept (some a) m := ⟨h.1.1, h.2⟩

theorem Searching.evicted (h : Searching s a m) (hk : Kept (some a) m') (he : Evicted m m') : Searching s a m' :=
  ⟨h.1.evicted hk.1 he, hk.2⟩

theorem Searching.tryAgain {m₁ : Master} {fuel tries k : Nat} (h : Searching s a m)
    (ht : m.tryAgain rt s a fuel tries = some (k, m₁)) : Searching s a m₁ := by
  have hev : Evictions rt (fun _ => True) (Searching s a) :=
    ⟨fun _ _ _ => trivial, fun h _ hd => h.evicted (h.kept.itemDelete hd) (.serverItemDelete hd),
      fun h => h.evicted h.kept.expirePassbys .expirePassbys⟩
  rcases hev.tryAgain (fun h hg => h.located (Space.getFreeBlock_located hg).1)
    (fun h he => h.evicted ((steps rt _).deviceFreeBlockExtend h.kept he) ((Evicted.steps rt _).deviceFreeBlockExtend (.refl _) he))
    h ht with ⟨-, h₁⟩ | ⟨-, m₂, sp, h₂, hg, rfl⟩
  · exact h₁
  · exact h₂.located (Space.getFreeBlock_located hg).1

theorem draft (h : Kept none m) (hs : s < m.serverTotal) {t : Nat} (ha : rt.al.get t m.space.items = some a)
    (length headersLen : Nat) : Searching s a (m.draft a length headersLen) := by
  refine ⟨h.1.draft hs ha length headersLen, h.2.absent (.inl rfl) (h.1.absent_of_get ha) rfl rfl rfl
    (fun _ hb => Function.update_of_ne hb ..) fun b hb hba => ⟨hb, fun he => hba (congrArg some he)⟩⟩

/-- Counters of a server are none of the fields. -/
theorem server_update {f : Nat → Server} {y : Server} (hi : y.index = (f s).index) (hd : y.deleted = (f s).deleted) (z : Nat) :
    (Function.update f s y z).index = (f z).index ∧ (Function.update f s y z).deleted = (f z).deleted := by
  by_cases hz : z = s
  · rw [hz, Function.update_self]
    exact ⟨hi, hd⟩
  · rw [Function.update_of_ne hz]
    exact ⟨rfl, rfl⟩

theorem storeCase (h : Kept none m) (hs : s < m.serverTotal) {id : HashId} {length headersLen : Nat} {expire : Int}
    {rc : PutRc} (hc : StoreCase rt s id length headersLen expire m rc m') : Filed none m' := by
  cases hc with
  | noMem => exact h.2.same rfl (fun _ => ⟨rfl, rfl⟩) rfl ⟨rfl, rfl⟩
  | @noSpace a m₁ ha ht =>
    have h₁ := (draft h hs ha ..).tryAgain ht
    refine h₁.2.absent (.inr rfl) h₁.1.2.1 rfl rfl rfl (fun _ _ => rfl) fun b hb _ => ?_
    obtain ⟨hb, hba⟩ := List.mem_filter.mp hb
    exact ⟨hb, by simpa using hba⟩
  | @ok a d k m₁ ha ht =>
    have h₁ := (draft h hs ha ..).tryAgain ht
    refine h₁.2.insert (s := s) (.inr rfl) h₁.1.2.1 rfl (server_update rfl rfl) (fun b hb => Function.update_of_ne hb ..) ?_
      (fun _ hb => .inr hb) ?_ rfl
    · rw [admitted_item]
      exact .fresh rfl rfl
    · rw [admitted_item]

theorem putCase (h : Kept none m) (hs : s < m.serverTotal) {buffer : List UInt8} {r : Request} {rc : PutRc}
    (hc : PutCase rt s buffer r m rc m') : Filed none m' := by
  have hl : ∀ key, Kept none (m.lookup rt s key).2 := fun key => ⟨h.1.lookup s key, h.2.lookup s key⟩
  cases hc with
  | declined => exact h.2
  | passby _ _ hp => exact (hl _).2.passbyStore hp
  | exist => exact (hl _).2
  | store _ _ hf hst =>
    have htotal := Recent.freed_serverTotal hf
    exact storeCase (freed (hl _) hf) (htotal ▸ hs) hst

theorem callCase (h : Kept none m) (hs : s ∈ m.allServers) {buffer : List UInt8} {r : Request} {o : Outcome} {x : Option Nat}
    (hc : CallCase rt s buffer r m o x m') : Filed none m' := by
  cases hc with
  | get _ hg =>
    obtain ⟨key, -, hc⟩ := serverRequestGetHandler_cases hg
    exact getCase ⟨h.1.lookup s key, h.2.lookup s key⟩ (fun id a hn => h.1.lookup_visible hs hn) hc
  | store _ hp | refused _ _ hp => exact putCase h (h.1.table.total s hs) (serverRequestPutHandler_cases hp)
  | delete _ hd =>
    obtain ⟨key, -, hc⟩ := serverRequestDeleteHandler_cases hd
    exact deleteCase ⟨(h.1.lookup s key).note fun _ => rfl, (h.2.lookup s key).note⟩ hc

/-! ## The end of a request, and loading -/

theorem release (h : Filed none m) (a d : Nat) (diskError : Bool) : Filed (some a) (m.release a d diskError) := by
  have hitem : ∀ b, b ≠ a → (m.release a d diskError).space.item b = m.space.item b := fun b hb => Function.update_of_ne hb ..
  refine h.frame (fun _ hs => hs) (fun _ => ⟨rfl, rfl⟩) (fun _ _ hb => hb) (fun l b hb => ?_) (fun b hb _ => h.filed b hb nofun)
    fun l b hb hba => ?_
  · by_cases hba : b = a
    · subst hba
      show (Function.update m.space.item b _ b).serverIndex = _
      rw [Function.update_self]
      unfold released
      cases (m.space.item b).putting <;> cases diskError <;> rfl
    · rw [hitem b hba]
  · rw [hitem b fun he => hba (he ▸ rfl)]
    exact h.settled l b hb nofun

/-- A released item that is not deleted is settled. -/
theorem release_settled (h : Filed none m) {d : Nat} {l : Option Nat} (ha : a ∈ m.lru l) (hdel : (m.space.item a).deleted = false) :
    ((m.release a d false).space.item a).Settled := by
  have hset := h.settled l a ha nofun
  have hbad : (m.space.item a).badblock = false :=
    Bool.eq_false_iff.mpr fun hb => absurd (hdel.symm.trans (hset.bad hb)) (by simp)
  show (Function.update m.space.item a _ a).Settled
  rw [Function.update_self]
  refine .fresh ((released_deleted _ _).trans hdel) ?_
  unfold released
  cases (m.space.item a).putting <;> exact hbad

theorem finalizeCase (h : Kept none m) {processSize : Nat} {diskError : Bool}
    (hc : FinalizeCase rt a processSize diskError m m') : Filed none m' := by
  -- When the item stays, it is not marked.
  have hstays : ∀ d, (m.space.item a).deleted = false → Filed none (m.release a d false) := by
    intro d hdel
    have hrel := h.2.release a d false
    refine ⟨hrel.retired, hrel.owned, hrel.once, h.2.filed, fun l b hb _ => ?_⟩
    by_cases hba : b = a
    · subst hba
      exact h.2.release_settled (d := d) hb hdel
    · exact hrel.settled l b hb fun he => hba (Option.some.inj he)
  cases hc with
  | delete _ _ _ hd =>
    refine (h.2.release a _ diskError).serverItemDelete (fun b hb _ he => hb (Option.some.inj he)) h.2.filed
      (h.1.release a _ diskError) hd
  | finished _ _ he hdel =>
    subst he
    exact (hstays _ hdel).note
  | sent _ _ he hdel =>
    subst he
    exact hstays _ hdel

theorem loadCase (h : Kept none m) {d : Nat} {x : FormatItem} (hc : LoadCase rt s d x m m') : Filed none m' := by
  cases hc with
  | noMem => exact h.2.same rfl (fun _ => ⟨rfl, rfl⟩) rfl ⟨rfl, rfl⟩
  | @noFit a sp ha hcut =>
    obtain ⟨hitem, hitems⟩ := Space.deviceCutFreeBlock_located hcut
    refine h.2.absent (.inl rfl) (h.1.absent_of_get ha) rfl rfl rfl (fun b hb => ?_) fun b hb _ => ?_
    · show sp.item b = _
      rw [hitem]
      exact Function.update_of_ne hb ..
    · obtain ⟨hb, hba⟩ := List.mem_filter.mp hb
      have hba : b ≠ a := by simpa using hba
      rcases hitems with ⟨-, hi⟩ | ⟨-, -, hi⟩
      · exact ⟨hi ▸ hb, hba⟩
      · exact ⟨(List.mem_cons.mp (hi ▸ hb)).resolve_left hba, hba⟩
  | @ok a k sp ha hcut hk =>
    obtain ⟨hitem, hitems⟩ := Space.deviceCutFreeBlock_located hcut
    have hself : (({ m.loadDraft s d a x with space := sp } : Master).enter rt s d a k x).space.item a =
        { (m.loadDraft s d a x).space.item a with id := x.hashId } := by
      rw [← hitem]
      exact Function.update_self ..
    have hdraft : (m.loadDraft s d a x).space.item a = { m.space.item a with
        putting := false, badblock := false, deleted := false, used := 0, clear := 0
        serverIndex := (m.server s).index, length := x.length, expire := x.expire, headersLen := x.headersLen
        offset := (x.offset % (2 ^ 40 : Nat)).toNat, deviceIndex := (m.space.device d).index } := Function.update_self ..
    refine h.2.insert (s := s) (.inl rfl) (h.1.absent_of_get ha) rfl (server_update rfl rfl) (fun b hb => ?_) ?_ (fun b hb => ?_) ?_ rfl
    · show Function.update sp.item a _ b = _
      rw [Function.update_of_ne hb, hitem]
      exact Function.update_of_ne hb ..
    · rw [hself, hdraft]
      exact .fresh rfl rfl
    · rcases hitems with ⟨hz, -⟩ | ⟨-, -, hi⟩
      · exact absurd hz hk
      · exact List.mem_cons.mp (hi ▸ hb)
    · rw [hself, hdraft]

/-! ## Servers -/

theorem serverDelete (h : Filed x m) (s : Nat) : Filed x (m.serverDelete s) := by
  have hserver : ∀ y, ((m.serverDelete s).server y).index = (m.server y).index ∧
      (((m.serverDelete s).server y).deleted = true ↔ y = s ∨ (m.server y).deleted = true) := by
    intro y
    show (Function.update m.server s _ y).index = _ ∧ ((Function.update m.server s _ y).deleted = true ↔ _)
    by_cases hy : y = s
    · subst hy
      rw [Function.update_self]
      simp
    · rw [Function.update_of_ne hy]
      simp [hy]
  refine ⟨fun y hy => (hserver y).2.mpr ?_, fun y a ha => ?_, h.once, h.filed, h.settled⟩
  · exact (List.mem_cons.mp hy).imp id (h.retired y)
  · rw [(hserver y).1]
    exact h.owned y a ha

theorem serverUpdate {conf : ServerConf} (h : Filed x m) (s : Nat) : Filed x (m.serverUpdate s conf) :=
  h.same rfl (server_update rfl rfl) rfl ⟨rfl, rfl⟩

theorem serverCreate {conf : ServerConf} (h : Kept none m) (hc : m.serverCreate conf = some m') : Filed none m' := by
  unfold Master.serverCreate at hc
  obtain ⟨⟨i, t⟩, -, hc⟩ := Option.bind_eq_some_iff.mp hc
  obtain ⟨hash, -, hc⟩ := Option.bind_eq_some_iff.mp hc
  cases hc
  have hmem : ∀ {l b}, b ∈ Function.update m.lru (some m.serverTotal) [] l → l ≠ some m.serverTotal ∧ b ∈ m.lru l := by
    intro l b hb
    by_cases hl : l = some m.serverTotal
    · rw [hl, Function.update_self] at hb
      cases hb
    · rw [Function.update_of_ne hl] at hb
      exact ⟨hl, hb⟩
  refine ⟨fun y hy => ?_, fun y b hb => ?_, fun l l' b hb hb' => h.2.once l l' b (hmem hb).2 (hmem hb').2, fun b hb hx => ?_,
    fun l b hb hx => h.2.settled l b (hmem hb).2 hx⟩
  · have hne := (h.1.table.total y (List.mem_append_right _ hy)).ne
    show (Function.update m.server m.serverTotal _ y).deleted = true
    rw [Function.update_of_ne hne]
    exact h.2.retired y hy
  · obtain ⟨hne, hb⟩ := hmem hb
    show _ = (Function.update m.server m.serverTotal _ y).index
    rw [Function.update_of_ne fun he => hne (congrArg some he)]
    exact h.2.owned y b hb
  · obtain ⟨l, hl⟩ := h.2.filed b hb hx
    have hne : l ≠ some m.serverTotal := by
      intro he
      rw [he, h.1.unborn m.serverTotal (Nat.le_refl _)] at hl
      cases hl
    refine ⟨l, ?_⟩
    show b ∈ Function.update m.lru (some m.serverTotal) [] l
    rw [Function.update_of_ne hne]
    exact hl

theorem serverConfLoad {plan : List ServerPlan} (h : Kept none m) (hplan : ServerPlanOk m plan)
    (hl : m.serverConfLoad plan = some m') : Kept none m' :=
  serverConfLoad_rule (P := Kept none) (fun _ h => (List.nodup_append.mp h.1.table.nodup).1)
    (fun h hs => ⟨h.1.serverDelete hs, h.2.serverDelete _⟩) (fun h hs => ⟨h.1.serverUpdate hs, h.2.serverUpdate _⟩)
    (fun h hc => ⟨h.1.serverCreate hc, serverCreate h hc⟩) hplan h hl

theorem frees (x : Option Nat) : Evictions.Frees (Kept x) where
  nodup h := Recent.frees.nodup h.1
  free h hs ht hi hp := ⟨Recent.frees.free h.1 hs ht hi hp, h.2.frame (fun _ hy => List.mem_of_mem_erase hy)
    (fun _ => ⟨rfl, rfl⟩) (fun _ _ hb => hb) (fun _ _ _ => rfl) h.2.filed h.2.settled⟩

end Filed

/-- **One step** of the master. -/
theorem masterStep_filed {rt : Runtime} {m m' : Master} {e : MasterEvent} (hk : Filed.Kept none m)
    (h : masterStep rt m e = some m') : Filed.Kept none m' := by
  refine ⟨masterStep_recent hk.1 h, ?_⟩
  cases e with
  | tick now =>
    obtain ⟨-, h⟩ := Option.ite_none_right_eq_some.mp h
    cases h
    exact hk.2.same rfl (fun _ => ⟨rfl, rfl⟩) rfl ⟨rfl, rfl⟩
  | accept s r old buffer total =>
    obtain ⟨-, h⟩ := Option.ite_none_right_eq_some.mp h
    cases h
    exact hk.2.same rfl (Filed.server_update rfl rfl) rfl ⟨rfl, rfl⟩
  | conn r e =>
    obtain ⟨-, h⟩ := Option.ite_none_right_eq_some.mp h
    obtain ⟨c, -, rfl⟩ := Option.map_eq_some_iff.mp h
    exact hk.2.same rfl (fun _ => ⟨rfl, rfl⟩) rfl ⟨rfl, rfl⟩
  | handle r dispatch send =>
    obtain ⟨⟨-, hs⟩, h⟩ := Option.ite_none_right_eq_some.mp h
    rcases handle_cases h with ⟨o, x, m₁, c, -, hc, -, rfl⟩ | ⟨o, rc, c, -, -, -, rfl⟩
    · exact (Filed.callCase hk hs hc).same rfl (fun _ => ⟨rfl, rfl⟩) rfl ⟨rfl, rfl⟩
    · exact hk.2.same rfl (fun _ => ⟨rfl, rfl⟩) rfl ⟨rfl, rfl⟩
  | finish r =>
    obtain ⟨-, h⟩ := Option.ite_none_right_eq_some.mp h
    obtain ⟨m₁, hf, hm⟩ := requestDoFinalize_cases h
    have h₁ : Filed none m₁ := by
      unfold Finalized at hf
      split at hf
      · rw [hf]
        exact hk.2
      · exact Filed.finalizeCase hk hf
    rcases hm with ⟨-, rfl⟩ | ⟨-, rfl⟩
    · exact h₁.same rfl (Filed.server_update rfl rfl) rfl ⟨rfl, rfl⟩
    · exact h₁.same rfl (fun _ => ⟨rfl, rfl⟩) rfl ⟨rfl, rfl⟩
  | clear port =>
    obtain ⟨s, -, rfl⟩ := Option.map_eq_some_iff.mp h
    exact hk.2.same rfl (Filed.server_update rfl rfl) rfl ⟨rfl, rfl⟩
  | reload env conf =>
    unfold masterStep at h
    simp only at h
    split at h
    · next devices servers _ hplan =>
      unfold confLoad at h
      obtain ⟨sp, hsp, h⟩ := Option.bind_eq_some_iff.mp h
      have hplan := (serverConfCheck_ok hplan).1
      have hsame := ItemsSame.deviceConfLoad hsp
      exact (Filed.serverConfLoad (hk.space hsame) ⟨hplan.ports, hplan.existing, hplan.count⟩ h).2
    · cases h
  | load d io image =>
    obtain ⟨-, h⟩ := Option.ite_none_right_eq_some.mp h
    obtain ⟨⟨ok, image', m₁⟩, h₁, rfl⟩ := Option.map_eq_some_iff.mp h
    refine (formatLoadDevice_rule (P := Filed.Kept none) (fun hk hs hx => ?_)
      (fun hk hp => hk.space (.loadPost hp)) hk h₁).2
    have hc := serverLoadFmItem_cases hx
    exact ⟨hk.1.loadCase (hk.1.table.total _ (List.mem_append_left _ hs)) hc, Filed.loadCase hk hc⟩
  | serverRoutine => exact ((Filed.evictions rt none).serverRoutine (Filed.frees none) hk h).2
  | deviceRoutine => exact ((Filed.steps rt none).deviceRoutine hk h).2

/-- **Every run.** -/
theorem filed_run {rt : Runtime} {m : Master} (h : (masterSystem rt).Reachable m) : Filed.Kept none m := by
  refine System.Reach.invariant (I := Filed.Kept none) (fun m hm => ?_) (fun m e m' _ hk _ hn => ?_) h
  · refine ⟨recent_run (.init hm), ?_⟩
    obtain ⟨now, rfl⟩ := hm
    exact ⟨nofun, nofun, nofun, nofun, nofun⟩
  · exact masterStep_filed hk hn.1

end Master

end OliveHc
