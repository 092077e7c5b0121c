/-
Which items are evicted: the lists of `server.c` are ordered by the last
access, in every state of the program, also within a step.

The time of an access is its place in the history of the run (`log`). An
item is named there by its number; the items in the lists have different
ones. What a hash leads to is in a list and not marked as deleted, so that
a hit moves an item that is there.
-/
import OliveHc.Master.Steps
import OliveHc.Reload.Plan

namespace OliveHc

/-! ## Accesses -/

/-- A store, a load or a hit of the item with number `n`. -/
def Happening.accesses (n : Nat) : Happening → Bool
  | .created k _ _ _ | .loaded k _ _ _ | .hit k _ _ => n == k
  | .finished _ | .deleted _ _ | .cleared _ => false

/-- How many happenings there were up to the last access to the item. -/
def lastAccess (n : Nat) : List Happening → Nat
  | [] => 0
  | x :: log => if x.accesses n then log.length + 1 else lastAccess n log

theorem lastAccess_le (n : Nat) (log : List Happening) : lastAccess n log ≤ log.length := by
  induction log with
  | nil => exact Nat.le_refl 0
  | cons x log ih =>
    rw [lastAccess, List.length_cons]
    split
    · exact Nat.le_refl _
    · exact Nat.le_succ_of_le ih

/-- Lists of items with different numbers, each ordered by the last access. -/
structure Ranked {ι : Type} (lru : ι → List Nat) (number : Nat → Nat) (log : List Happening) : Prop where
  bound : ∀ l, ∀ a ∈ lru l, number a < log.length
  inj : ∀ l l', ∀ a ∈ lru l, ∀ b ∈ lru l', number a = number b → a = b
  ordered : ∀ l, (lru l).Pairwise fun a b => lastAccess (number b) log < lastAccess (number a) log

namespace Ranked

variable {ι : Type} {lru lru' : ι → List Nat} {number : Nat → Nat} {log : List Happening}

theorem nodup (h : Ranked lru number log) (l : ι) : (lru l).Nodup := by
  refine List.Pairwise.imp (fun {a b} hlt hab => ?_) (h.ordered l)
  rw [hab] at hlt
  exact Nat.lt_irrefl _ hlt

theorem sub (h : Ranked lru number log) (hs : ∀ l, (lru' l).Sublist (lru l)) : Ranked lru' number log :=
  ⟨fun l a ha => h.bound l a ((hs l).subset ha),
    fun l l' a ha b hb => h.inj l l' a ((hs l).subset ha) b ((hs l').subset hb),
    fun l => (h.ordered l).sublist (hs l)⟩

/-- Something happens that is no access. -/
theorem quiet (h : Ranked lru number log) {x : Happening} (hx : ∀ n, x.accesses n = false) :
    Ranked lru number (x :: log) := by
  refine ⟨fun l a ha => Nat.lt_succ_of_lt (h.bound l a ha), h.inj, fun l => ?_⟩
  refine (h.ordered l).imp fun {a b} hlt => ?_
  simpa only [lastAccess, hx, Bool.false_eq_true, if_false] using hlt

/-- An access to an item that is in no list, and becomes the newest of one. -/
theorem push [DecidableEq ι] (h : Ranked lru number log) {x : Happening} {a n : Nat} (head : ι)
    (hx : ∀ k, x.accesses k = (k == n)) (hn : n < log.length + 1) (ha : ∀ l, a ∉ lru l)
    (hne : ∀ l, ∀ b ∈ lru l, number b ≠ n) :
    Ranked (Function.update lru head (a :: lru head)) (Function.update number a n) (x :: log) := by
  have hmem : ∀ l b, b ∈ Function.update lru head (a :: lru head) l → b = a ∨ b ∈ lru l := by
    intro l b hb
    by_cases hl : l = head
    · subst hl
      rw [Function.update_self] at hb
      exact List.mem_cons.mp hb
    · rw [Function.update_of_ne hl] at hb
      exact .inr hb
  have hold : ∀ l, ∀ b ∈ lru l, b ≠ a := fun l b hb he => ha l (he ▸ hb)
  have hnum : ∀ l, ∀ b ∈ lru l, Function.update number a n b = number b := fun l b hb =>
    Function.update_of_ne (hold l b hb) ..
  -- The other items keep their last accesses, which were before.
  have hlast : ∀ l, ∀ b ∈ lru l, lastAccess (Function.update number a n b) (x :: log) = lastAccess (number b) log := by
    intro l b hb
    rw [hnum l b hb, lastAccess, hx, if_neg (by simpa using hne l b hb)]
  refine ⟨fun l b hb => ?_, fun l l' b hb c hc hbc => ?_, fun l => ?_⟩
  · rcases hmem l b hb with rfl | hb
    · rw [Function.update_self]
      exact hn
    · rw [hnum l b hb]
      exact Nat.lt_succ_of_lt (h.bound l b hb)
  · rcases hmem l b hb with rfl | hb' <;> rcases hmem l' c hc with rfl | hc'
    · rfl
    · rw [Function.update_self, hnum l' c hc'] at hbc
      exact absurd hbc.symm (hne l' c hc')
    · rw [Function.update_self, hnum l b hb'] at hbc
      exact absurd hbc (hne l b hb')
    · rw [hnum l b hb', hnum l' c hc'] at hbc
      exact h.inj l l' b hb' c hc' hbc
  · have htail : (lru l).Pairwise fun b c => lastAccess (Function.update number a n c) (x :: log) <
        lastAccess (Function.update number a n b) (x :: log) := by
      refine List.Pairwise.imp_of_mem (fun {b c} hb hc hlt => ?_) (h.ordered l)
      rw [hlast l b hb, hlast l c hc]
      exact hlt
    by_cases hl : l = head
    · subst hl
      rw [Function.update_self]
      refine List.pairwise_cons.mpr ⟨fun b hb => ?_, htail⟩
      rw [hlast l b hb, Function.update_self, lastAccess, hx, if_pos (by simp)]
      exact Nat.lt_succ_of_le (lastAccess_le _ _)
    · rw [Function.update_of_ne hl]
      exact htail

end Ranked

/-! ## The table of the servers -/

namespace Master

/-- Every server has a slot of its own, unless there was none left. -/
structure TableInv (m : Master) : Prop where
  nodup : m.allServers.Nodup
  total : ∀ s ∈ m.allServers, s < m.serverTotal
  slot : ∀ s ∈ m.allServers, (m.server s).index = -1 ∨ m.serverIndexs.get (m.server s).index = some s

namespace TableInv

variable {m m' : Master} {s : Nat}

/-- The slot of a server leads to no other one. -/
theorem eq_of_get (h : TableInv m) (hs : s ∈ m.allServers) {x : Nat}
    (hx : m.serverIndexs.get (m.server s).index = some x) : x = s := by
  rcases h.slot s hs with hi | hi
  · rw [hi, IdxPointer.get_neg_one] at hx
    cases hx
  · exact Option.some.inj (hx.symm.trans hi)

theorem perm (h : TableInv m) (hp : m'.allServers.Perm m.allServers) (hi : ∀ s, (m'.server s).index = (m.server s).index)
    (ht : m'.serverIndexs = m.serverIndexs) (hn : m'.serverTotal = m.serverTotal) : TableInv m' := by
  refine ⟨hp.nodup_iff.mpr h.nodup, fun s hs => hn ▸ h.total s (hp.subset hs), fun s hs => ?_⟩
  rw [hi, ht]
  exact h.slot s (hp.subset hs)

theorem evicted (h : TableInv m) (he : Evicted m m') : TableInv m' := by
  refine h.perm (by rw [allServers, he.servers, he.deletedServers, allServers]) (fun s => ?_) he.serverIndexs he.serverTotal
  obtain ⟨_, _, _, _, hs⟩ := he.server s
  rw [hs]

theorem delete (h : TableInv m) (hs : s ∈ m.servers) : TableInv (m.serverDelete s) := by
  refine h.perm (((List.perm_cons_erase hs).append_right _).trans List.perm_middle.symm).symm (fun x => ?_) rfl rfl
  show (Function.update m.server s _ x).index = _
  by_cases hx : x = s
  · rw [hx, Function.update_self]
  · rw [Function.update_of_ne hx]

theorem update {conf : ServerConf} (h : TableInv m) (hs : s ∈ m.servers) : TableInv (m.serverUpdate s conf) := by
  refine h.perm (((List.perm_cons_erase hs).trans (List.perm_append_singleton s _).symm).append_right _).symm
    (fun x => ?_) rfl rfl
  show (Function.update m.server s _ x).index = _
  by_cases hx : x = s
  · rw [hx, Function.update_self]
  · rw [Function.update_of_ne hx]

theorem mem_create {conf : ServerConf} (hc : m.serverCreate conf = some m') {x : Nat} (hx : x ∈ m'.allServers) :
    x = m.serverTotal ∨ x ∈ m.allServers := by
  unfold serverCreate at hc
  obtain ⟨_, -, hc⟩ := Option.bind_eq_some_iff.mp hc
  obtain ⟨_, -, hc⟩ := Option.bind_eq_some_iff.mp hc
  cases hc
  simp only [allServers, List.mem_append, List.mem_singleton] at hx ⊢
  tauto

theorem create {conf : ServerConf} (h : TableInv m) (hc : m.serverCreate conf = some m') : TableInv m' := by
  obtain ⟨hsrv, htot, -, hkeep, -, hidx⟩ := serverCreate_frame hc
  have hall := fun x (hx : x ∈ m'.allServers) => mem_create hc hx
  have hdel : m'.deletedServers = m.deletedServers := by
    unfold serverCreate at hc
    obtain ⟨_, -, hc⟩ := Option.bind_eq_some_iff.mp hc
    obtain ⟨_, -, hc⟩ := Option.bind_eq_some_iff.mp hc
    cases hc
    rfl
  refine ⟨?_, fun x hx => ?_, fun x hx => ?_⟩
  · rw [allServers, hsrv, hdel]
    exact ((List.perm_append_singleton _ _).append_right _).symm.nodup
      (List.nodup_cons.mpr ⟨fun hmem => Nat.lt_irrefl _ (h.total _ hmem), h.nodup⟩)
  · rw [htot]
    rcases hall x hx with rfl | hx
    · exact Nat.lt_succ_self _
    · exact Nat.lt_succ_of_lt (h.total x hx)
  · rcases hall x hx with rfl | hx
    · exact (IdxPointer.add_cases hidx).imp (·.1) (·.2.2.2.1)
    · rw [hkeep x (h.total x hx).ne]
      exact (h.slot x hx).imp id (IdxPointer.add_extends hidx _ _)

/-- A server is freed with its slot. -/
theorem destroy {t : IdxPointer} (h : TableInv m) (hs : s ∈ m.deletedServers)
    (ht : m.serverIndexs.delete (m.server s).index = some t) :
    TableInv { m with deletedServers := m.deletedServers.erase s, serverIndexs := t } := by
  obtain ⟨-, hdn, hdisj⟩ := List.nodup_append.mp h.nodup
  have hmem : ∀ x ∈ m.servers ++ m.deletedServers.erase s, x ∈ m.allServers ∧ x ≠ s := by
    intro x hx
    rcases List.mem_append.mp hx with hx | hx
    · exact ⟨List.mem_append_left _ hx, fun he => hdisj x hx s hs he⟩
    · exact ⟨List.mem_append_right _ (List.mem_of_mem_erase hx), (hdn.mem_erase_iff.mp hx).1⟩
  refine ⟨h.nodup.sublist (List.Sublist.append_left List.erase_sublist _), fun x hx => h.total x (hmem x hx).1,
    fun x hx => ?_⟩
  obtain ⟨hx, hne⟩ := hmem x hx
  refine (h.slot x hx).imp id fun hget => ?_
  show t.get (m.server x).index = some x
  rw [IdxPointer.get_delete ht, if_neg fun hi => ?_, hget]
  -- Two servers with one index would be the same.
  rw [hi] at hget
  exact hne (h.eq_of_get (List.mem_append_right _ hs) hget)

end TableInv

/-! ## The items of the lists -/

/-- What a hash of the master has is in a list, and visible under its id. -/
def Visible (m : Master) (s a : Nat) (id : HashId) : Prop :=
  (∃ l, a ∈ m.lru l) ∧ (m.space.item a).deleted = false ∧ (m.space.item a).id = id ∧
    (m.space.item a).serverIndex = (m.server s).index

/-- The hashes and the lists, in every state of the program. -/
structure Recent (m : Master) : Prop where
  table : TableInv m
  hashed : ∀ s ∈ m.allServers, ∀ id a, (m.hash s).Has ⟨id, .item a⟩ → m.Visible s a id
  listed : ∀ l, ∀ a ∈ m.lru l, a ∈ m.space.items
  unborn : ∀ s, m.serverTotal ≤ s → m.lru (some s) = []
  ranked : Ranked m.lru m.number m.log

/-- Item `a` is being stored: nothing leads to it yet. -/
def Absent (a : Nat) (m : Master) : Prop := ∀ l, a ∉ m.lru l

namespace Recent

variable {rt : Runtime} {m m' : Master} {s a : Nat}

/-- The lists stay, the hashes lose nodes at most, and of the items in the
lists nothing changes that counts here. -/
theorem frame (h : Recent m) (ht : TableInv m') (htotal : m'.serverTotal = m.serverTotal) (hs : ∀ s ∈ m'.allServers, s ∈ m.allServers ∧
      (m'.server s).index = (m.server s).index ∧ ∀ id a, (m'.hash s).Has ⟨id, .item a⟩ → (m.hash s).Has ⟨id, .item a⟩)
    (hi : ∀ l, ∀ a ∈ m.lru l, a ∈ m'.space.items ∧ (m'.space.item a).deleted = (m.space.item a).deleted ∧
      (m'.space.item a).id = (m.space.item a).id ∧ (m'.space.item a).serverIndex = (m.space.item a).serverIndex)
    (hlru : m'.lru = m.lru) (hr : Ranked m.lru m'.number m'.log) : Recent m' := by
  refine ⟨ht, fun s hmem id a hhas => ?_, fun l a ha => (hi l a (hlru ▸ ha)).1,
    fun s hs => hlru ▸ h.unborn s (htotal ▸ hs), hlru ▸ hr⟩
  obtain ⟨hmem, hidx, hh⟩ := hs s hmem
  obtain ⟨⟨l, ha⟩, hdel, hid, hsi⟩ := h.hashed s hmem id a (hh id a hhas)
  obtain ⟨-, hdel', hid', hsi'⟩ := hi l a ha
  exact ⟨⟨l, hlru ▸ ha⟩, hdel'.trans hdel, hid'.trans hid, hsi'.trans (hsi.trans hidx.symm)⟩

/-- Only the space changes, and no item of it. -/
theorem space {sp : Space} (h : Recent m) (hsp : ItemsSame m.space sp) : Recent { m with space := sp } := by
  refine h.frame ⟨h.table.nodup, h.table.total, h.table.slot⟩ rfl (fun s hs => ⟨hs, rfl, fun _ _ hh => hh⟩)
    (fun l a ha => ?_) rfl h.ranked
  show a ∈ sp.items ∧ (sp.item a).deleted = _ ∧ (sp.item a).id = _ ∧ (sp.item a).serverIndex = _
  rw [hsp.items, hsp.item]
  exact ⟨h.listed l a ha, rfl, rfl, rfl⟩

/-- Only what is not part of the invariant changes. -/
theorem same (h : Recent m) (hserver : ∀ s, (m'.server s).index = (m.server s).index) (hall : m'.allServers = m.allServers)
    (ht : m'.serverIndexs = m.serverIndexs) (hn : m'.serverTotal = m.serverTotal) (hsp : m'.space = m.space)
    (hhash : ∀ s id a, (m'.hash s).Has ⟨id, .item a⟩ → (m.hash s).Has ⟨id, .item a⟩) (hlru : m'.lru = m.lru)
    (hr : Ranked m.lru m'.number m'.log) : Recent m' :=
  h.frame (h.table.perm (hall ▸ .refl _) hserver ht hn) hn (fun s hs => ⟨hall ▸ hs, hserver s, hhash s⟩)
    (fun l a ha => by rw [hsp]; exact ⟨h.listed l a ha, rfl, rfl, rfl⟩) hlru hr

/-- The server an item leads to is the only one whose hash can have it. -/
theorem server_eq (h : Recent m) {x : Nat} (hs : s ∈ m.allServers) {id : HashId} (hh : (m.hash s).Has ⟨id, .item a⟩)
    (hx : m.serverOfItem a = some x) : x = s := by
  obtain ⟨-, -, -, hsi⟩ := h.hashed s hs id a hh
  unfold serverOfItem at hx
  rw [hsi] at hx
  exact h.table.eq_of_get hs hx

/-! ### Deleting an item -/

/-- A request reads or writes the item. -/
abbrev InUse (a : Nat) (m : Master) : Prop := (m.space.item a).used ≠ 0 ∨ (m.space.item a).putting = true

/-- What is left of item `a` after `server_item_delete`. -/
structure Deleted (a : Nat) (m m' : Master) : Prop where
  unlinked : ∀ s ∈ m'.allServers, ∀ id, ¬(m'.hash s).Has ⟨id, .item a⟩
  used : InUse a m → m'.space.items = m.space.items ∧ m'.lru = m.lru ∧
    m'.space.item a = { m.space.item a with deleted := true }
  free : ¬InUse a m → m'.space.items = m.space.items.filter (· ≠ a) ∧ (∀ l, m'.lru l = (m.lru l).filter (· ≠ a))
  item : ∀ b, b ≠ a → m'.space.item b = m.space.item b
  hash : ∀ s id b, b ≠ a → ((m'.hash s).Has ⟨id, .item b⟩ ↔ (m.hash s).Has ⟨id, .item b⟩)

theorem deleted (h : Recent m) (hd : m.serverItemDelete rt a = some m') : Deleted a m m' := by
  have he := Evicted.serverItemDelete hd
  have hall : m'.allServers = m.allServers := by rw [allServers, he.servers, he.deletedServers, allServers]
  unfold serverItemDelete at hd
  split at hd
  · cases hd
  next ha =>
  obtain ⟨x, hx, hd⟩ := Option.bind_eq_some_iff.mp hd
  -- What the hashes have, when the node of the item is gone.
  obtain ⟨m₁, hm₁, hsp, hlru, hother, hgone⟩ : ∃ m₁, (if (m.space.item a).deleted = true then m else
      m.unlink x ⟨(m.space.item a).id, .item a⟩) = m₁ ∧ m₁.space = m.space ∧ m₁.lru = m.lru ∧
      (∀ s id b, b ≠ a → ((m₁.hash s).Has ⟨id, .item b⟩ ↔ (m.hash s).Has ⟨id, .item b⟩)) ∧
      ∀ s ∈ m.allServers, ∀ id, ¬(m₁.hash s).Has ⟨id, .item a⟩ := by
    refine ⟨_, rfl, ?_⟩
    split
    · next hdel =>
      refine ⟨rfl, rfl, fun _ _ _ _ => Iff.rfl, fun s hs id hh => ?_⟩
      obtain ⟨-, hvis, -⟩ := h.hashed s hs id a hh
      rw [hdel] at hvis
      cases hvis
    · have hhash : ∀ s k, ((m.unlink x ⟨(m.space.item a).id, .item a⟩).hash s).Has k ↔
          (m.hash s).Has k ∧ (s = x → k ≠ ⟨(m.space.item a).id, .item a⟩) := by
        intro s k
        show (Function.update m.hash x _ s).Has k ↔ _
        by_cases hs : s = x
        · subst hs
          rw [Function.update_self, hashDel_has]
          simp
        · rw [Function.update_of_ne hs]
          simp [hs]
      refine ⟨rfl, rfl, fun s id b hb => ?_, fun s hs id hh => ?_⟩
      · rw [hhash]
        exact ⟨And.left, fun hh => ⟨hh, fun _ he => hb (by cases he; rfl)⟩⟩
      · obtain ⟨hh, hne⟩ := (hhash s _).mp hh
        obtain ⟨-, -, hid, -⟩ := h.hashed s hs id a hh
        exact hne (h.server_eq hs hh hx).symm (by rw [hid])
  simp only [hm₁] at hd
  split at hd
  · next hused =>
    cases hd
    refine ⟨hall ▸ hgone, fun _ => ⟨by rw [← hsp]; rfl, hlru, Function.update_self ..⟩, fun hfree => absurd hused hfree,
      fun b hb => ?_, hother⟩
    rw [← hsp]
    exact Function.update_of_ne hb ..
  · next hfree =>
    obtain ⟨⟨k, sp⟩, hk, hd⟩ := Option.bind_eq_some_iff.mp hd
    cases hd
    have hsame := ItemsSame.returnFreeBlock hk
    refine ⟨hall ▸ hgone, fun hused => absurd hused hfree, fun _ => ⟨?_, fun l => ?_⟩, fun b hb => ?_, hother⟩
    · show sp.items.filter _ = _
      rw [hsame.items, hsp]
    · show (m₁.lru l).erase a = _
      rw [hlru, (h.ranked.nodup l).erase_eq_filter]
      exact List.filter_congr fun b _ => by simp only [bne, beq_eq_decide, ne_eq, decide_not]
    · show sp.item b = _
      rw [hsame.item, hsp]

/-- **`server_item_delete`** of any item. -/
theorem serverItemDelete (h : Recent m) (hd : m.serverItemDelete rt a = some m') : Recent m' := by
  have he := Evicted.serverItemDelete hd
  have hdel := h.deleted hd
  have hall : m'.allServers = m.allServers := by rw [allServers, he.servers, he.deletedServers, allServers]
  -- The other items stay where they are.
  have hkeep : ∀ l b, b ≠ a → b ∈ m.lru l → b ∈ m'.lru l := by
    intro l b hb hmem
    by_cases hused : InUse a m
    · rw [(hdel.used hused).2.1]
      exact hmem
    · rw [(hdel.free hused).2 l]
      exact List.mem_filter.mpr ⟨hmem, by simpa using hb⟩
  refine ⟨h.table.evicted he, fun s hs id b hh => ?_, fun l b hb => ?_,
    fun s hs => List.sublist_nil.mp (h.unborn s (he.serverTotal ▸ hs) ▸ he.lru (some s)), ?_⟩
  · have hb : b ≠ a := fun hb => hdel.unlinked s hs id (hb ▸ hh)
    obtain ⟨⟨l, hl⟩, hvis, hid, hsi⟩ := h.hashed s (hall ▸ hs) id b ((hdel.hash s id b hb).mp hh)
    obtain ⟨_, _, _, _, hserver⟩ := he.server s
    rw [Visible, hdel.item b hb, hserver]
    exact ⟨⟨l, hkeep l b hb hl⟩, hvis, hid, hsi⟩
  · by_cases hused : InUse a m
    · obtain ⟨hi, hl, -⟩ := hdel.used hused
      rw [hi]
      exact h.listed l b (hl ▸ hb)
    · obtain ⟨hi, hl⟩ := hdel.free hused
      rw [hl l] at hb
      obtain ⟨hb, hne⟩ := List.mem_filter.mp hb
      rw [hi]
      exact List.mem_filter.mpr ⟨h.listed l b hb, hne⟩
  · rw [he.number, he.log]
    exact h.ranked.sub he.lru

theorem passbyItemDelete (h : Recent m) (s p : Nat) : Recent (m.serverPassbyItemDelete s p) := by
  have he := Evicted.passbyItemDelete s p m
  refine h.same (fun x => ?_) (by rw [allServers, he.servers, he.deletedServers, allServers]) he.serverIndexs
    he.serverTotal rfl (fun x id a => he.hash x _) rfl h.ranked
  obtain ⟨_, _, _, _, hx⟩ := he.server x
  rw [hx]

theorem expirePassbys {l : List Nat} {count : Nat} (h : Recent m) : Recent (m.expirePassbys s count l) := by
  induction l generalizing m count with
  | nil => exact h
  | cons p l ih =>
    unfold Master.expirePassbys
    simp only
    split
    · exact h
    · split
      · exact h.passbyItemDelete s p
      · exact ih (h.passbyItemDelete s p)

/-- The ways to make room. -/
theorem evictions (rt : Runtime) : Evictions rt (fun _ => True) Recent :=
  ⟨fun _ _ _ => trivial, fun h _ hd => h.serverItemDelete hd, fun h => h.expirePassbys⟩

theorem steps (rt : Runtime) : (Master.host rt).Steps Recent :=
  ⟨fun h hs => h.space (.fblockDelete hs), fun h hd => h.serverItemDelete hd, fun h => h.space ⟨rfl, rfl⟩⟩

/-! ### Lookups -/

theorem lookup (h : Recent m) (s : Nat) (key : List UInt8) : Recent (m.lookup rt s key).2 := by
  refine h.same (fun _ => rfl) rfl rfl rfl rfl (fun x id a hh => ?_) rfl h.ranked
  have hh : (Function.update m.hash s _ x).Has _ := hh
  by_cases hx : x = s
  · subst hx
    rw [Function.update_self] at hh
    exact hashGet_has.1 _ hh
  · rwa [Function.update_of_ne hx] at hh

/-- What is found is there. -/
theorem lookup_visible (h : Recent m) {key : List UInt8} (hs : s ∈ m.allServers) {id : HashId}
    (hn : (m.lookup rt s key).1 = some ⟨id, .item a⟩) : m.Visible s a id :=
  h.hashed s hs id a (hashGet_has.2 _ hn).1

/-- An item that is in a list is moved to the head of one, at an access. -/
theorem touch (h : Recent m) {x : Happening} {l head : Option Nat} (hhead : ∀ s, head = some s → s < m.serverTotal)
    (ha : a ∈ m.lru l) (hx : ∀ k, x.accesses k = (k == m.number a)) : Recent (((m.lruDel a).lruAdd a head).note x) := by
  have hdel : ∀ l, a ∉ (m.lruDel a).lru l := fun l => (h.ranked.nodup l).not_mem_erase
  have hr : Ranked (m.lruDel a).lru m.number m.log := h.ranked.sub fun l => List.erase_sublist
  have hpush := hr.push head hx (Nat.lt_succ_of_lt (h.ranked.bound l a ha)) hdel fun l' b hb he => by
    have hb' : b ∈ m.lru l' := List.mem_of_mem_erase hb
    rw [h.ranked.inj l' l b hb' a ha he] at hb
    exact hdel l' hb
  rw [Function.update_eq_self] at hpush
  -- The items in the lists are the same as before.
  have hmem : ∀ l' b, b ∈ (((m.lruDel a).lruAdd a head).note x).lru l' → ∃ l, b ∈ m.lru l := by
    intro l' b hb
    have hb : b ∈ Function.update (m.lruDel a).lru head (a :: (m.lruDel a).lru head) l' := hb
    by_cases hl : l' = head
    · rw [hl, Function.update_self] at hb
      rcases List.mem_cons.mp hb with rfl | hb
      · exact ⟨l, ha⟩
      · exact ⟨head, List.mem_of_mem_erase hb⟩
    · rw [Function.update_of_ne hl] at hb
      exact ⟨l', List.mem_of_mem_erase hb⟩
  have hmem' : ∀ l' b, b ∈ m.lru l' → ∃ l, b ∈ (((m.lruDel a).lruAdd a head).note x).lru l := by
    intro l' b hb
    show ∃ l, b ∈ Function.update (m.lruDel a).lru head (a :: (m.lruDel a).lru head) l
    by_cases hba : b = a
    · exact ⟨head, by rw [Function.update_self, hba]; exact List.mem_cons_self⟩
    · have hb : b ∈ (m.lruDel a).lru l' := (List.mem_erase_of_ne hba).mpr hb
      refine ⟨l', ?_⟩
      by_cases hl : l' = head
      · rw [hl, Function.update_self, ← hl]
        exact List.mem_cons_of_mem _ hb
      · rwa [Function.update_of_ne hl]
  refine ⟨⟨h.table.nodup, h.table.total, h.table.slot⟩, fun s hs id b hh => ?_, fun l' b hb => ?_, fun s hs => ?_, hpush⟩
  · obtain ⟨⟨l', hb⟩, hv⟩ := h.hashed s hs id b hh
    exact ⟨hmem' l' b hb, hv⟩
  · obtain ⟨l, hb⟩ := hmem l' b hb
    exact h.listed l b hb
  · have hne : some s ≠ head := fun he => Nat.not_le_of_lt (hhead s he.symm) hs
    show Function.update (m.lruDel a).lru head _ (some s) = []
    rw [Function.update_of_ne hne]
    exact List.sublist_nil.mp (h.unborn s hs ▸ List.erase_sublist)

/-- An item changes in what is not part of the invariant. -/
theorem setItem (h : Recent m) {x : Item} (hdel : x.deleted = (m.space.item a).deleted) (hid : x.id = (m.space.item a).id)
    (hsi : x.serverIndex = (m.space.item a).serverIndex) : Recent (m.setItem a x) := by
  refine h.frame ⟨h.table.nodup, h.table.total, h.table.slot⟩ rfl (fun s hs => ⟨hs, rfl, fun _ _ hh => hh⟩)
    (fun l b hb => ⟨h.listed l b hb, ?_⟩) rfl h.ranked
  show (Function.update m.space.item a x b).deleted = _ ∧ (Function.update m.space.item a x b).id = _ ∧
    (Function.update m.space.item a x b).serverIndex = _
  by_cases hba : b = a
  · rw [hba, Function.update_self]
    exact ⟨hdel, hid, hsi⟩
  · rw [Function.update_of_ne hba]
    exact ⟨rfl, rfl, rfl⟩

/-- The list that an item of a server is put into. -/
theorem serverLruHead_lt (hs : s < m.serverTotal) (x : Nat) (hx : m.serverLruHead s = some x) : x < m.serverTotal := by
  unfold serverLruHead at hx
  obtain ⟨-, hx⟩ := Option.ite_none_right_eq_some.mp hx
  exact Option.some.inj hx ▸ hs

theorem hitItem (h : Recent m) (hs : s ∈ m.allServers) {d : Nat} {l : Option Nat} (ha : a ∈ m.lru l) {id : HashId} : Recent (m.hitItem s a d id) := by
  have h₁ : Recent { m with space := m.space.setDevice d { m.space.device d with used := (m.space.device d).used + 1 } } :=
    h.space ⟨rfl, rfl⟩
  have h₂ := h₁.setItem (a := a) (x := { m.space.item a with used := ((m.space.item a).used + 1) % 2 ^ 16 }) rfl rfl rfl
  exact h₂.touch (serverLruHead_lt (h.table.total s hs)) ha fun _ => rfl

theorem getCase (h : Recent m) (hs : s ∈ m.allServers) {n : Option (HashNode Entry)} {o : Option Nat}
    (hn : ∀ id a, n = some ⟨id, .item a⟩ → ∃ l, a ∈ m.lru l) (hc : GetCase rt s n m o m') : Recent m' := by
  cases hc with
  | miss | hidden => exact h
  | passby => exact h.same (fun _ => rfl) rfl rfl rfl rfl (fun _ _ _ hh => hh) rfl h.ranked
  | stale _ hd => exact h.serverItemDelete hd
  | hit =>
    obtain ⟨l, ha⟩ := hn _ _ rfl
    exact h.hitItem hs ha

theorem deleteCase (h : Recent m) {n : Option (HashNode Entry)} {found : Bool} (hc : DeleteCase rt s n m found m') :
    Recent m' := by
  cases hc with
  | miss => exact h
  | passby => exact h.passbyItemDelete ..
  | item hd => exact h.serverItemDelete hd

theorem note (h : Recent m) {x : Happening} (hx : ∀ n, x.accesses n = false) : Recent (m.note x) :=
  h.same (fun _ => rfl) rfl rfl rfl rfl (fun _ _ _ hh => hh) rfl (h.ranked.quiet hx)

/-! ### Stores -/

theorem passbyStore (h : Recent m) {id : HashId} {ok : Bool} (hp : m.serverPassbyStore rt s id = (ok, m')) : Recent m' := by
  unfold serverPassbyStore at hp
  simp only at hp
  split at hp
  · cases hp
    exact h
  split at hp
  · cases hp
    exact h.same (fun _ => rfl) rfl rfl rfl rfl (fun _ _ _ hh => hh) rfl h.ranked
  · cases hp
    refine h.same (fun x => ?_) rfl rfl rfl rfl (fun x i a hh => ?_) rfl h.ranked
    · show (Function.update m.server s _ x).index = _
      by_cases hx : x = s
      · rw [hx, Function.update_self]
      · rw [Function.update_of_ne hx]
    · have hh : (Function.update m.hash s _ x).Has _ := hh
      by_cases hx : x = s
      · rw [hx, Function.update_self] at hh
        rcases hh.of_hashAdd with he | hh
        · cases he
        · rwa [hx]
      · rwa [Function.update_of_ne hx] at hh

theorem freed (h : Recent m) {id : HashId} {n : Option (HashNode Entry)} (hf : Freed rt s id n m m') : Recent m' := by
  cases hf with
  | absent hp => exact h.passbyStore hp
  | passby => exact h.passbyItemDelete ..
  | item hd => exact h.serverItemDelete hd

/-- Whatever happens to an item that nothing leads to. -/
theorem absent (h : Recent m) (ha : Absent a m) (sp : Space) (hitem : ∀ b, b ≠ a → sp.item b = m.space.item b)
    (hitems : ∀ b ∈ m.space.items, b ≠ a → b ∈ sp.items) : Recent { m with space := sp } := by
  refine h.frame ⟨h.table.nodup, h.table.total, h.table.slot⟩ rfl (fun s hs => ⟨hs, rfl, fun _ _ hh => hh⟩)
    (fun l b hb => ?_) rfl h.ranked
  have hba : b ≠ a := fun he => ha l (he ▸ hb)
  show b ∈ sp.items ∧ (sp.item b).deleted = _ ∧ (sp.item b).id = _ ∧ (sp.item b).serverIndex = _
  rw [hitem b hba]
  exact ⟨hitems b (h.listed l b hb) hba, rfl, rfl, rfl⟩

theorem located (h : Recent m) (ha : Absent a m) {sp : Space} (hsp : Located a m.space sp) : Recent { m with space := sp } := by
  obtain ⟨o, i, hitem⟩ := hsp.item
  refine h.absent ha sp (fun b hb => by rw [hitem, Function.update_of_ne hb]) fun b hb _ => ?_
  rcases hsp.items with he | ⟨-, he⟩
  · exact he ▸ hb
  · exact he ▸ List.mem_cons_of_mem a hb

/-- An address that is free is in no list. -/
theorem absent_of_get (h : Recent m) {t : Nat} (ha : rt.al.get t m.space.items = some a) : Absent a m := fun l hl =>
  rt.al.fresh ha (h.listed l a hl)

/-- Item `a` is linked: in a list, and in the hash of server `s`. -/
theorem insert (h : Recent m) (ha : Absent a m) {x : Happening} {id : HashId} {head : Option Nat}
    (hhead : ∀ s, head = some s → s < m.serverTotal)
    (hx : ∀ k, x.accesses k = (k == m.log.length)) (hserver : ∀ s, (m'.server s).index = (m.server s).index)
    (hall : m'.allServers = m.allServers) (ht : m'.serverIndexs = m.serverIndexs) (hn : m'.serverTotal = m.serverTotal)
    (hitem : ∀ b, b ≠ a → m'.space.item b = m.space.item b) (hitems : ∀ b ∈ m.space.items, b ∈ m'.space.items)
    (hmem : a ∈ m'.space.items) (hdel : (m'.space.item a).deleted = false) (hid : (m'.space.item a).id = id)
    (hsi : (m'.space.item a).serverIndex = (m.server s).index)
    (hhash : ∀ y n, (m'.hash y).Has n → (y = s ∧ n = ⟨id, .item a⟩) ∨ (m.hash y).Has n)
    (hlru : m'.lru = Function.update m.lru head (a :: m.lru head))
    (hnum : m'.number = Function.update m.number a m.log.length) (hlog : m'.log = x :: m.log) : Recent m' := by
  have hr := h.ranked.push head hx (Nat.lt_succ_self _) ha fun l b hb => (h.ranked.bound l b hb).ne
  have hold : ∀ l b, b ∈ m.lru l → b ∈ m'.lru l := by
    intro l b hb
    rw [hlru]
    by_cases hl : l = head
    · subst hl
      rw [Function.update_self]
      exact List.mem_cons_of_mem a hb
    · rwa [Function.update_of_ne hl]
  refine ⟨h.table.perm (hall ▸ .refl _) hserver ht hn, fun y hy i b hh => ?_, fun l b hb => ?_, fun y hy => ?_,
    by rwa [hlru, hnum, hlog]⟩
  · rw [Visible, hserver]
    rcases hhash y _ hh with ⟨rfl, he⟩ | hh
    · cases he
      exact ⟨⟨head, by rw [hlru, Function.update_self]; exact List.mem_cons_self⟩, hdel, hid, hsi⟩
    · obtain ⟨⟨l, hb⟩, hv⟩ := h.hashed y (hall ▸ hy) i b hh
      rw [hitem b fun he => ha l (he ▸ hb)]
      exact ⟨⟨l, hold l b hb⟩, hv⟩
  · rw [hlru] at hb
    by_cases hl : l = head
    · rw [hl, Function.update_self] at hb
      rcases List.mem_cons.mp hb with rfl | hb
      · exact hmem
      · exact hitems b (h.listed head b hb)
    · rw [Function.update_of_ne hl] at hb
      exact hitems b (h.listed l b hb)
  · rw [hn] at hy
    have hne : some y ≠ head := fun he => Nat.not_le_of_lt (hhead y he.symm) hy
    rw [hlru, Function.update_of_ne hne]
    exact h.unborn y hy

/-- In the search for a block of item `a` of server `s`. -/
def Searching (s a : Nat) (m : Master) : Prop := Recent m ∧ Absent a m ∧ s < m.serverTotal

theorem Searching.evicted (h : Searching s a m) (hr : Recent m') (he : Evicted m m') : Searching s a m' :=
  ⟨hr, fun l hl => h.2.1 l ((he.lru l).subset hl), he.serverTotal ▸ h.2.2⟩

theorem Searching.located {sp : Space} (h : Searching s a m) (hsp : Located a m.space sp) :
    Searching s a { m with space := sp } :=
  ⟨h.1.located h.2.1 hsp, h.2⟩

theorem Searching.extend (h : Searching s a m) {target : Nat} {ok : Bool}
    (he : (Master.host rt).deviceFreeBlockExtend target m = some (ok, m')) : Searching s a m' :=
  h.evicted ((steps rt).deviceFreeBlockExtend h.1 he) ((Evicted.steps rt m).deviceFreeBlockExtend (.refl m) he)

theorem Searching.tryAgain {m₁ : Master} {fuel tries k : Nat} (h : Searching s a m)
    (ht : m.tryAgain rt s a fuel tries = some (k, m₁)) : Searching s a m₁ ∧ (k ≠ 0 → a ∈ m₁.space.items) := by
  have hev : Evictions rt (fun _ => True) (Searching s a) :=
    ⟨fun _ _ _ => trivial, fun h _ hd => h.evicted (h.1.serverItemDelete hd) (.serverItemDelete hd),
      fun h => h.evicted h.1.expirePassbys .expirePassbys⟩
  rcases hev.tryAgain (fun h hg => h.located (Space.getFreeBlock_located hg).1) (fun h he => h.extend he) h ht with
    ⟨hk, h₁⟩ | ⟨hk, m₂, sp, h₂, hg, rfl⟩
  · exact ⟨h₁, fun hne => absurd hk hne⟩
  · obtain ⟨hloc, hgot, -⟩ := Space.getFreeBlock_located hg
    exact ⟨h₂.located hloc, fun hne => (hgot hne).2.2⟩

theorem draft (h : Recent m) (hs : s < m.serverTotal) {t : Nat} (ha : rt.al.get t m.space.items = some a)
    (length headersLen : Nat) : Searching s a (m.draft a length headersLen) := by
  have ha := h.absent_of_get ha
  have h₁ := h.absent ha (m.draft a length headersLen).space (fun b hb => Function.update_of_ne hb ..)
    fun b hb _ => hb
  exact ⟨h₁.same (fun _ => rfl) rfl rfl rfl rfl (fun _ _ _ hh => hh) rfl h₁.ranked, ha, hs⟩

theorem link_has {f : Nat → Hash Entry} {callocOk : Bool} {n k : HashNode Entry} {y : Nat}
    (hh : (Function.update f s (hashAdd callocOk (f s) n) y).Has k) : (y = s ∧ k = n) ∨ (f y).Has k := by
  by_cases hy : y = s
  · subst hy
    rw [Function.update_self] at hh
    exact hh.of_hashAdd.imp (⟨rfl, ·⟩) id
  · rw [Function.update_of_ne hy] at hh
    exact .inr hh

/-- Without an item that nothing leads to. -/
theorem itemFree (h : Recent m) (ha : Absent a m) : Recent { m with space := m.space.itemFree a } :=
  h.absent ha _ (fun _ _ => rfl) fun b hb hba => List.mem_filter.mpr ⟨hb, by simpa using hba⟩

/-- Counters of a server are none of the fields. -/
theorem index_update {f : Nat → Server} {x : Server} (hx : x.index = (f s).index) (y : Nat) :
    (Function.update f s x y).index = (f y).index := by
  by_cases hy : y = s
  · rw [hy, Function.update_self, hx]
  · rw [Function.update_of_ne hy]

theorem storeCase (h : Recent m) (hs : s < m.serverTotal) {id : HashId} {length headersLen : Nat} {expire : Int}
    {rc : PutRc} (hc : StoreCase rt s id length headersLen expire m rc m') : Recent m' := by
  cases hc with
  | noMem => exact h.same (fun _ => rfl) rfl rfl rfl rfl (fun _ _ _ hh => hh) rfl h.ranked
  | noSpace ha ht =>
    obtain ⟨⟨h₁, ha₁, -⟩, -⟩ := (h.draft hs ha ..).tryAgain ht
    exact h₁.itemFree ha₁
  | @ok a d k m₁ ha ht hk _ =>
    obtain ⟨⟨h₁, ha₁, hs₁⟩, hmem⟩ := (h.draft hs ha ..).tryAgain ht
    refine h₁.insert (s := s) ha₁ (x := .created m₁.log.length s d id) (serverLruHead_lt hs₁) (fun _ => rfl)
      (index_update rfl) rfl rfl rfl (fun b hb => Function.update_of_ne hb ..) (fun _ hb => hb) (hmem hk) ?_ ?_ ?_
      (fun y n hh => link_has hh) rfl rfl rfl
    all_goals rw [admitted_item]

theorem freed_serverTotal {id : HashId} {n : Option (HashNode Entry)} (hf : Freed rt s id n m m') :
    m'.serverTotal = m.serverTotal := by
  cases hf with
  | absent hp =>
    unfold serverPassbyStore at hp
    simp only at hp
    split at hp
    · cases hp
      rfl
    split at hp <;> cases hp
    rfl
  | passby => rfl
  | item hd => exact (Evicted.serverItemDelete hd).serverTotal

theorem putCase (h : Recent m) (hs : s < m.serverTotal) {buffer : List UInt8} {r : Request} {rc : PutRc}
    (hc : PutCase rt s buffer r m rc m') : Recent m' := by
  cases hc with
  | declined => exact h
  | passby _ _ hp => exact (h.lookup s _).passbyStore hp
  | exist => exact h.lookup s _
  | store _ _ hf hst =>
    have htotal := freed_serverTotal hf
    exact ((h.lookup s _).freed hf).storeCase (htotal ▸ hs) hst

theorem callCase (h : Recent m) (hs : s ∈ m.allServers) {buffer : List UInt8} {r : Request} {o : Outcome} {x : Option Nat}
    (hc : CallCase rt s buffer r m o x m') : Recent m' := by
  cases hc with
  | get _ hg =>
    obtain ⟨key, -, hc⟩ := serverRequestGetHandler_cases hg
    exact (h.lookup s key).getCase hs (fun id a hn => (h.lookup_visible hs hn).1) hc
  | store _ hp | refused _ _ hp => exact h.putCase (h.table.total s hs) (serverRequestPutHandler_cases hp)
  | delete _ hd =>
    obtain ⟨key, -, hc⟩ := serverRequestDeleteHandler_cases hd
    exact ((h.lookup s key).note fun _ => rfl).deleteCase hc

/-! ### The end of a request, and loading -/

theorem release (h : Recent m) (a d : Nat) (diskError : Bool) : Recent (m.release a d diskError) := by
  have h₁ : Recent { m with space := m.space.setDevice d { m.space.device d with used := (m.space.device d).used - 1 } } :=
    h.space ⟨rfl, rfl⟩
  refine h₁.setItem (a := a) (x := released (m.space.item a) diskError) (released_deleted _ _) ?_ ?_
  all_goals
    unfold released
    show _ = _
    cases (m.space.item a).putting <;> cases diskError <;> rfl

theorem finalizeCase (h : Recent m) {processSize : Nat} {diskError : Bool}
    (hc : FinalizeCase rt a processSize diskError m m') : Recent m' := by
  cases hc with
  | delete _ _ _ hd => exact (h.release a _ diskError).serverItemDelete hd
  | finished => exact (h.release a _ diskError).note fun _ => rfl
  | sent => exact h.release a _ diskError

theorem loadCase (h : Recent m) (hs : s < m.serverTotal) {d : Nat} {x : FormatItem} (hc : LoadCase rt s d x m m') : Recent m' := by
  cases hc with
  | noMem => exact h.same (fun _ => rfl) rfl rfl rfl rfl (fun _ _ _ hh => hh) rfl h.ranked
  | @noFit a sp ha hcut =>
    obtain ⟨hitem, hitems⟩ := Space.deviceCutFreeBlock_located hcut
    have ha := h.absent_of_get ha
    have h₁ := h.absent ha (sp.itemFree a) (fun b hb => ?_) fun b hb hba => ?_
    · exact h₁.same (fun _ => rfl) rfl rfl rfl rfl (fun _ _ _ hh => hh) rfl h₁.ranked
    · show sp.item b = _
      rw [hitem]
      exact Function.update_of_ne hb ..
    · refine List.mem_filter.mpr ⟨?_, by simpa using hba⟩
      rcases hitems with ⟨-, hi⟩ | ⟨-, -, hi⟩
      · rw [hi]
        exact hb
      · rw [hi]
        exact List.mem_cons_of_mem a hb
  | @ok a k sp ha hcut hk =>
    obtain ⟨hitem, hitems⟩ := Space.deviceCutFreeBlock_located hcut
    have ha := h.absent_of_get ha
    have hi : sp.items = a :: m.space.items := by
      rcases hitems with ⟨hz, -⟩ | ⟨-, -, hi⟩
      · exact absurd hz hk
      · exact hi
    have hself : sp.item a = (m.loadDraft s d a x).space.item a := by rw [hitem]
    have hdraft : (m.loadDraft s d a x).space.item a = { m.space.item a with
        putting := false, badblock := false, deleted := false, used := 0, clear := 0
        serverIndex := (m.server s).index, length := x.length, expire := x.expire, headersLen := x.headersLen
        offset := (x.offset % (2 ^ 40 : Nat)).toNat, deviceIndex := (m.space.device d).index } := Function.update_self ..
    have hentered : (({ m.loadDraft s d a x with space := sp } : Master).enter rt s d a k x).space.item a =
        { sp.item a with id := x.hashId } := Function.update_self ..
    refine h.insert (s := s) ha (x := .loaded m.log.length s d x.hashId) (serverLruHead_lt hs) (fun _ => rfl)
      (index_update rfl) rfl rfl rfl (fun b hb => ?_) (fun b hb => ?_) ?_ ?_ ?_ ?_ (fun y n hh => link_has hh) rfl rfl rfl
    · show Function.update sp.item a _ b = _
      rw [Function.update_of_ne hb, hitem]
      exact Function.update_of_ne hb ..
    · show b ∈ sp.items
      rw [hi]
      exact List.mem_cons_of_mem a hb
    · show a ∈ sp.items
      rw [hi]
      exact List.mem_cons_self
    all_goals rw [hentered, hself, hdraft]

/-! ### Servers -/

theorem server (h : Recent m) (ht : TableInv m') (htotal : m'.serverTotal = m.serverTotal) (hidx : ∀ s, (m'.server s).index = (m.server s).index)
    (hall : ∀ s ∈ m'.allServers, s ∈ m.allServers) (hsp : m'.space = m.space) (hhash : m'.hash = m.hash)
    (hlru : m'.lru = m.lru) (hnum : m'.number = m.number) (hlog : m'.log = m.log) : Recent m' :=
  h.frame ht htotal (fun s hs => ⟨hall s hs, hidx s, fun _ _ hh => hhash ▸ hh⟩)
    (fun l a ha => by rw [hsp]; exact ⟨h.listed l a ha, rfl, rfl, rfl⟩) hlru (by rw [hnum, hlog]; exact h.ranked)

theorem serverDelete (h : Recent m) (hs : s ∈ m.servers) : Recent (m.serverDelete s) := by
  refine h.server (h.table.delete hs) rfl (index_update rfl) (fun x hx => ?_) rfl rfl rfl rfl rfl
  have hx : x ∈ m.servers.erase s ++ s :: m.deletedServers := hx
  rcases List.mem_append.mp hx with hx | hx
  · exact List.mem_append_left _ (List.mem_of_mem_erase hx)
  · rcases List.mem_cons.mp hx with rfl | hx
    · exact List.mem_append_left _ hs
    · exact List.mem_append_right _ hx

theorem serverUpdate {conf : ServerConf} (h : Recent m) (hs : s ∈ m.servers) : Recent (m.serverUpdate s conf) := by
  refine h.server (h.table.update hs) rfl (index_update rfl) (fun x hx => ?_) rfl rfl rfl rfl rfl
  have hx : x ∈ (m.servers.erase s ++ [s]) ++ m.deletedServers := hx
  rcases List.mem_append.mp hx with hx | hx
  · rcases List.mem_append.mp hx with hx | hx
    · exact List.mem_append_left _ (List.mem_of_mem_erase hx)
    · exact List.mem_append_left _ (List.mem_singleton.mp hx ▸ hs)
  · exact List.mem_append_right _ hx

theorem serverCreate {conf : ServerConf} (h : Recent m) (hc : m.serverCreate conf = some m') : Recent m' := by
  have ht := h.table.create hc
  have hmem := fun x (hx : x ∈ m'.allServers) => TableInv.mem_create hc hx
  unfold Master.serverCreate at hc
  obtain ⟨⟨i, t⟩, -, hc⟩ := Option.bind_eq_some_iff.mp hc
  obtain ⟨hash, hinit, hc⟩ := Option.bind_eq_some_iff.mp hc
  cases hinit
  cases hc
  -- There are no lists for servers that are not there yet.
  have hlru : Function.update m.lru (some m.serverTotal) [] = m.lru := by
    rw [← h.unborn m.serverTotal (Nat.le_refl _), Function.update_eq_self]
  rw [hlru] at ht ⊢
  refine ⟨ht, fun s hs id a hh => ?_, h.listed, fun s hs => h.unborn s (Nat.le_of_succ_le hs), h.ranked⟩
  have hh : (Function.update m.hash m.serverTotal _ s).Has _ := hh
  rcases hmem s hs with rfl | hold
  · rw [Function.update_self] at hh
    rcases hh with ⟨i, hi⟩ | ⟨p, hp, -⟩
    · cases hi
    · cases hp
  · have hne := (h.table.total s hold).ne
    rw [Function.update_of_ne hne] at hh
    obtain ⟨hl, hv⟩ := h.hashed s hold id a hh
    refine ⟨hl, ?_⟩
    show _ ∧ _ ∧ _ = (Function.update m.server m.serverTotal _ s).index
    rwa [Function.update_of_ne hne]

theorem serverConfLoad {plan : List ServerPlan} (h : Recent m) (hplan : ServerPlanOk m plan)
    (hl : m.serverConfLoad plan = some m') : Recent m' :=
  serverConfLoad_rule (P := Recent) (fun _ h => (List.nodup_append.mp h.table.nodup).1) (fun h hs => h.serverDelete hs)
    (fun h hs => h.serverUpdate hs) (fun h hc => h.serverCreate hc) hplan h hl

/-- A server is freed, in the last loop of `server_routine`. -/
theorem frees : Evictions.Frees Recent where
  nodup h := (List.nodup_append.mp h.table.nodup).2.1
  free h hs ht _ _ := h.server (h.table.destroy hs ht) rfl (fun _ => rfl)
    (fun _ hx => (List.Sublist.append_left List.erase_sublist _).subset hx) rfl rfl rfl rfl rfl

end Recent

/-- **One step** of the master. -/
theorem masterStep_recent {rt : Runtime} {m m' : Master} {e : MasterEvent} (hr : Recent m)
    (h : masterStep rt m e = some m') : Recent m' := by
  cases e with
  | tick now =>
    obtain ⟨-, h⟩ := Option.ite_none_right_eq_some.mp h
    cases h
    exact hr.same (fun _ => rfl) rfl rfl rfl rfl (fun _ _ _ hh => hh) rfl hr.ranked
  | accept s r old buffer total =>
    obtain ⟨-, h⟩ := Option.ite_none_right_eq_some.mp h
    cases h
    exact hr.same (Recent.index_update rfl) rfl rfl rfl rfl (fun _ _ _ hh => hh) rfl hr.ranked
  | conn r e =>
    obtain ⟨-, h⟩ := Option.ite_none_right_eq_some.mp h
    obtain ⟨c, -, rfl⟩ := Option.map_eq_some_iff.mp h
    exact hr.same (fun _ => rfl) rfl rfl rfl rfl (fun _ _ _ hh => hh) rfl hr.ranked
  | handle r dispatch send =>
    obtain ⟨⟨-, hs⟩, h⟩ := Option.ite_none_right_eq_some.mp h
    rcases handle_cases h with ⟨o, x, m₁, c, -, hc, -, rfl⟩ | ⟨o, rc, c, -, -, -, rfl⟩
    · have h₁ := hr.callCase hs hc
      exact h₁.same (fun _ => rfl) rfl rfl rfl rfl (fun _ _ _ hh => hh) rfl h₁.ranked
    · exact hr.same (fun _ => rfl) rfl rfl rfl rfl (fun _ _ _ hh => hh) rfl hr.ranked
  | finish r =>
    obtain ⟨-, h⟩ := Option.ite_none_right_eq_some.mp h
    obtain ⟨m₁, hf, hm⟩ := requestDoFinalize_cases h
    have h₁ : Recent m₁ := by
      unfold Finalized at hf
      split at hf
      · rw [hf]
        exact hr
      · exact hr.finalizeCase hf
    rcases hm with ⟨-, rfl⟩ | ⟨-, rfl⟩
    · exact h₁.same (Recent.index_update rfl) rfl rfl rfl rfl (fun _ _ _ hh => hh) rfl h₁.ranked
    · exact h₁.same (fun _ => rfl) rfl rfl rfl rfl (fun _ _ _ hh => hh) rfl h₁.ranked
  | clear port =>
    obtain ⟨s, -, rfl⟩ := Option.map_eq_some_iff.mp h
    exact hr.same (Recent.index_update rfl) rfl rfl rfl rfl (fun _ _ _ hh => hh) rfl (hr.ranked.quiet fun _ => rfl)
  | reload env conf =>
    unfold masterStep at h
    simp only at h
    split at h
    · next devices servers _ hplan =>
      unfold confLoad at h
      obtain ⟨sp, hsp, h⟩ := Option.bind_eq_some_iff.mp h
      have hplan := (serverConfCheck_ok hplan).1
      exact (hr.space (.deviceConfLoad hsp)).serverConfLoad ⟨hplan.ports, hplan.existing, hplan.count⟩ h
    · cases h
  | load d io image =>
    obtain ⟨-, h⟩ := Option.ite_none_right_eq_some.mp h
    obtain ⟨⟨ok, image', m₁⟩, h₁, rfl⟩ := Option.map_eq_some_iff.mp h
    exact formatLoadDevice_rule (P := Recent)
      (fun h hs hx => h.loadCase (h.table.total _ (List.mem_append_left _ hs)) (serverLoadFmItem_cases hx))
      (fun h hp => h.space (.loadPost hp)) hr h₁
  | serverRoutine => exact (Recent.evictions rt).serverRoutine Recent.frees hr h
  | deviceRoutine => exact (Recent.steps rt).deviceRoutine hr h

/-- **Every run.** -/
theorem recent_run {rt : Runtime} {m : Master} (h : (masterSystem rt).Reachable m) : Recent m := by
  refine System.Reach.invariant (I := Recent) (fun m hm => ?_) (fun m e m' _ hr _ hn => ?_) h
  case refine_2 => exact masterStep_recent hr hn.1
  obtain ⟨now, rfl⟩ := hm
  exact ⟨⟨List.nodup_nil, nofun, nofun⟩, nofun, nofun, fun _ _ => rfl, ⟨nofun, nofun, fun _ => .nil⟩⟩

end Master

end OliveHc
