/-
What `server_routine` takes away from a server.

It asks `server_item_expire` of each running server for what the server
consumes beyond its capacity, whatever that is: a server whose capacity was
set to 0 by a reload still has the list of the time before, and is asked for
all it consumes. The calls of `server_item_delete` are collected with the
states they are made in.
-/
import OliveHc.Master.Eviction
import OliveHc.Master.Filing

namespace OliveHc

namespace Master

open Recent (InUse)

/-! ## The calls of `server_item_delete` -/

/-- A call: the item, and the state it is made in. -/
structure Removal where
  item : Nat
  state : Master

instance (s before target : Nat) (done : List Nat) (m : Master) : Decidable (consumedReached s before target done m) :=
  inferInstanceAs (Decidable (_ ≥ _))

instance (m₀ : Master) (target : Nat) (done : List Nat) (m : Master) : Decidable (lengthsReached m₀ target done m) :=
  inferInstanceAs (Decidable (_ ≥ _))

section Calls

variable (rt : Runtime)

/-- The decision about item `a` when the items `done` have been processed:
it is deleted. -/
def GoesOn (reached : List Nat → Master → Prop) [∀ done m, Decidable (reached done m)] (done : List Nat) (a : Nat)
    (m : Master) : Prop :=
  (if reached done m then m.serverItemValid a else some false) = some false

instance (reached : List Nat → Master → Prop) [∀ done m, Decidable (reached done m)] (done : List Nat) (a : Nat)
    (m : Master) : Decidable (GoesOn reached done a m) :=
  inferInstanceAs (Decidable (_ = _))

/-- The calls in a loop over a list from its end. -/
def removals (reached : List Nat → Master → Prop) [∀ done m, Decidable (reached done m)] :
    List Nat → List Nat → Master → List Removal
  | _, [], _ => []
  | done, a :: l, m =>
    if GoesOn reached done a m then
      ⟨a, m⟩ :: (m.serverItemDelete rt a).elim [] fun m' =>
        if done.length ≥ loopLimit then [] else removals reached (a :: done) l m'
    else []

/-- The calls of `server_item_expire`. -/
def expireRemovals (s target : Nat) (m : Master) : List Removal :=
  m.removals rt (consumedReached s (m.server s).consumed target) [] (m.lru (some s)).reverse

/-- The calls of `server_shared_expire`. -/
def sharedRemovals (target : Nat) (m : Master) : List Removal :=
  m.removals rt (lengthsReached m target) [] (m.lru none).reverse

/-- The calls for the running servers. -/
def runningRemovals : List Nat → Master → List Removal
  | [], _ => []
  | s :: l, m =>
    let target := (m.server s).consumed - (m.server s).conf.capacity
    m.expireRemovals rt s target ++ (m.serverItemExpire rt s target).elim [] (runningRemovals l)

/-- The calls for the deleted servers. -/
def destroyRemovals : List Nat → Master → List Removal
  | [], _ => []
  | s :: l, m => m.expireRemovals rt s (m.server s).consumed ++ (m.serverDestroy rt s).elim [] (destroyRemovals l)

/-- The calls of `server_routine`. -/
def routineRemovals (m : Master) : List Removal :=
  let m₁ := m.servers.foldlM (fun m s => m.serverItemExpire rt s ((m.server s).consumed - (m.server s).conf.capacity)) m
  let m₂ := m₁.bind fun m => m.serverSharedExpire rt 0
  m.runningRemovals rt m.servers ++ m₁.elim [] (fun m => m.sharedRemovals rt 0) ++
    m₂.elim [] (fun m => m.destroyRemovals rt m.deletedServers)

end Calls

/-- A call behind another one is made in the state after it. -/
theorem mem_elim_nil {α β : Type} {o : Option α} {f : α → List β} {x : β} (h : x ∈ o.elim [] f) : ∃ a, o = some a ∧ x ∈ f a := by
  cases o with
  | none => cases h
  | some a => exact ⟨a, rfl, h⟩

/-! ## They are all there are -/

/-- Item `b` is taken away, or marked to be. -/
def Lost (b : Nat) (m m' : Master) : Prop :=
  b ∈ m.space.items ∧ (b ∉ m'.space.items ∨ (m.space.item b).deleted = false ∧ (m'.space.item b).deleted = true)

theorem Lost.split {b : Nat} {m m'' : Master} (m' : Master) (h : Lost b m m'') : Lost b m m' ∨ Lost b m' m'' := by
  obtain ⟨hb, h⟩ := h
  by_cases hb' : b ∈ m'.space.items
  · rcases h with h | ⟨hd, hd'⟩
    · exact .inr ⟨hb', .inl h⟩
    · cases hdel : (m'.space.item b).deleted with
      | true => exact .inl ⟨hb, .inr ⟨hd, hdel⟩⟩
      | false => exact .inr ⟨hb', .inr ⟨hdel, hd'⟩⟩
  · exact .inl ⟨hb, .inl hb'⟩

/-- Nothing is lost where the items stay. -/
theorem Lost.not_same {b : Nat} {m m' : Master} (hi : m'.space.item = m.space.item) (hl : m'.space.items = m.space.items) :
    ¬Lost b m m' := by
  intro ⟨hb, h⟩
  rw [hi, hl] at h
  rcases h with h | ⟨hd, hd'⟩
  · exact h hb
  · exact absurd (hd.symm.trans hd') Bool.false_ne_true

section Loops

variable {rt : Runtime} {m m' : Master} {s a target : Nat}

theorem Lost.serverItemDelete {b : Nat} (hr : Recent m) (hd : m.serverItemDelete rt a = some m') (h : Lost b m m') :
    b = a := by
  have hdel := hr.deleted hd
  by_contra hba
  obtain ⟨hb, h⟩ := h
  rcases h with h | ⟨h₁, h₂⟩
  · by_cases hu : InUse a m
    · exact h ((hdel.used hu).1 ▸ hb)
    · exact h ((hdel.free hu).1 ▸ List.mem_filter.mpr ⟨hb, by simpa using hba⟩)
  · rw [hdel.item b hba] at h₂
    exact absurd (h₁.symm.trans h₂) Bool.false_ne_true

/-- The loop of `server_item_expire`. -/
theorem expireItems_lost {before k b : Nat} {l : List Nat} (done : List Nat) (hr : Recent m)
    (he : m.expireItems rt s before target done.length l = some (k, m')) (h : Lost b m m') :
    ∃ x ∈ m.removals rt (consumedReached s before target) done l, x.item = b := by
  induction l generalizing m done with
  | nil =>
    cases he
    exact absurd h (Lost.not_same rfl rfl)
  | cons a l ih =>
    unfold expireItems at he
    obtain ⟨stop, hs, he⟩ := Option.bind_eq_some_iff.mp he
    cases stop with
    | true =>
      cases he
      exact absurd h (Lost.not_same rfl rfl)
    | false =>
      obtain ⟨m₁, h₁, he⟩ := Option.bind_eq_some_iff.mp he
      unfold removals
      rw [if_pos (show GoesOn (consumedReached s before target) done a m from hs), h₁]
      rcases h.split m₁ with h | h
      · exact ⟨_, List.mem_cons_self, (h.serverItemDelete hr h₁).symm⟩
      · split at he
        · cases he
          exact absurd h (Lost.not_same rfl rfl)
        · next hlim =>
          obtain ⟨x, hx, hxb⟩ := ih (a :: done) (hr.serverItemDelete h₁) he h
          refine ⟨x, List.mem_cons_of_mem _ ?_, hxb⟩
          rw [Option.elim_some, if_neg hlim]
          exact hx

/-- The loop of `server_shared_expire`. The lengths are those of the begin. -/
theorem expireShared_lost {m₀ : Master} {size b : Nat} {l : List Nat} (done : List Nat) (hr : Recent m) (hev : Evicted m₀ m)
    (hsize : size = (done.map fun a => (m₀.space.item a).length).sum)
    (he : m.expireShared rt target size done.length l = some m') (h : Lost b m m') :
    ∃ x ∈ m.removals rt (lengthsReached m₀ target) done l, x.item = b := by
  induction l generalizing m size done with
  | nil =>
    cases he
    exact absurd h (Lost.not_same rfl rfl)
  | cons a l ih =>
    unfold expireShared at he
    obtain ⟨stop, hs, he⟩ := Option.bind_eq_some_iff.mp he
    rw [hsize] at hs
    cases stop with
    | true =>
      cases he
      exact absurd h (Lost.not_same rfl rfl)
    | false =>
      obtain ⟨m₁, h₁, he⟩ := Option.bind_eq_some_iff.mp he
      unfold removals
      rw [if_pos (show GoesOn (lengthsReached m₀ target) done a m from hs), h₁]
      rcases h.split m₁ with h | h
      · exact ⟨_, List.mem_cons_self, (h.serverItemDelete hr h₁).symm⟩
      · split at he
        · cases he
          exact absurd h (Lost.not_same rfl rfl)
        · next hlim =>
          obtain ⟨_, hitem, -⟩ := hev.item a
          obtain ⟨x, hx, hxb⟩ := ih (a :: done) (hr.serverItemDelete h₁) (hev.trans (.serverItemDelete h₁))
            (by rw [hsize, hitem, List.map_cons, List.sum_cons, Nat.add_comm]) he h
          refine ⟨x, List.mem_cons_of_mem _ ?_, hxb⟩
          rw [Option.elim_some, if_neg hlim]
          exact hx

theorem serverItemExpire_lost {b : Nat} (hr : Recent m) (he : m.serverItemExpire rt s target = some m') (h : Lost b m m') :
    ∃ x ∈ m.expireRemovals rt s target, x.item = b := by
  unfold serverItemExpire at he
  obtain ⟨⟨k, m₁⟩, h₁, he⟩ := Option.bind_eq_some_iff.mp he
  cases he
  rcases h.split m₁ with h | h
  · exact expireItems_lost [] hr h₁ h
  · obtain ⟨hsp, -⟩ := expirePassbys_frame s k (m₁.passbyLru s).reverse m₁
    exact absurd h (Lost.not_same (by rw [hsp]) (by rw [hsp]))

theorem runningRemovals_lost {b : Nat} {l : List Nat} (hr : Recent m)
    (he : l.foldlM (fun m s => m.serverItemExpire rt s ((m.server s).consumed - (m.server s).conf.capacity)) m = some m')
    (h : Lost b m m') : ∃ x ∈ m.runningRemovals rt l, x.item = b := by
  induction l generalizing m with
  | nil =>
    cases he
    exact absurd h (Lost.not_same rfl rfl)
  | cons s l ih =>
    rw [List.foldlM_cons] at he
    obtain ⟨m₁, h₁, he⟩ := Option.bind_eq_some_iff.mp he
    unfold runningRemovals
    simp only [h₁, Option.elim_some]
    rcases h.split m₁ with h | h
    · obtain ⟨x, hx, hb⟩ := serverItemExpire_lost hr h₁ h
      exact ⟨x, List.mem_append_left _ hx, hb⟩
    · obtain ⟨x, hx, hb⟩ := ih ((Recent.evictions rt).serverItemExpire hr h₁) he h
      exact ⟨x, List.mem_append_right _ hx, hb⟩

theorem serverDestroy_lost {b : Nat} (hr : Recent m) (hd : m.serverDestroy rt s = some m') (h : Lost b m m') :
    ∃ x ∈ m.expireRemovals rt s (m.server s).consumed, x.item = b := by
  unfold serverDestroy at hd
  obtain ⟨m₁, h₁, hd⟩ := Option.bind_eq_some_iff.mp hd
  refine serverItemExpire_lost hr h₁ ?_
  split at hd
  · cases hd
    exact h
  · obtain ⟨t, -, hd⟩ := Option.bind_eq_some_iff.mp hd
    cases hd
    exact h

theorem destroyRemovals_lost {b : Nat} {l : List Nat} (hr : Recent m) (hl : l.Nodup) (hsub : ∀ s ∈ l, s ∈ m.deletedServers)
    (hd : l.foldlM (fun m s => m.serverDestroy rt s) m = some m') (h : Lost b m m') :
    ∃ x ∈ m.destroyRemovals rt l, x.item = b := by
  induction l generalizing m with
  | nil =>
    cases hd
    exact absurd h (Lost.not_same rfl rfl)
  | cons s l ih =>
    rw [List.foldlM_cons] at hd
    obtain ⟨m₁, h₁, hd⟩ := Option.bind_eq_some_iff.mp hd
    obtain ⟨hs, hl⟩ := List.nodup_cons.mp hl
    obtain ⟨hr₁, hkeep⟩ := (Recent.evictions rt).serverDestroy Recent.frees hr (hsub s List.mem_cons_self) h₁
    unfold destroyRemovals
    simp only [h₁, Option.elim_some]
    rcases h.split m₁ with h | h
    · obtain ⟨x, hx, hb⟩ := serverDestroy_lost hr h₁ h
      exact ⟨x, List.mem_append_left _ hx, hb⟩
    · obtain ⟨x, hx, hb⟩ := ih hr₁ hl
        (fun y hy => hkeep y (hsub y (List.mem_cons_of_mem s hy)) fun hne => hs (hne ▸ hy)) hd h
      exact ⟨x, List.mem_append_right _ hx, hb⟩

/-- Whatever `server_routine` takes away is among its calls. -/
theorem serverRoutine_lost {b : Nat} (hr : Recent m) (he : m.serverRoutine rt = some m') (h : Lost b m m') :
    ∃ x ∈ m.routineRemovals rt, x.item = b := by
  unfold serverRoutine at he
  obtain ⟨m₁, h₁, he⟩ := Option.bind_eq_some_iff.mp he
  obtain ⟨m₂, h₂, he⟩ := Option.bind_eq_some_iff.mp he
  have hr₁ := (Recent.evictions rt).expireServers hr h₁
  have hr₂ := (Recent.evictions rt).serverSharedExpire hr₁ h₂
  have hcalls : m.routineRemovals rt = m.runningRemovals rt m.servers ++ m₁.sharedRemovals rt 0 ++
      m₂.destroyRemovals rt m₂.deletedServers := by
    simp only [routineRemovals, h₁, Option.bind_some, h₂, Option.elim_some]
  rw [hcalls]
  rcases h.split m₁ with h | h
  · obtain ⟨x, hx, hb⟩ := runningRemovals_lost hr h₁ h
    exact ⟨x, List.mem_append_left _ (List.mem_append_left _ hx), hb⟩
  rcases h.split m₂ with h | h
  · obtain ⟨x, hx, hb⟩ := expireShared_lost [] hr₁ (.refl m₁) rfl h₂ h
    exact ⟨x, List.mem_append_left _ (List.mem_append_right _ hx), hb⟩
  · obtain ⟨x, hx, hb⟩ := destroyRemovals_lost hr₂ (List.nodup_append.mp hr₂.table.nodup).2.1 (fun _ hs => hs) he h
    exact ⟨x, List.mem_append_right _ hx, hb⟩

end Loops

/-! ## Which items are valid does not change meanwhile -/

/-- What the calls do at most: no device is kicked. -/
structure Steady (m m' : Master) : Prop where
  evicted : Evicted m m'
  flags : FlagsSame m.space m'.space

namespace Steady

variable {rt : Runtime} {m m' m'' : Master} {s a : Nat}

theorem refl (m : Master) : Steady m m := ⟨.refl m, .refl _⟩

theorem trans (h : Steady m m') (h' : Steady m' m'') : Steady m m'' := ⟨h.evicted.trans h'.evicted, h.flags.trans h'.flags⟩

theorem valid (h : Steady m m') (a : Nat) : m'.serverItemValid a = m.serverItemValid a := by
  obtain ⟨_, hitem, -⟩ := h.evicted.item a
  have hs : ∀ x, (m'.server x).deleted = (m.server x).deleted ∧ (m'.server x).clear = (m.server x).clear := by
    intro x
    obtain ⟨_, _, _, _, hx⟩ := h.evicted.server x
    rw [hx]
    exact ⟨rfl, rfl⟩
  simp only [serverItemValid, serverOfItem, Space.deviceOfItem, hitem, h.flags.indexs, h.flags.deleted, h.evicted.serverIndexs,
    h.evicted.now, (hs _).1, (hs _).2]

/-- The item does not lie on a bad block, if it is really deleted. -/
theorem serverItemDelete (hb : ¬InUse a m → (m.space.item a).badblock = false) (hd : m.serverItemDelete rt a = some m') :
    Steady m m' := by
  refine ⟨.serverItemDelete hd, ?_⟩
  unfold Master.serverItemDelete at hd
  split at hd
  · cases hd
  obtain ⟨x, -, hd⟩ := Option.bind_eq_some_iff.mp hd
  -- The hash has no part in it.
  have hsp : (if (m.space.item a).deleted = true then m else m.unlink x ⟨(m.space.item a).id, .item a⟩).space = m.space := by
    split <;> rfl
  simp only at hd
  split at hd
  · cases hd
    rw [setItem, hsp]
    exact ⟨rfl, fun _ => rfl⟩
  · next hfree =>
    obtain ⟨⟨k, sp⟩, hk, hd⟩ := Option.bind_eq_some_iff.mp hd
    cases hd
    rw [hsp] at hk
    have hf := FlagsSame.returnFreeBlock (hb hfree) hk
    exact ⟨hf.indexs, hf.deleted⟩

/-- The loops over the lists. -/
theorem evictions (rt : Runtime) (hk : Filed none m) :
    Evictions rt (fun a => ¬InUse a m → (m.space.item a).badblock = false) (Steady m) := by
  refine ⟨fun h a ha => (hk.settled _ a ((h.evicted.lru _).subset ha) nofun).badblock_eq_false, fun {m₁ a m₂} h hq hd => ?_,
    fun {m₁ s count} h => ?_⟩
  · refine h.trans (.serverItemDelete (fun hu => ?_) hd)
    obtain ⟨_, hitem, -⟩ := h.evicted.item a
    rw [InUse, hitem] at hu
    rw [hitem]
    exact hq hu
  · obtain ⟨hsp, -⟩ := expirePassbys_frame s count (m₁.passbyLru s).reverse m₁
    exact h.trans ⟨.expirePassbys, by rw [hsp]; exact .refl _⟩

end Steady

/-! ## What is removed -/

/-- The server has a capacity of its own, and consumes more. -/
def OverCapacity (s : Nat) (m : Master) : Prop :=
  (m.server s).conf.capacity ≠ 0 ∧ (m.server s).conf.capacity < (m.server s).consumed

section Removed

variable {rt : Runtime} {m m' : Master} {s a target : Nat}

/-- An item in the list of a server leads to this server, if to any. -/
theorem server_of_listed (hk : Filed.Kept none m) (hs : s ∈ m.allServers) (ha : a ∈ m.lru (some s)) {x : Nat}
    (hx : m.serverOfItem a = some x) : x = s := by
  unfold serverOfItem at hx
  rw [hk.2.owned s a ha] at hx
  exact hk.1.table.eq_of_get hs hx

/-- A call of a loop over list `l`, that began in state `m` with the items
`todo` before it. -/
structure Called (l : Option Nat) (reached : List Nat → Master → Prop) (todo : List Nat) (m : Master) (x : Removal) :
    Prop where
  kept : Filed.Kept none x.state
  steady : Steady m x.state
  listed : x.item ∈ x.state.lru l
  near : x.item ∈ todo
  due : ∃ done, ¬(reached done x.state ∧ x.state.serverItemValid x.item = some true)

theorem removals_called {l : Option Nat} {reached : List Nat → Master → Prop} [∀ done m, Decidable (reached done m)]
    {todo : List Nat} (done : List Nat) (hk : Filed.Kept none m) (hn : todo.Nodup) (hl : ∀ a ∈ todo, a ∈ m.lru l) (hc : done.length ≤ loopLimit)
    {x : Removal} (hx : x ∈ m.removals rt reached done todo) :
    Called l reached (todo.take (loopLimit + 1 - done.length)) m x := by
  induction todo generalizing m done with
  | nil => cases hx
  | cons a todo ih =>
    unfold removals at hx
    split at hx
    · next hgo =>
      have htake : (a :: todo).take (loopLimit + 1 - done.length) = a :: todo.take (loopLimit - done.length) := by
        rw [Nat.sub_add_comm hc, List.take_succ_cons]
      rw [htake]
      rcases List.mem_cons.mp hx with rfl | hx
      · refine ⟨hk, .refl m, hl a List.mem_cons_self, List.mem_cons_self, done, fun hv => ?_⟩
        unfold GoesOn at hgo
        rw [if_pos hv.1, hv.2] at hgo
        cases hgo
      obtain ⟨m₁, hd, hx⟩ := mem_elim_nil hx
      split at hx
      · cases hx
      · next hlim =>
        obtain ⟨ha, hn⟩ := List.nodup_cons.mp hn
        have hst := Steady.serverItemDelete (hk.2.settled l a (hl a List.mem_cons_self) nofun).badblock_eq_false hd
        have hdel := hk.1.deleted hd
        -- The others stay in the list.
        have hl₁ : ∀ b ∈ todo, b ∈ m₁.lru l := by
          intro b hb
          have hbl := hl b (List.mem_cons_of_mem a hb)
          have hba : b ≠ a := fun he => ha (he ▸ hb)
          by_cases hu : InUse a m
          · rw [(hdel.used hu).2.1]
            exact hbl
          · rw [(hdel.free hu).2]
            exact List.mem_filter.mpr ⟨hbl, by simpa using hba⟩
        have hrec := ih (a :: done) (hk.itemDelete hd) hn hl₁ (Nat.lt_of_not_le hlim) hx
        rw [List.length_cons, Nat.add_sub_add_right] at hrec
        exact ⟨hrec.kept, hst.trans hrec.steady, hrec.listed, List.mem_cons_of_mem a hrec.near, hrec.due⟩
    · cases hx

/-- The calls of `server_item_expire`. -/
theorem expireRemovals_called (hk : Filed.Kept none m) {x : Removal} (hx : x ∈ m.expireRemovals rt s target) :
    Called (some s) (consumedReached s (m.server s).consumed target) ((m.lru (some s)).reverse.take (loopLimit + 1)) m x :=
  removals_called [] hk (List.nodup_reverse.mpr (hk.1.ranked.nodup (some s))) (fun _ ha => List.mem_reverse.mp ha)
    (Nat.zero_le _) hx

/-- A call for a running server that removes a valid item. -/
theorem expireRemovals_over (hk : Filed.Kept none m) (hs : s ∈ m.allServers) {x : Removal}
    (hx : x ∈ m.expireRemovals rt s ((m.server s).consumed - (m.server s).conf.capacity))
    (hzero : (m.server s).conf.capacity = 0 → ∀ a ∈ (m.lru (some s)).reverse.take (loopLimit + 1), m.serverItemValid a ≠ some true)
    {y : Nat} (hy : x.state.serverOfItem x.item = some y) (hv : x.state.serverItemValid x.item = some true) :
    OverCapacity y x.state := by
  have hc := expireRemovals_called hk hx
  have hall : s ∈ x.state.allServers := by
    rw [allServers, hc.steady.evicted.servers, hc.steady.evicted.deletedServers]
    exact hs
  rw [server_of_listed hc.kept hall hc.listed hy]
  obtain ⟨_, _, _, _, hserver⟩ := hc.steady.evicted.server s
  have hconf : (x.state.server s).conf = (m.server s).conf := by rw [hserver]
  have hcap : (m.server s).conf.capacity ≠ 0 := fun h0 => hzero h0 x.item hc.near (hc.steady.valid x.item ▸ hv)
  obtain ⟨done, hdue⟩ := hc.due
  have hnot : ¬sizeSub (m.server s).consumed (x.state.server s).consumed ≥
      (m.server s).consumed - (m.server s).conf.capacity := fun hre => hdue ⟨hre, hv⟩
  rw [OverCapacity, hconf]
  refine ⟨hcap, ?_⟩
  unfold sizeSub modulus64 at hnot
  split at hnot <;> omega

/-- Each item that a walk deletes leads to a server. -/
theorem Walk.served {reached : List Nat → Master → Prop} {tail : List Nat} (h : Walk rt reached m tail m') :
    ∀ b ∈ tail, ∃ x, m.serverOfItem b = some x := by
  induction h with
  | nil => exact nofun
  | @cons a tail m₁ m₂ hw _ hd ih =>
    intro b hb
    rcases List.mem_cons.mp hb with rfl | hb
    · unfold serverItemDelete at hd
      split at hd
      · cases hd
      obtain ⟨x, hx, -⟩ := Option.bind_eq_some_iff.mp hd
      obtain ⟨_, hitem, -⟩ := hw.evicted.item b
      refine ⟨x, ?_⟩
      rw [serverOfItem, hw.evicted.serverIndexs, hitem] at hx
      exact hx
    · exact ih b hb

/-- The lists of the other servers stay. -/
theorem serverItemExpire_other (hk : Filed.Kept none m) (hs : s ∈ m.allServers) {y : Nat} (hy : y ∈ m.allServers) (hne : y ≠ s)
    (he : m.serverItemExpire rt s target = some m') : m'.lru (some y) = m.lru (some y) := by
  obtain ⟨kept, tail, m₁, hl, hw, hp, -⟩ := serverItemExpire_sweep hk.1 he
  rw [hp.lru, List.filter_eq_self]
  intro b hb
  refine decide_eq_true (.inl fun ht => ?_)
  -- An item of both lists would lead to both servers.
  obtain ⟨x, hx⟩ := hw.served b ht
  have hbs : b ∈ m.lru (some s) := hl ▸ List.mem_append_right kept ht
  exact hne ((server_of_listed hk hy hb hx).symm.trans (server_of_listed hk hs hbs hx))

/-- No running server with capacity 0 has a valid item where `server_routine`
gets to in the list of the server. -/
def SharedOutlived (m : Master) : Prop :=
  ∀ s ∈ m.servers, (m.server s).conf.capacity = 0 →
    ∀ a ∈ (m.lru (some s)).reverse.take (loopLimit + 1), m.serverItemValid a ≠ some true

theorem runningRemovals_over {m₀ : Master} {l : List Nat} (hk : Filed.Kept none m) (hst : Steady m₀ m) (hn : l.Nodup)
    (hl : ∀ s ∈ l, s ∈ m₀.servers) (hlru : ∀ s ∈ l, m.lru (some s) = m₀.lru (some s)) (hc : SharedOutlived m₀) {x : Removal}
    (hx : x ∈ m.runningRemovals rt l) {y : Nat} (hy : x.state.serverOfItem x.item = some y)
    (hv : x.state.serverItemValid x.item = some true) : OverCapacity y x.state := by
  induction l generalizing m with
  | nil => cases hx
  | cons s l ih =>
    unfold runningRemovals at hx
    have hall : ∀ z ∈ s :: l, z ∈ m.allServers := fun z hz =>
      List.mem_append_left _ (hst.evicted.servers ▸ hl z hz)
    have hs := hall s List.mem_cons_self
    rcases List.mem_append.mp hx with hx | hx
    · obtain ⟨_, _, _, _, hserver⟩ := hst.evicted.server s
      refine expireRemovals_over hk hs hx (fun h0 a ha => ?_) hy hv
      rw [hst.valid a]
      rw [hlru s List.mem_cons_self] at ha
      rw [hserver] at h0
      exact hc s (hl s List.mem_cons_self) h0 a ha
    · obtain ⟨hns, hn⟩ := List.nodup_cons.mp hn
      obtain ⟨m₁, he, hx⟩ := mem_elim_nil hx
      refine ih ((Filed.evictions rt none).serverItemExpire hk he)
        (hst.trans ((Steady.evictions rt hk.2).serverItemExpire (.refl m) he)) hn (fun z hz => hl z (List.mem_cons_of_mem s hz))
        (fun z hz => ?_) hx
      rw [serverItemExpire_other hk hs (hall z (List.mem_cons_of_mem s hz)) (fun hzs => hns (hzs ▸ hz)) he]
      exact hlru z (List.mem_cons_of_mem s hz)

/-- Nothing valid is removed from the shared list: nothing is asked for. -/
theorem sharedRemovals_invalid (hk : Filed.Kept none m) {x : Removal} (hx : x ∈ m.sharedRemovals rt 0) :
    x.state.serverItemValid x.item ≠ some true := by
  have hc := removals_called (l := none) [] hk (List.nodup_reverse.mpr (hk.1.ranked.nodup none))
    (fun _ ha => List.mem_reverse.mp ha) (Nat.zero_le _) hx
  obtain ⟨done, hdue⟩ := hc.due
  exact fun hv => hdue ⟨Nat.zero_le _, hv⟩

/-- The items of a deleted server are not valid. -/
theorem destroyRemovals_invalid {l : List Nat} (hk : Filed.Kept none m) (hl : l.Nodup) (hsub : ∀ s ∈ l, s ∈ m.deletedServers)
    {x : Removal} (hx : x ∈ m.destroyRemovals rt l) : x.state.serverItemValid x.item ≠ some true := by
  induction l generalizing m with
  | nil => cases hx
  | cons s l ih =>
    have hs := hsub s List.mem_cons_self
    rcases List.mem_append.mp hx with hx | hx
    · intro hv
      have hc := expireRemovals_called hk hx
      have hdel : s ∈ x.state.deletedServers := by
        rw [hc.steady.evicted.deletedServers]
        exact hs
      unfold serverItemValid at hv
      obtain ⟨d, -, hv⟩ := Option.bind_eq_some_iff.mp hv
      obtain ⟨y, hy, hv⟩ := Option.bind_eq_some_iff.mp hv
      rw [server_of_listed hc.kept (List.mem_append_right _ hdel) hc.listed hy, hc.kept.2.retired s hdel] at hv
      simp at hv
    · obtain ⟨hns, hl⟩ := List.nodup_cons.mp hl
      obtain ⟨m₁, hd, hx⟩ := mem_elim_nil hx
      obtain ⟨hk₁, hkeep⟩ := (Filed.evictions rt none).serverDestroy (Filed.frees none) hk hs hd
      exact ih hk₁ hl
        (fun z hz => hkeep z (hsub z (List.mem_cons_of_mem s hz)) fun hzs => hns (hzs ▸ hz)) hx

end Removed

/-- `server_routine` in state `m`: all that it takes away is among its calls,
and a valid item goes only while its server is over its capacity. -/
structure RoutineOk (rt : Runtime) (m : Master) : Prop where
  calls : ∀ m' b, m.serverRoutine rt = some m' → Lost b m m' → ∃ x ∈ m.routineRemovals rt, x.item = b
  valid : ∀ x ∈ m.routineRemovals rt, ∀ s, x.state.serverOfItem x.item = some s →
    x.state.serverItemValid x.item = some true → OverCapacity s x.state

/-- **`server_routine` evicts only what is over a capacity**, in every state
of the program in which no server with capacity 0 has valid items left from
when it had another. -/
theorem routine_over_capacity {rt : Runtime} {m : Master} (h : (masterSystem rt).Reachable m) (hc : SharedOutlived m) :
    RoutineOk rt m := by
  have hk := filed_run h
  refine ⟨fun m' b he hb => serverRoutine_lost hk.1 he hb, fun x hx s hs hv => ?_⟩
  have hnodup := (List.nodup_append.mp hk.1.table.nodup).1
  unfold routineRemovals at hx
  rcases List.mem_append.mp hx with hx | hx
  · rcases List.mem_append.mp hx with hx | hx
    · exact runningRemovals_over hk (.refl m) hnodup (fun _ hs => hs) (fun _ _ => rfl) hc hx hs hv
    · obtain ⟨m₁, h₁, hx⟩ := mem_elim_nil hx
      exact absurd hv (sharedRemovals_invalid ((Filed.evictions rt none).expireServers hk h₁) hx)
  · obtain ⟨m₂, h₂, hx⟩ := mem_elim_nil hx
    obtain ⟨m₁, h₁, h₂⟩ := Option.bind_eq_some_iff.mp h₂
    have hk₂ := (Filed.evictions rt none).serverSharedExpire ((Filed.evictions rt none).expireServers hk h₁) h₂
    exact absurd hv (destroyRemovals_invalid hk₂ (List.nodup_append.mp hk₂.1.table.nodup).2.1 (fun _ hs => hs) hx)

/-- One server with some capacity. -/
def sized (capacity : Nat) : Conf := { Conf.small 1 with servers := [{ ServerConf.default 80 with capacity }] }

/-- A store from its connection to its end, by request `r`. -/
def stored (r : Nat) (text : String) : List MasterEvent :=
  [.accept 0 r .blank (List.replicate reqBufSize 0) (lit text), .conn r (.recv ⟨0, 0, fun _ => -1⟩ (lit text).length),
    .handle r true true, .conn r (.preread true true), .finish r]

/-- Two items of a block each are more than the server may have. -/
theorem routine_over_capacity_two : ∃ m, (masterSystem .plain).Reachable m ∧ RoutineOk .plain m ∧
    (m.server 0).consumed = 1024 ∧ (m.server 0).conf.capacity = 600 ∧ (m.routineRemovals .plain).map (·.item) = [1] := by
  have hrun : (System.run (masterStep .plain) (Process.boot 0).master (.reload .plain (sized 600) ::
      stored 7 "PUT /a HTTP/1.1\r\nContent-Length:5\r\n\r\nhello" ++
      stored 8 "PUT /bc HTTP/1.1\r\nContent-Length:5\r\n\r\nhello")).map (fun m =>
        (m.servers, (m.server 0).consumed, (m.server 0).conf.capacity, (m.routineRemovals .plain).map (·.item))) =
      some ([0], 1024, 600, [1]) := by decide +kernel
  obtain ⟨m, hm, hview⟩ := Option.map_eq_some_iff.mp hrun
  simp only [Prod.mk.injEq] at hview
  obtain ⟨hservers, hconsumed, hcap, hcalls⟩ := hview
  have hr : (masterSystem .plain).Reachable m := masterSystem_run rfl (.init ⟨0, rfl⟩) hm
  refine ⟨m, hr, routine_over_capacity hr fun s hs h0 => ?_, hconsumed, hcap, hcalls⟩
  rw [hservers, List.mem_singleton] at hs
  rw [hs, hcap] at h0
  cases h0

/-- An item is stored while the server has a capacity of its own. A reload
sets it to 0, and the next `server_routine` removes the valid item. -/
theorem routine_after_reload : ∃ m, (masterSystem .plain).Reachable m ∧ (m.server 0).conf.capacity = 0 ∧ ¬RoutineOk .plain m := by
  have hrun : (System.run (masterStep .plain) (Process.boot 0).master (.reload .plain (sized 600) ::
      stored 7 "PUT /a HTTP/1.1\r\nContent-Length:5\r\n\r\nhello" ++ [.reload .plain (sized 0)])).map (fun m =>
        ((m.server 0).conf.capacity, (m.routineRemovals .plain).map fun x =>
          (x.state.serverOfItem x.item, x.state.serverItemValid x.item, (x.state.server 0).conf.capacity))) =
      some (0, [(some 0, some true, 0)]) := by decide +kernel
  obtain ⟨m, hm, hview⟩ := Option.map_eq_some_iff.mp hrun
  simp only [Prod.mk.injEq] at hview
  obtain ⟨hcap, hcalls⟩ := hview
  refine ⟨m, masterSystem_run rfl (.init ⟨0, rfl⟩) hm, hcap, fun hok => ?_⟩
  obtain ⟨x, hx, hview⟩ := List.mem_map.mp (hcalls ▸ List.mem_singleton_self (some 0, some true, 0))
  simp only [Prod.mk.injEq] at hview
  obtain ⟨hs, hv, h0⟩ := hview
  exact (hok.valid x hx 0 hs hv).1 h0

end Master

end OliveHc
