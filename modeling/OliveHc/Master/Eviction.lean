/-
What `server_item_expire` and `server_shared_expire` do to a list.

Both walk it from its end, where the items are that were accessed longest
ago, and delete until enough is reached and the next item is valid. An item
in use stays in the list, out of the hash, for a later call to find again.
The calls are made in states of the program, and in states within a step:
while a store searches for a block, and while the servers are looked after.
-/
import OliveHc.Master.Admission
import OliveHc.Master.Recency

namespace OliveHc

namespace Master

open Recent (InUse)

/-! ## The walk -/

/-- From `m` on, the items `tail` at the end of a list have been processed,
and none that was valid when enough was reached. -/
inductive Walk (rt : Runtime) (reached : List Nat → Master → Prop) (m : Master) : List Nat → Master → Prop
  | nil : Walk rt reached m [] m
  | cons {a : Nat} {tail : List Nat} {m₁ m₂ : Master} : Walk rt reached m tail m₁ →
      ¬(reached tail m₁ ∧ m₁.serverItemValid a = some true) → m₁.serverItemDelete rt a = some m₂ →
      Walk rt reached m (a :: tail) m₂

/-- What is left when the items `tail` have been processed. -/
structure Processed (tail : List Nat) (m m' : Master) : Prop where
  removed : ∀ a ∈ tail, ¬InUse a m → a ∉ m'.space.items
  marked : ∀ a ∈ tail, InUse a m → m'.space.item a = { m.space.item a with deleted := true }
  unlinked : ∀ a ∈ tail, ∀ s ∈ m'.allServers, ∀ id, ¬(m'.hash s).Has ⟨id, .item a⟩
  items : ∀ b, b ∉ tail ∨ InUse b m → (b ∈ m'.space.items ↔ b ∈ m.space.items)
  item : ∀ b, b ∉ tail → m'.space.item b = m.space.item b
  hash : ∀ b, b ∉ tail → ∀ s id, (m'.hash s).Has ⟨id, .item b⟩ ↔ (m.hash s).Has ⟨id, .item b⟩
  lru : ∀ l, m'.lru l = (m.lru l).filter fun b => b ∉ tail ∨ InUse b m

theorem Processed.refl (m : Master) : Processed [] m m where
  removed := nofun
  marked := nofun
  unlinked := nofun
  items _ _ := Iff.rfl
  item _ _ := rfl
  hash _ _ _ _ := Iff.rfl
  lru l := (List.filter_eq_self.mpr fun _ _ => by simp).symm

namespace Walk

variable {rt : Runtime} {reached : List Nat → Master → Prop} {m m' : Master} {tail : List Nat}

theorem evicted (h : Walk rt reached m tail m') : Evicted m m' := by
  induction h with
  | nil => exact .refl m
  | cons _ _ hd ih => exact ih.trans (.serverItemDelete hd)

theorem recent (h : Walk rt reached m tail m') (hr : Recent m) : Recent m' := by
  induction h with
  | nil => exact hr
  | cons _ _ hd ih => exact ih.serverItemDelete hd

theorem processed (h : Walk rt reached m tail m') (hr : Recent m) (hn : tail.Nodup) : Processed tail m m' := by
  induction h with
  | nil => exact .refl m
  | @cons a tail m₁ m₂ hw _ hd ih =>
    obtain ⟨ha, hn⟩ := List.nodup_cons.mp hn
    have hp := ih hn
    have hdel := (hw.recent hr).deleted hd
    have he := Evicted.serverItemDelete hd
    have hall : m₂.allServers = m₁.allServers := by rw [allServers, he.servers, he.deletedServers, allServers]
    -- The item was untouched until it was its turn.
    have hself : m₁.space.item a = m.space.item a := hp.item a ha
    have huse : InUse a m₁ ↔ InUse a m := by rw [InUse, hself]
    have hitems : ∀ b, b ≠ a → (b ∈ m₂.space.items ↔ b ∈ m₁.space.items) := by
      intro b hb
      by_cases hu : InUse a m₁
      · rw [(hdel.used hu).1]
      · rw [(hdel.free hu).1, List.mem_filter]
        simp [hb]
    refine ⟨fun b hb hu => ?_, fun b hb hu => ?_, fun b hb s hs id => ?_, fun b hb => ?_, fun b hb => ?_,
      fun b hb s id => ?_, fun l => ?_⟩
    · rcases List.mem_cons.mp hb with rfl | hb
      · rw [(hdel.free (mt huse.mp hu)).1, List.mem_filter]
        simp
      · exact fun hmem => hp.removed b hb hu (he.items.subset hmem)
    · rcases List.mem_cons.mp hb with rfl | hb
      · rw [(hdel.used (huse.mpr hu)).2.2, hself]
      · rw [hdel.item b fun hba => ha (hba ▸ hb)]
        exact hp.marked b hb hu
    · rcases List.mem_cons.mp hb with rfl | hb
      · exact hdel.unlinked s hs id
      · rw [hdel.hash s id b fun hba => ha (hba ▸ hb)]
        exact hp.unlinked b hb s (hall ▸ hs) id
    · by_cases hba : b = a
      · subst hba
        have hu : InUse b m := hb.resolve_left fun hn => hn List.mem_cons_self
        rw [(hdel.used (huse.mpr hu)).1]
        exact hp.items b (.inl ha)
      · rw [hitems b hba]
        exact hp.items b (hb.imp (fun hn hb => hn (List.mem_cons_of_mem a hb)) id)
    · rw [hdel.item b (List.ne_of_not_mem_cons hb)]
      exact hp.item b (List.not_mem_of_not_mem_cons hb)
    · rw [hdel.hash s id b (List.ne_of_not_mem_cons hb)]
      exact hp.hash b (List.not_mem_of_not_mem_cons hb) s id
    · by_cases hu : InUse a m₁
      · rw [(hdel.used hu).2.1, hp.lru l]
        refine List.filter_congr fun b _ => decide_eq_decide.mpr ?_
        by_cases hba : b = a
        · rw [hba]
          exact iff_of_true (.inl ha) (.inr (huse.mp hu))
        · simp only [List.mem_cons, hba, false_or]
      · rw [(hdel.free hu).2 l, hp.lru l, List.filter_filter]
        refine List.filter_congr fun b _ => ?_
        by_cases hba : b = a
        · have hu : ¬InUse b m := by
            rw [hba, ← huse]
            exact hu
          simp only [hba, List.mem_cons, true_or, not_true, false_or, ne_eq, decide_false, Bool.false_and]
          rw [← hba]
          exact (decide_eq_false hu).symm
        · simp only [List.mem_cons, hba, false_or, ne_eq, not_false_eq_true, decide_true, Bool.true_and]

end Walk

/-- A call that walks list `l`: it processes a segment at the end, and stops
before the begin only at the limit, or when enough is reached and the next
item is valid. -/
def Sweep (rt : Runtime) (l : Option Nat) (reached : List Nat → Master → Prop) (m m' : Master) : Prop :=
  ∃ kept tail m₁, m.lru l = kept ++ tail ∧ Walk rt reached m tail m₁ ∧ Processed tail m m' ∧
    (kept = [] ∨ loopLimit < tail.length ∨
      ∃ b, kept.getLast? = some b ∧ reached tail m' ∧ m'.serverItemValid b = some true)

/-- Where a loop stops: the items it has left and those it has processed. -/
def Stopped (rt : Runtime) (reached : List Nat → Master → Prop) (m : Master) (l : List Nat) (m' : Master) : Prop :=
  ∃ kept tail, l = kept ++ tail ∧ Walk rt reached m tail m' ∧
    (kept = [] ∨ loopLimit < tail.length ∨
      ∃ b, kept.getLast? = some b ∧ reached tail m' ∧ m'.serverItemValid b = some true)

section Loops

variable {rt : Runtime} {m m₁ m' : Master} {s target count : Nat} {l tail : List Nat}

/-- The amount of `server_item_expire`. -/
def consumedReached (s before target : Nat) (_ : List Nat) (m : Master) : Prop :=
  sizeSub before (m.server s).consumed ≥ target

/-- The amount of `server_shared_expire`. -/
def lengthsReached (m₀ : Master) (target : Nat) (tail : List Nat) (_ : Master) : Prop :=
  (tail.map fun a => (m₀.space.item a).length).sum ≥ target

/-- The decision about one item. -/
theorem stop_cases {c : Prop} [Decidable c] {a : Nat} {stop : Bool}
    (h : (if c then m.serverItemValid a else some false) = some stop) :
    stop = true ∧ c ∧ m.serverItemValid a = some true ∨ stop = false ∧ ¬(c ∧ m.serverItemValid a = some true) := by
  cases stop with
  | true =>
    split at h
    · next hc => exact .inl ⟨rfl, hc, h⟩
    · cases h
  | false =>
    refine .inr ⟨rfl, fun hc => ?_⟩
    rw [if_pos hc.1, hc.2] at h
    cases h

theorem expireItems_stopped {before k : Nat} (hw : Walk rt (consumedReached s before target) m tail m₁)
    (hc : count = tail.length) (he : m₁.expireItems rt s before target count l = some (k, m')) :
    Stopped rt (consumedReached s before target) m (l.reverse ++ tail) m' := by
  induction l generalizing m₁ count tail with
  | nil =>
    cases he
    exact ⟨[], tail, rfl, hw, .inl rfl⟩
  | cons a l ih =>
    unfold expireItems at he
    obtain ⟨stop, hs, he⟩ := Option.bind_eq_some_iff.mp he
    rcases stop_cases hs with ⟨rfl, hr, hv⟩ | ⟨rfl, hgo⟩
    · cases he
      exact ⟨(a :: l).reverse, tail, rfl, hw, .inr (.inr ⟨a, by simp, hr, hv⟩)⟩
    obtain ⟨m₂, hd, he⟩ := Option.bind_eq_some_iff.mp he
    have hw₂ := hw.cons hgo hd
    rw [List.reverse_cons, List.append_assoc, List.singleton_append]
    split at he
    · next hlim =>
      cases he
      exact ⟨l.reverse, a :: tail, rfl, hw₂, .inr (.inl (by rw [List.length_cons, ← hc]; exact Nat.lt_succ_of_le hlim))⟩
    · exact ih hw₂ (by rw [hc, List.length_cons]) he

theorem expireShared_stopped {size : Nat} (hw : Walk rt (lengthsReached m target) m tail m₁) (hc : count = tail.length)
    (hsize : size = (tail.map fun a => (m.space.item a).length).sum)
    (he : m₁.expireShared rt target size count l = some m') :
    Stopped rt (lengthsReached m target) m (l.reverse ++ tail) m' := by
  induction l generalizing m₁ size count tail with
  | nil =>
    cases he
    exact ⟨[], tail, rfl, hw, .inl rfl⟩
  | cons a l ih =>
    unfold expireShared at he
    obtain ⟨stop, hs, he⟩ := Option.bind_eq_some_iff.mp he
    rw [hsize] at hs
    rcases stop_cases hs with ⟨rfl, hr, hv⟩ | ⟨rfl, hgo⟩
    · cases he
      exact ⟨(a :: l).reverse, tail, rfl, hw, .inr (.inr ⟨a, by simp, hr, hv⟩)⟩
    obtain ⟨m₂, hd, he⟩ := Option.bind_eq_some_iff.mp he
    have hw₂ := hw.cons hgo hd
    rw [List.reverse_cons, List.append_assoc, List.singleton_append]
    split at he
    · next hlim =>
      cases he
      exact ⟨l.reverse, a :: tail, rfl, hw₂, .inr (.inl (by rw [List.length_cons, ← hc]; exact Nat.lt_succ_of_le hlim))⟩
    · -- No deletion changes the length of an item.
      obtain ⟨del, hitem, -⟩ := hw.evicted.item a
      refine ih hw₂ (by rw [hc, List.length_cons]) ?_ he
      rw [hsize, hitem, List.map_cons, List.sum_cons, Nat.add_comm]

/-- The loop over the pass-by items concerns no item. -/
theorem expirePassbys_frame (s count : Nat) (l : List Nat) (m : Master) :
    (m.expirePassbys s count l).space = m.space ∧ (m.expirePassbys s count l).lru = m.lru ∧
      (∀ x, ((m.expirePassbys s count l).server x).consumed = (m.server x).consumed) ∧
      ∀ x id b, ((m.expirePassbys s count l).hash x).Has ⟨id, .item b⟩ ↔ (m.hash x).Has ⟨id, .item b⟩ := by
  induction l generalizing m count with
  | nil => exact ⟨rfl, rfl, fun _ => rfl, fun _ _ _ => Iff.rfl⟩
  | cons p l ih =>
    have hstep : (m.serverPassbyItemDelete s p).space = m.space ∧ (m.serverPassbyItemDelete s p).lru = m.lru ∧
        (∀ x, ((m.serverPassbyItemDelete s p).server x).consumed = (m.server x).consumed) ∧
        ∀ x id b, ((m.serverPassbyItemDelete s p).hash x).Has ⟨id, .item b⟩ ↔ (m.hash x).Has ⟨id, .item b⟩ := by
      refine ⟨rfl, rfl, fun x => ?_, fun x id b => ?_⟩
      · show (Function.update m.server s _ x).consumed = _
        by_cases hx : x = s
        · rw [hx, Function.update_self]
          rfl
        · rw [Function.update_of_ne hx]
      · show (Function.update m.hash s _ x).Has _ ↔ _
        by_cases hx : x = s
        · rw [hx, Function.update_self, hashDel_has]
          simp
        · rw [Function.update_of_ne hx]
    unfold expirePassbys
    simp only
    split
    · exact ⟨rfl, rfl, fun _ => rfl, fun _ _ _ => Iff.rfl⟩
    split
    · exact hstep
    · obtain ⟨h₁, h₂, h₃, h₄⟩ := ih (count + 1) (m.serverPassbyItemDelete s p)
      exact ⟨h₁.trans hstep.1, h₂.trans hstep.2.1, fun x => (h₃ x).trans (hstep.2.2.1 x),
        fun x id b => (h₄ x id b).trans (hstep.2.2.2 x id b)⟩

/-- Whether an item is valid depends on its server, its device and the time. -/
theorem serverItemValid_evicted {a : Nat} (he : Evicted m m') (hsp : m'.space = m.space) :
    m'.serverItemValid a = m.serverItemValid a := by
  have hs : ∀ x, (m'.server x).deleted = (m.server x).deleted ∧ (m'.server x).clear = (m.server x).clear := by
    intro x
    obtain ⟨_, _, _, _, hx⟩ := he.server x
    rw [hx]
    exact ⟨rfl, rfl⟩
  simp only [serverItemValid, serverOfItem, hsp, he.serverIndexs, he.now, (hs _).1, (hs _).2]

theorem serverSharedExpire_sweep (hr : Recent m) (he : m.serverSharedExpire rt target = some m') :
    Sweep rt none (lengthsReached m target) m m' := by
  obtain ⟨kept, tail, hl, hw, hstop⟩ := expireShared_stopped .nil rfl rfl he
  rw [List.reverse_reverse, List.append_nil] at hl
  have hn : tail.Nodup := (List.nodup_append.mp (hl ▸ hr.ranked.nodup none)).2.1
  exact ⟨kept, tail, m', hl, hw, hw.processed hr hn, hstop⟩

theorem serverItemExpire_sweep (hr : Recent m) (he : m.serverItemExpire rt s target = some m') :
    Sweep rt (some s) (consumedReached s (m.server s).consumed target) m m' := by
  unfold serverItemExpire at he
  obtain ⟨⟨k, m₁⟩, h₁, he⟩ := Option.bind_eq_some_iff.mp he
  cases he
  obtain ⟨kept, tail, hl, hw, hstop⟩ := expireItems_stopped .nil rfl h₁
  rw [List.reverse_reverse, List.append_nil] at hl
  have hn : tail.Nodup := (List.nodup_append.mp (hl ▸ hr.ranked.nodup (some s))).2.1
  have hp := hw.processed hr hn
  -- The pass-by items come afterwards.
  have hev : Evicted m₁ (m₁.expirePassbys s k (m₁.passbyLru s).reverse) := .expirePassbys
  obtain ⟨hsp, hlru, hcons, hhash⟩ := expirePassbys_frame s k (m₁.passbyLru s).reverse m₁
  refine ⟨kept, tail, m₁, hl, hw, ?_, hstop.imp id (Or.imp id fun hb => ?_)⟩
  · refine ⟨?_, ?_, fun a ha x hx id => ?_, ?_, ?_, fun b hb x id => ?_, ?_⟩
    · rw [hsp]
      exact hp.removed
    · rw [hsp]
      exact hp.marked
    · rw [hhash]
      rw [allServers, hev.servers, hev.deletedServers] at hx
      exact hp.unlinked a ha x hx id
    · rw [hsp]
      exact hp.items
    · rw [hsp]
      exact hp.item
    · rw [hhash]
      exact hp.hash b hb x id
    · rw [hlru]
      exact hp.lru
  · obtain ⟨b, hb, hre, hv⟩ := hb
    refine ⟨b, hb, ?_, (serverItemValid_evicted hev hsp).trans hv⟩
    unfold consumedReached
    rw [hcons]
    exact hre

end Loops

/-! ## The states in which the calls are made -/

/-- The states of the program, and the states within its steps in which room
is made. `x` is the item that a block is searched for, if one is. -/
inductive Within (rt : Runtime) : Option Nat → Master → Prop
  | reached {m : Master} : (masterSystem rt).Reachable m → Within rt none m
  /-- A store begins to search, after what it replaces is gone. -/
  | draft {m m₁ : Master} {s a length headersLen : Nat} {key : List UInt8} : (masterSystem rt).Reachable m →
      s ∈ m.allServers → Freed rt s (rt.md5 key) (m.lookup rt s key).1 (m.lookup rt s key).2 m₁ →
      rt.al.get m₁.calls m₁.space.items = some a → Within rt (some a) (m₁.draft a length headersLen)
  | itemDelete {x : Option Nat} {m m' : Master} {b : Nat} : Within rt x m → m.serverItemDelete rt b = some m' → Within rt x m'
  | passbys {x : Option Nat} {m : Master} {s count : Nat} {l : List Nat} : Within rt x m → Within rt x (m.expirePassbys s count l)
  | miss {a : Nat} {m : Master} {sp : Space} : Within rt (some a) m → m.space.deviceGetFreeBlock a = some (0, sp) →
      Within rt (some a) { m with space := sp }
  | extend {a target : Nat} {m m' : Master} {ok : Bool} : Within rt (some a) m →
      (host rt).deviceFreeBlockExtend target m = some (ok, m') → Within rt (some a) m'
  /-- A server is freed, in the last loop of `server_routine`. -/
  | destroyed {m : Master} {s : Nat} {t : IdxPointer} : Within rt none m → s ∈ m.deletedServers →
      m.serverIndexs.delete (m.server s).index = some t →
      Within rt none { m with deletedServers := m.deletedServers.erase s, serverIndexs := t }

theorem Within.recent {rt : Runtime} {x : Option Nat} {m : Master} (h : Within rt x m) :
    Recent m ∧ ∀ a, x = some a → Absent a m := by
  induction h with
  | reached h => exact ⟨recent_run h, nofun⟩
  | @draft m m₁ s a length headersLen key h hs hf ha =>
    have hr := recent_run h
    have htotal := Recent.freed_serverTotal hf
    obtain ⟨h₁, h₂, -⟩ := ((hr.lookup s key).freed hf).draft (htotal ▸ hr.table.total s hs) ha length headersLen
    exact ⟨h₁, fun b hb => Option.some.inj hb ▸ h₂⟩
  | itemDelete _ hd ih =>
    exact ⟨ih.1.serverItemDelete hd, fun a ha l hl => ih.2 a ha l (((Evicted.serverItemDelete hd).lru l).subset hl)⟩
  | passbys _ ih => exact ⟨ih.1.expirePassbys, fun a ha l hl => ih.2 a ha l ((Evicted.expirePassbys.lru l).subset hl)⟩
  | miss _ hg ih => exact ⟨ih.1.located (ih.2 _ rfl) (Space.getFreeBlock_located hg).1, ih.2⟩
  | @extend a target m m' ok _ he ih =>
    have hev := (Evicted.steps rt m).deviceFreeBlockExtend (.refl m) he
    exact ⟨(Recent.steps rt).deviceFreeBlockExtend ih.1 he, fun a ha l hl => ih.2 a ha l ((hev.lru l).subset hl)⟩
  | destroyed _ hs ht ih =>
    refine ⟨ih.1.server (ih.1.table.destroy hs ht) rfl (fun _ => rfl) (fun x hx => ?_) rfl rfl rfl rfl rfl, nofun⟩
    exact (List.Sublist.append_left List.erase_sublist _).subset hx

/-- **Eviction is least-recently-used.** In every state of the program, and
in every state in which room is made, the lists are ordered by the last
access; and a call that makes room processes the end of its list. -/
theorem eviction_least_recently_used {rt : Runtime} {x : Option Nat} {m : Master} (h : Within rt x m) :
    (∀ l, (m.lru l).Pairwise fun a b => lastAccess (m.number b) m.log < lastAccess (m.number a) m.log) ∧
      (∀ s target m', m.serverItemExpire rt s target = some m' →
        Sweep rt (some s) (consumedReached s (m.server s).consumed target) m m') ∧
      ∀ target m', m.serverSharedExpire rt target = some m' → Sweep rt none (lengthsReached m target) m m' := by
  have hr := h.recent.1
  exact ⟨hr.ranked.ordered, fun s target m' he => serverItemExpire_sweep hr he,
    fun target m' he => serverSharedExpire_sweep hr he⟩

/-- A store whose item is in the shared list. -/
def storing : List MasterEvent :=
  [.reload .plain .unlimited,
    .accept 0 7 .blank (List.replicate reqBufSize 0) (lit "PUT /a HTTP/1.1\r\nContent-Length:5\r\n\r\nhello"),
    .conn 7 (.recv ⟨0, 0, fun _ => -1⟩ 42), .handle 7 true true]

/-- The item is still written when its list is walked: it is marked. -/
theorem eviction_least_recently_used_storing : ∃ m m', (masterSystem .plain).Reachable m ∧ m.lru none = [1] ∧
    m.serverSharedExpire .plain 100 = some m' ∧ Sweep .plain none (lengthsReached m 100) m m' ∧
    (m'.space.item 1).deleted = true := by
  have hrun : (System.run (masterStep .plain) (Process.boot 0).master storing).bind (fun m =>
      (m.serverSharedExpire .plain 100).map fun m' => (m.lru none, (m'.space.item 1).deleted)) = some ([1], true) := by
    decide +kernel
  obtain ⟨m, hm, hrun⟩ := Option.bind_eq_some_iff.mp hrun
  obtain ⟨m', he, hview⟩ := Option.map_eq_some_iff.mp hrun
  simp only [Prod.mk.injEq] at hview
  have hr : (masterSystem .plain).Reachable m := masterSystem_run rfl (.init ⟨0, rfl⟩) hm
  exact ⟨m, m', hr, hview.1, he, (eviction_least_recently_used (.reached hr)).2.2 100 m' he, hview.2⟩

end Master

end OliveHc
