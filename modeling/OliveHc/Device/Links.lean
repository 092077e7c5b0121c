/-
What holds of the lists of `device.c` whatever was loaded.

A dump may hold any records, and reading it may fail in the middle. The
sizes and places of blocks are then anything, and the remaining space may
be in the queue of another size. What is left is that each node is linked
once, in the list of the device its index leads to.
-/
import OliveHc.Device.Lists

namespace OliveHc

/-- The order lists: each node in one of them, under the index of its device. -/
structure OrderLinks (s : Space) : Prop where
  owned : Owned s.order s.nodes
  unlisted : ∀ d, d ∉ s.allDevices → s.order d = []
  kicked : ∀ d ∈ s.allDevices, (s.device d).kicked = true → s.order d = []
  nodeIndex : ∀ d, ∀ n ∈ s.order d, s.nodeIndex n = (s.device d).index

/-- The links between the objects of `device.c`. -/
structure LinkInv (s : Space) : Prop where
  dev : DevInv s
  queue : Owned s.queue s.fblocks
  order : OrderLinks s

theorem SpaceInv.links {strict : Prop} {s : Space} (h : SpaceInv strict s) : LinkInv s :=
  ⟨h.dev, h.queue.owned, h.order.owned, h.order.unlisted, h.order.kicked, h.order.nodeIndex⟩

namespace OrderLinks

variable {s s' : Space} {d e f a : Nat} {n : Node}

theorem mem_allDevices (h : OrderLinks s) (hn : n ∈ s.order d) : d ∈ s.allDevices := by
  by_contra hd
  rw [h.unlisted d hd] at hn
  cases hn

theorem not_kicked (h : OrderLinks s) (hn : n ∈ s.order d) : (s.device d).kicked = false := by
  by_contra hk
  rw [h.kicked d (h.mem_allDevices hn) (by simpa using hk)] at hn
  cases hn

theorem mem_nodes (h : OrderLinks s) (hn : n ∈ s.order d) : n ∈ s.nodes := (h.owned.covers n).mpr ⟨d, hn⟩

/-- The index of a node leads to the device that has it. -/
theorem device_eq (h : OrderLinks s) (hd : DevInv s) (hn : n ∈ s.order d)
    (he : s.deviceIndexs.get (s.nodeIndex n) = some e) : e = d := by
  rw [h.nodeIndex d n hn] at he
  rcases hd.index d (h.mem_allDevices hn) (h.not_kicked hn) with hi | hi
  · rw [hi, IdxPointer.get_neg_one] at he
    cases he
  · exact Option.some.inj (he.symm.trans hi)

theorem fblock_mem (h : OrderLinks s) (hd : DevInv s) (hf : f ∈ s.fblocks) (he : s.deviceOfFblock f = some d) :
    .fblock f ∈ s.order d := by
  obtain ⟨e, hn⟩ := (h.owned.covers (.fblock f)).mp (Space.mem_nodes_fblock.mpr hf)
  rw [h.device_eq hd hn he]
  exact hn

theorem item_mem (h : OrderLinks s) (hd : DevInv s) (ha : a ∈ s.items) (he : s.deviceOfItem a = some d) :
    .item a ∈ s.order d := by
  obtain ⟨e, hn⟩ := (h.owned.covers (.item a)).mp (Space.mem_nodes_item.mpr ha)
  rw [h.device_eq hd hn he]
  exact hn

/-- A node and what is on both sides of it. -/
theorem split (h : OrderLinks s) (hn : n ∈ s.order d) : ∃ A B, s.order d = A ++ n :: B ∧ n ∉ A ∧ n ∉ B := by
  obtain ⟨A, B, hAB, hA⟩ := List.eq_append_cons_of_mem hn
  have hnd := h.owned.nodup d
  rw [hAB] at hnd
  exact ⟨A, B, hAB, hA, (List.nodup_cons.mp (List.nodup_append.mp hnd).2.1).1⟩

/-- In the list of one device the nodes `M` are replaced by `N`. -/
theorem splice {A M N B : List Node} (h : OrderLinks s) (hd : d ∈ s.allDevices) (hkick : (s.device d).kicked = false)
    (horder : s.order d = A ++ M ++ B) (hsame : SameDevices s s') (hord : s'.order = Function.update s.order d (A ++ N ++ B))
    (hnew : ∀ n ∈ N, n ∈ M ∨ n ∉ s.nodes) (hnd : N.Nodup)
    (hnodes : ∀ n, n ∈ s'.nodes ↔ n ∈ N ∨ (n ∈ s.nodes ∧ n ∉ M))
    (hidx : ∀ n ∈ N, s'.nodeIndex n = (s.device d).index)
    (hkeep : ∀ n ∈ s.nodes, n ∉ M → s'.nodeIndex n = s.nodeIndex n) : OrderLinks s' := by
  have hdev : ∀ x, (s'.device x).index = (s.device x).index ∧ (s'.device x).kicked = (s.device x).kicked := by
    intro x
    obtain ⟨c, b, hx⟩ := hsame.device x
    rw [hx]
    exact ⟨rfl, rfl⟩
  refine ⟨?_, fun x hx => ?_, fun x hx hk => ?_, fun x n hn => ?_⟩
  · rw [hord]
    exact h.owned.splice horder hnd hnew hnodes
  · rw [hsame.allDevices] at hx
    have hxd : x ≠ d := fun he => hx (he ▸ hd)
    rw [hord, Function.update_of_ne hxd]
    exact h.unlisted x hx
  · rw [(hdev x).2] at hk
    have hxd : x ≠ d := fun he => by
      rw [he, hkick] at hk
      cases hk
    rw [hord, Function.update_of_ne hxd]
    exact h.kicked x (hsame.allDevices ▸ hx) hk
  · rw [(hdev x).1]
    rw [hord] at hn
    rcases mem_update.mp hn with ⟨rfl, hnew⟩ | ⟨hxd, hn⟩
    · -- A node that stays is not among those that are replaced.
      have hall := h.owned.nodup x
      rw [horder] at hall
      obtain ⟨hAM, -, hMB⟩ := List.nodup_append.mp hall
      obtain ⟨-, -, hAM⟩ := List.nodup_append.mp hAM
      rw [List.mem_append, List.mem_append] at hnew
      rcases hnew with (hn | hn) | hn
      · have hx : n ∈ s.order x := by simp [horder, hn]
        rw [hkeep n (h.mem_nodes hx) fun hM => hAM n hn n hM rfl]
        exact h.nodeIndex x n hx
      · exact hidx n hn
      · have hx : n ∈ s.order x := by simp [horder, hn]
        rw [hkeep n (h.mem_nodes hx) fun hM => hMB n (by simp [hM]) n hn rfl]
        exact h.nodeIndex x n hx
    · rw [hkeep n (h.mem_nodes hn) fun hM => hxd (h.owned.unique hn (by simp [horder, hM]))]
      exact h.nodeIndex x n hn

/-- Devices without a list go, and what no list sees changes. -/
theorem relist (h : OrderLinks s) (horder : s'.order = s.order) (hnodes : ∀ n, n ∈ s'.nodes ↔ n ∈ s.nodes)
    (hsub : ∀ x ∈ s'.allDevices, x ∈ s.allDevices) (hgone : ∀ x ∈ s.allDevices, x ∉ s'.allDevices → s.order x = [])
    (hdev : ∀ x ∈ s.allDevices, (s'.device x).index = (s.device x).index ∧ (s'.device x).kicked = (s.device x).kicked)
    (hidx : ∀ n ∈ s.nodes, s'.nodeIndex n = s.nodeIndex n) : OrderLinks s' := by
  refine ⟨horder ▸ h.owned.congr hnodes, fun x hx => ?_, fun x hx hk => ?_, fun x n hn => ?_⟩
  · rw [horder]
    by_cases hxs : x ∈ s.allDevices
    · exact hgone x hxs hx
    · exact h.unlisted x hxs
  · have hxs := hsub x hx
    rw [(hdev x hxs).2] at hk
    rw [horder]
    exact h.kicked x hxs hk
  · rw [horder] at hn
    rw [hidx n (h.mem_nodes hn), (hdev x (h.mem_allDevices hn)).1]
    exact h.nodeIndex x n hn

theorem same (h : OrderLinks s) (hall : s'.allDevices = s.allDevices) (horder : s'.order = s.order)
    (hnodes : ∀ n, n ∈ s'.nodes ↔ n ∈ s.nodes)
    (hdev : ∀ x ∈ s.allDevices, (s'.device x).index = (s.device x).index ∧ (s'.device x).kicked = (s.device x).kicked)
    (hidx : ∀ n ∈ s.nodes, s'.nodeIndex n = s.nodeIndex n) : OrderLinks s' :=
  h.relist horder hnodes (fun _ hx => hall ▸ hx) (fun _ hx hn => absurd (hall ▸ hx) hn) hdev hidx

/-- A new device object, with a list of new nodes. -/
theorem register {c : Nat} (h : OrderLinks s) (hc : c ∉ s.allDevices) (hmem : ∀ x, x ∈ s'.allDevices ↔ x = c ∨ x ∈ s.allDevices)
    (hold : ∀ x, x ≠ c → s'.device x = s.device x ∧ s'.order x = s.order x)
    (hnode : ∀ n ∈ s.nodes, s'.nodeIndex n = s.nodeIndex n) (howned : Owned s'.order s'.nodes)
    (hkick : (s'.device c).kicked = true → s'.order c = [])
    (hindex : ∀ n ∈ s'.order c, s'.nodeIndex n = (s'.device c).index) : OrderLinks s' := by
  refine ⟨howned, fun x hx => ?_, fun x hx hk => ?_, fun x n hn => ?_⟩
  · rw [hmem, not_or] at hx
    rw [(hold x hx.1).2]
    exact h.unlisted x hx.2
  · by_cases hxc : x = c
    · subst hxc
      exact hkick hk
    · rw [(hold x hxc).1] at hk
      rw [(hold x hxc).2]
      exact h.kicked x (((hmem x).mp hx).resolve_left hxc) hk
  · by_cases hxc : x = c
    · subst hxc
      exact hindex n hn
    · rw [(hold x hxc).2] at hn
      rw [hnode n (h.mem_nodes hn), (hold x hxc).1]
      exact h.nodeIndex x n hn

end OrderLinks

variable {strict : Prop} {al : Allocator} {s s' : Space} {a d f k : Nat}

/-! ## Single steps -/

theorem nodeIndex_setFblock {b : FreeBlock} (hb : b.deviceIndex = (s.fblock f).deviceIndex) (n : Node) :
    (s.setFblock f b).nodeIndex n = s.nodeIndex n := by
  cases n with
  | item a => rfl
  | fblock g =>
    by_cases hg : g = f
    · subst hg
      simp [Space.nodeIndex, Space.setFblock, hb]
    · simp [Space.nodeIndex, Space.setFblock, hg]

/-- A free block takes another place on its device, and goes to a queue. -/
theorem LinkInv.resize (h : LinkInv s) {b : FreeBlock} (hf : f ∈ s.fblocks) (hb : b.deviceIndex = (s.fblock f).deviceIndex) :
    LinkInv ((s.setFblock f b).ipbucketUpdate f) := by
  have hsame : SameDevices s ((s.setFblock f b).ipbucketUpdate f) :=
    (setFblock_same f b s).trans ((ipbucketDel_same f _).trans (ipbucketAdd_same f _))
  refine ⟨hsame.dev h.dev, ?_, h.order.same rfl rfl (fun _ => Iff.rfl) (fun _ _ => ⟨rfl, rfl⟩) fun n _ =>
    nodeIndex_setFblock hb n⟩
  obtain ⟨l, hperm, hq⟩ := ipbucketAdd_queue ((s.setFblock f b).ipbucketDel f) f
  have hdel : Owned ((s.setFblock f b).ipbucketDel f).queue (s.fblocks.filter (· ≠ f)) := h.queue.erase f
  rw [Space.ipbucketUpdate, hq]
  refine (hdel.gain (by simp) hperm).congr fun r => ?_
  show r ∈ s.fblocks ↔ _
  by_cases hr : r = f
  · simp [hr, hf]
  · simp [hr]

/-- A new free block is linked. -/
theorem LinkInv.linkFblock (h : LinkInv s) {A B : List Node} (b : FreeBlock) (ticks : Nat) (hfresh : f ∉ s.fblocks)
    (hd : d ∈ s.allDevices) (hk : (s.device d).kicked = false) (hAB : s.order d = A ++ B)
    (hb : b.deviceIndex = (s.device d).index) :
    LinkInv (Space.ipbucketAdd f { s with
      fblock := Function.update s.fblock f b
      order := Function.update s.order d (A ++ .fblock f :: B)
      fblocks := f :: s.fblocks
      ticks }) := by
  have hnf : Node.fblock f ∉ s.nodes := fun hn => hfresh (Space.mem_nodes_fblock.mp hn)
  have hsame : SameDevices s (Space.ipbucketAdd f { s with
      fblock := Function.update s.fblock f b
      order := Function.update s.order d (A ++ .fblock f :: B)
      fblocks := f :: s.fblocks
      ticks }) := ⟨rfl, rfl, rfl, rfl, fun _ => ⟨_, _, rfl⟩⟩
  refine ⟨hsame.dev h.dev, ?_, ?_⟩
  · obtain ⟨l, hperm, hq⟩ := ipbucketAdd_queue { s with
      fblock := Function.update s.fblock f b
      order := Function.update s.order d (A ++ .fblock f :: B)
      fblocks := f :: s.fblocks
      ticks } f
    rw [hq]
    exact h.queue.gain hfresh hperm
  · refine h.order.splice (A := A) (M := []) (N := [.fblock f]) (B := B) hd hk (by simp [hAB]) hsame ?_ (by simp [hnf])
      (by simp) (fun n => ?_) (fun n hn => ?_) fun n hn _ => ?_
    · simp [Space.ipbucketAdd]
    · cases n with
      | item a => simp [Space.mem_nodes_item, Space.ipbucketAdd]
      | fblock g => simp [Space.mem_nodes_fblock, Space.ipbucketAdd]
    · obtain rfl := List.mem_singleton.mp hn
      simpa [Space.nodeIndex, Space.ipbucketAdd] using hb
    · cases n with
      | item a => rfl
      | fblock g =>
        have hg : g ≠ f := fun he => hfresh (he ▸ Space.mem_nodes_fblock.mp hn)
        simp [Space.nodeIndex, Space.ipbucketAdd, hg]

/-- `device_fblock_insert`, before a node of the list or at its end. -/
theorem LinkInv.insert (h : LinkInv s) (al : Allocator) (base : Option Node) (offset size : Nat) (hd : d ∈ s.allDevices)
    (hk : (s.device d).kicked = false) (hbase : ∀ n, base = some n → n ∈ s.order d) :
    LinkInv (s.deviceFblockInsert al d base offset size).2 := by
  unfold Space.deviceFblockInsert
  cases hf : al.get s.ticks s.fblocks with
  | none => exact ⟨⟨h.dev.nodup, h.dev.active, h.dev.gone, h.dev.index, h.dev.capacity⟩, h.queue,
      ⟨h.order.owned, h.order.unlisted, h.order.kicked, h.order.nodeIndex⟩⟩
  | some f =>
    have hfresh : f ∉ s.fblocks := al.fresh hf
    cases hb : base with
    | none => exact h.linkFblock ⟨(s.device d).index, offset % 2 ^ 40, size⟩ _ hfresh hd hk (List.append_nil _).symm rfl
    | some n =>
      obtain ⟨A, B, hAB, hA, -⟩ := h.order.split (hbase n hb)
      have hlink := h.linkFblock ⟨(s.device d).index, offset % 2 ^ 40, size⟩ (s.ticks + 1) hfresh hd hk hAB rfl
      simp only [hAB, listAddTail_append hA]
      exact hlink

/-- A free block goes; it may have left its queue before. -/
theorem OrderLinks.fblockDelete {live : List Nat} (h : OrderLinks s) (hdev : DevInv s) (hq : Owned s.queue live)
    (hl : ∀ r, r ≠ f → (r ∈ live ↔ r ∈ s.fblocks)) (hf : f ∈ s.fblocks)
    (hd : s.deviceFblockDelete f = some s') : LinkInv s' := by
  have hsame := deviceFblockDelete_same hd
  obtain ⟨e, he, rfl⟩ := Option.map_eq_some_iff.mp hd
  have hmem := h.fblock_mem hdev hf he
  obtain ⟨A, B, hAB, hA, -⟩ := h.split hmem
  refine ⟨hsame.dev hdev, ?_, ?_⟩
  · refine (hq.erase f).congr fun r => ?_
    by_cases hr : r = f
    · simp [hr]
    · simp [hr, hl r hr]
  · refine h.splice (M := [.fblock f]) (N := []) (h.mem_allDevices hmem) (h.not_kicked hmem) (by simpa using hAB) hsame ?_
      (by simp) (by simp) (fun n => ?_) (by simp) fun n _ _ => ?_
    · simp [Space.setOrder, Space.ipbucketDel, hAB, erase_append hA]
    · cases n <;> simp [Space.nodes, Space.setOrder, Space.ipbucketDel]
    · cases n <;> rfl

theorem LinkInv.fblockDelete (h : LinkInv s) (hf : f ∈ s.fblocks) (hd : s.deviceFblockDelete f = some s') : LinkInv s' :=
  h.order.fblockDelete h.dev h.queue (fun _ _ => Iff.rfl) hf hd

/-- What differs is none of the lists' business. -/
theorem LinkInv.same (h : LinkInv s) (hs : SameBlocks s s') : LinkInv s' := by
  have hall := hs.allDevices
  have hdev : ∀ x, (s'.device x).index = (s.device x).index ∧ (s'.device x).kicked = (s.device x).kicked ∧
      (s'.device x).deleted = (s.device x).deleted ∧ (s'.device x).capacity = (s.device x).capacity := by
    intro x
    obtain ⟨u, o, hx⟩ := hs.device x
    rw [hx]
    exact ⟨rfl, rfl, rfl, rfl⟩
  refine ⟨⟨hall ▸ h.dev.nodup, fun x hx => ?_, fun x hx => ?_, fun x hx hk => ?_, fun x hx => ?_⟩, ?_, ?_⟩
  · rw [(hdev x).2.2.1]
    exact h.dev.active x (hs.devices ▸ hx)
  · rw [(hdev x).2.2.1, (hdev x).2.1]
    exact h.dev.gone x (hs.deletedDevices ▸ hx)
  · rw [(hdev x).2.1] at hk
    rw [(hdev x).1, hs.deviceIndexs]
    exact h.dev.index x (hall ▸ hx) hk
  · rw [(hdev x).2.2.2]
    exact h.dev.capacity x (hall ▸ hx)
  · rw [hs.queue, hs.fblocks]
    exact h.queue
  · exact h.order.same hall hs.order (fun n => by rw [hs.nodes]) (fun x _ => ⟨(hdev x).1, (hdev x).2.1⟩)
      fun n hn => (hs.extent hn).2

/-! ## Blocks of items -/

/-- Item `a` has got a block of `k` bytes on device `d`. -/
structure BlockTaken (a d k : Nat) (s s' : Space) : Prop where
  fresh : a ∉ s.items
  items : s'.items = a :: s.items
  size : k = ipbucketBlockSize (s.item a).length
  linked : .item a ∈ s'.order d
  item : ∃ o, s'.item = Function.update s.item a { s.item a with offset := o, deviceIndex := (s.device d).index }

/-- Item `a` is linked behind the free block `f`, which is in no queue. -/
theorem takeBlock_links (hdev : DevInv s) (hord : OrderLinks s) (hq : Owned s.queue (s.fblocks.filter (· ≠ f)))
    (hf : .fblock f ∈ s.order d) (ht : s.takeBlock a f d = some (k, s')) :
    LinkInv s' ∧ SameDevices s s' ∧ BlockTaken a d k s s' := by
  unfold Space.takeBlock at ht
  simp only at ht
  split at ht
  · cases ht
  next ha =>
  obtain ⟨A, B, hAB, hA, -⟩ := hord.split hf
  have hfn : .fblock f ∈ s.nodes := hord.mem_nodes hf
  have hff := Space.mem_nodes_fblock.mp hfn
  have han : .item a ∉ s.nodes := fun hn => ha (Space.mem_nodes_item.mp hn)
  -- The list after the item is linked.
  have hlink : ∀ offset, OrderLinks (s.linkItem a f d offset) := by
    intro offset
    refine hord.splice (A := A ++ [.fblock f]) (M := []) (N := [.item a]) (B := B) (hord.mem_allDevices hf)
      (hord.not_kicked hf) (by simp [hAB]) (linkItem_same a f d offset s) ?_ (by simp [han]) (by simp) (fun n => ?_)
      (fun n hn => ?_) fun n hn _ => ?_
    · simp [Space.linkItem, hAB, listAdd_append hA]
    · cases n with
      | item x => simp [Space.mem_nodes_item, Space.linkItem]
      | fblock x => simp [Space.mem_nodes_fblock, Space.linkItem]
    · obtain rfl := List.mem_singleton.mp hn
      simp [Space.nodeIndex, Space.linkItem]
    · exact (linkItem_extent fun he => han (he ▸ hn)).2
  split at ht
  · cases ht
    generalize (s.fblock f).offset + (s.fblock f).blockSize - ipbucketBlockSize (s.item a).length = offset
    generalize (s.fblock f).blockSize - ipbucketBlockSize (s.item a).length = size
    have hsame : SameDevices s (((s.linkItem a f d offset).setFblock f { s.fblock f with blockSize := size }).ipbucketAdd f) :=
      ((linkItem_same a f d offset s).trans (setFblock_same f _ _)).trans (ipbucketAdd_same f _)
    refine ⟨⟨hsame.dev hdev, ?_, (hlink offset).same rfl rfl (fun _ => Iff.rfl) (fun _ _ => ⟨rfl, rfl⟩) fun n _ =>
      nodeIndex_setFblock (s := s.linkItem a f d offset) (f := f) (b := { s.fblock f with blockSize := size }) rfl n⟩,
      hsame, ha, rfl, rfl, ?_, _, rfl⟩
    · obtain ⟨l, hperm, hqueue⟩ :=
        ipbucketAdd_queue ((s.linkItem a f d offset).setFblock f { s.fblock f with blockSize := size }) f
      rw [hqueue]
      refine (hq.gain (by simp) hperm).congr fun r => ?_
      show r ∈ s.fblocks ↔ _
      by_cases hr : r = f
      · simp [hr, hff]
      · simp [hr]
    · simp [Space.ipbucketAdd, Space.setFblock, Space.linkItem, hAB, listAdd_append hA]
  split at ht
  · obtain ⟨x, hx, he⟩ := Option.map_eq_some_iff.mp ht
    cases he
    have hdel := (hlink (s.fblock f).offset).fblockDelete ((linkItem_same a f d _ s).dev hdev) hq
      (fun r hr => by simp [hr, Space.linkItem]) hff hx
    have hsame := (linkItem_same a f d _ s).trans (deviceFblockDelete_same hx)
    obtain ⟨e, he, rfl⟩ := Option.map_eq_some_iff.mp hx
    obtain rfl : e = d := hord.device_eq hdev hf he
    refine ⟨hdel, hsame, ha, rfl, rfl, ?_, _, rfl⟩
    simp [Space.ipbucketDel, Space.setOrder, Space.linkItem, hAB, listAdd_append hA, erase_append hA]
  · cases ht

/-- What a search for a block does: it finds none, and only free blocks of
deleted devices have gone, or item `a` gets one. -/
theorem getFreeBlock_links {n : Nat} (h : LinkInv s) (hg : s.getFreeBlock a n = some (k, s')) :
    LinkInv s' ∧ SameDevices s s' ∧ (k = 0 ∧ s'.items = s.items ∧ s'.item = s.item ∨
      ∃ d ∈ s.devices, BlockTaken a d k s s') := by
  induction n generalizing s with
  | zero | succ n ih =>
    unfold Space.getFreeBlock at hg
    split at hg
    · cases hg
      exact ⟨h, .refl _, .inl ⟨rfl, rfl, rfl⟩⟩
    next f s₁ hget =>
    obtain ⟨i, hfi, -, rfl⟩ := ipbucketGet_queue hget
    have hf : f ∈ s.fblocks := (h.queue.covers f).mpr ⟨i, hfi⟩
    obtain ⟨d, hd, hg⟩ := Option.bind_eq_some_iff.mp hg
    have hfd := h.order.fblock_mem h.dev hf hd
    have hdev := (ipbucketDel_same f s).dev h.dev
    have hord : OrderLinks (s.ipbucketDel f) := ⟨h.order.owned, h.order.unlisted, h.order.kicked, h.order.nodeIndex⟩
    have hq : Owned (s.ipbucketDel f).queue (s.fblocks.filter (· ≠ f)) := h.queue.erase f
    split at hg
    · obtain ⟨s₂, hs₂, hg⟩ := Option.bind_eq_some_iff.mp hg
      have hdrop := hord.fblockDelete hdev hq (fun r hr => by simp [hr, Space.ipbucketDel]) hf hs₂
      have hsame := (ipbucketDel_same f s).trans (deviceFblockDelete_same hs₂)
      have hframe : s₂.item = s.item ∧ s₂.items = s.items := by
        obtain ⟨e, -, rfl⟩ := Option.map_eq_some_iff.mp hs₂
        exact ⟨rfl, rfl⟩
      first
      | cases hg
        exact ⟨hdrop, hsame, .inl ⟨rfl, hframe.2, hframe.1⟩⟩
      | obtain ⟨hinv, hrest, hout⟩ := ih hdrop hg
        refine ⟨hinv, hsame.trans hrest, hout.imp (fun ho => ?_) fun ho => ?_⟩
        · exact ⟨ho.1, ho.2.1.trans hframe.2, ho.2.2.trans hframe.1⟩
        · obtain ⟨e, he, ht⟩ := ho
          obtain ⟨c, b, hx⟩ := hsame.device e
          obtain ⟨o, hitem⟩ := ht.item
          rw [hframe.1, hx] at hitem
          exact ⟨e, hsame.devices ▸ he, hframe.2 ▸ ht.fresh, by rw [ht.items, hframe.2], by rw [ht.size, hframe.1],
            ht.linked, o, hitem⟩
    · next hdel =>
      obtain ⟨hinv, hsame, ht⟩ := takeBlock_links hdev hord hq hfd hg
      refine ⟨hinv, (ipbucketDel_same f s).trans hsame, .inr ⟨d, ?_, ht.fresh, ht.items, ht.size, ht.linked, ht.item⟩⟩
      rcases List.mem_append.mp (h.order.mem_allDevices hfd) with hm | hm
      · exact hm
      · exact absurd (h.dev.gone d hm).1 hdel

/-- The neighbours that a block is merged with are free blocks of the list. -/
theorem fblockAt_mem {p : FreeBlock → Prop} [DecidablePred p] {n : Option Node} {L : List Node}
    (hn : ∀ m, n = some m → m ∈ L) (hf : s.fblockAt n p = some f) : .fblock f ∈ L := by
  unfold Space.fblockAt at hf
  split at hf
  · split at hf
    · cases hf
      exact hn _ rfl
    · cases hf
  · cases hf

theorem LinkInv.neighbours (h : LinkInv s) {n : Node} (hn : n ∈ s.order d) :
    (∀ m, listPrev n (s.order d) = some m → m ∈ s.order d ∧ m ≠ n) ∧
      ∀ m, listNext n (s.order d) = some m → m ∈ s.order d ∧ m ≠ n ∧ listPrev n (s.order d) ≠ some m := by
  obtain ⟨A, B, hAB, hA, hB⟩ := h.order.split hn
  have hnd := h.order.owned.nodup d
  rw [hAB] at hnd ⊢
  rw [listPrev_append hA, listNext_append hA]
  refine ⟨fun m hm => ?_, fun m hm => ?_⟩
  · have hmA := List.mem_of_getLast? hm
    exact ⟨by simp [hmA], fun he => hA (he ▸ hmA)⟩
  · have hmB := List.mem_of_mem_head? (Option.mem_def.mpr hm)
    refine ⟨by simp [hmB], fun he => hB (he ▸ hmB), fun hprev => ?_⟩
    exact (List.nodup_append.mp hnd).2.2 m (List.mem_of_getLast? hprev) m (by simp [hmB]) rfl

/-- The merge of a block stays on its device. -/
structure Recycled (d : Nat) (s s' : Space) : Prop where
  same : SameDevices s s'
  device : s'.device = s.device
  item : s'.item = s.item
  items : s'.items = s.items
  order : ∀ x, x ≠ d → s'.order x = s.order x

/-- A node that is still linked is still in its list. -/
theorem Recycled.stays (hr : Recycled d s s') (h : LinkInv s) (h' : LinkInv s') {n : Node} (hn : n ∈ s.order d)
    (hn' : n ∈ s'.nodes) : n ∈ s'.order d := by
  obtain ⟨e, he⟩ := (h'.order.owned.covers n).mp hn'
  by_cases hed : e = d
  · exact hed ▸ he
  · rw [hr.order e hed] at he
    exact absurd (h.order.owned.unique he hn) hed

theorem deviceFblockInsert_recycled (al : Allocator) (d : Nat) (base : Option Node) (offset size : Nat) (s : Space) :
    Recycled d s (s.deviceFblockInsert al d base offset size).2 := by
  unfold Space.deviceFblockInsert
  split
  · exact ⟨⟨rfl, rfl, rfl, rfl, fun _ => ⟨_, _, rfl⟩⟩, rfl, rfl, rfl, fun _ _ => rfl⟩
  · exact ⟨⟨rfl, rfl, rfl, rfl, fun _ => ⟨_, _, rfl⟩⟩, rfl, rfl, rfl, fun x hx => Function.update_of_ne hx ..⟩

theorem recycle_links (h : LinkInv s) (ha : .item a ∈ s.order d) (hr : s.recycle al a d = some s') :
    LinkInv s' ∧ Recycled d s s' := by
  obtain ⟨hprev, hnext⟩ := h.neighbours ha
  have hfb : ∀ f, .fblock f ∈ s.order d → f ∈ s.fblocks := fun f hf => Space.mem_nodes_fblock.mp (h.order.mem_nodes hf)
  have hres : ∀ f b, Recycled d s ((s.setFblock f b).ipbucketUpdate f) := fun _ _ =>
    ⟨⟨rfl, rfl, rfl, rfl, fun _ => ⟨_, _, rfl⟩⟩, rfl, rfl, rfl, fun _ _ => rfl⟩
  unfold Space.recycle at hr
  simp only at hr
  split at hr
  · next p n hp hn =>
    have hpd := fblockAt_mem (fun m hm => (hprev m hm).1) hp
    have hnd := fblockAt_mem (fun m hm => (hnext m hm).1) hn
    have hinv := h.resize (b := { s.fblock p with
      blockSize := (s.fblock p).blockSize + (ipbucketBlockSize (s.item a).length + (s.fblock n).blockSize) }) (hfb p hpd) rfl
    refine ⟨hinv.fblockDelete (hfb n hnd) hr, ?_⟩
    obtain ⟨e, he, rfl⟩ := Option.map_eq_some_iff.mp hr
    obtain rfl : e = d := hinv.order.device_eq hinv.dev hnd he
    exact ⟨⟨rfl, rfl, rfl, rfl, fun _ => ⟨_, _, rfl⟩⟩, rfl, rfl, rfl, fun x hx => Function.update_of_ne hx ..⟩
  · next p hp hn =>
    cases hr
    exact ⟨h.resize (hfb p (fblockAt_mem (fun m hm => (hprev m hm).1) hp)) rfl, hres ..⟩
  · next n hp hn =>
    cases hr
    exact ⟨h.resize (hfb n (fblockAt_mem (fun m hm => (hnext m hm).1) hn)) rfl, hres ..⟩
  · cases hr
    refine ⟨h.insert _ _ _ _ (h.order.mem_allDevices ha) (h.order.not_kicked ha) fun n hn => ?_, deviceFblockInsert_recycled ..⟩
    cases hn
    exact ha

/-- An item leaves its list, and its counters may change. -/
theorem LinkInv.unlinkItem (h : LinkInv s) {x : Device} {R : List (Nat × Nat)} (ha : .item a ∈ s.order d)
    (hx : ∃ c b, x = { s.device d with consumed := c, badblock := b }) :
    LinkInv (({ s.setDevice d x with retired := Function.update s.retired d R }.setOrder d
      ((s.order d).erase (.item a))).itemFree a) := by
  have hsame : SameDevices s (({ s.setDevice d x with retired := Function.update s.retired d R }.setOrder d
      ((s.order d).erase (.item a))).itemFree a) := by
    refine ⟨rfl, rfl, rfl, rfl, fun y => ?_⟩
    obtain ⟨c, b, rfl⟩ := hx
    by_cases hy : y = d
    · subst hy
      exact ⟨_, _, Function.update_self ..⟩
    · exact ⟨_, _, Function.update_of_ne hy ..⟩
  obtain ⟨A, B, hAB, hA, -⟩ := h.order.split ha
  refine ⟨hsame.dev h.dev, h.queue, ?_⟩
  refine h.order.splice (A := A) (M := [.item a]) (N := []) (B := B) (h.order.mem_allDevices ha) (h.order.not_kicked ha)
    (by simpa using hAB) hsame ?_ (by simp) (by simp) (fun n => ?_) (by simp) fun n _ _ => ?_
  · simp [Space.itemFree, Space.setOrder, Space.setDevice, hAB, erase_append hA]
  · cases n <;> simp [Space.nodes, Space.setOrder, Space.setDevice, Space.itemFree]
  · cases n <;> rfl

/-! ## The lists of devices -/

/-- A device leaves `devices`: a kicked one for good, another to be deleted. -/
theorem deviceDelete_links (h : LinkInv s) (hd : d ∈ s.devices) : LinkInv (s.deviceDelete d) := by
  unfold Space.deviceDelete
  simp only
  split
  · next hk =>
    have hmem := mem_allDevices_leave h.dev hd
    refine ⟨h.dev.leave hd, h.queue, h.order.relist rfl (fun _ => Iff.rfl) (fun x hx => ((hmem x).mp hx).1) (fun x hx hn => ?_)
      (fun _ _ => ⟨rfl, rfl⟩) fun n _ => by cases n <;> rfl⟩
    by_cases hxd : x = d
    · subst hxd
      exact h.order.kicked x hx hk
    · exact absurd ((hmem x).mpr ⟨hx, hxd⟩) hn
  · next hk =>
    have hperm : s.allDevices.Perm (s.devices.erase d ++ d :: s.deletedDevices) :=
      ((List.perm_cons_erase hd).append_right _).trans List.perm_middle.symm
    refine ⟨h.dev.delete hd (by simpa using hk), h.queue, h.order.relist rfl (fun _ => Iff.rfl)
      (fun x hx => hperm.mem_iff.mpr hx) (fun x hx hn => absurd (hperm.mem_iff.mp hx) hn) (fun x _ => ?_)
      fun n _ => by cases n <;> rfl⟩
    simp only [Space.setDevice, setDeleted_device]
    exact ⟨trivial, trivial⟩

/-- A deleted device without a list is freed. -/
theorem destroyed_links {t : IdxPointer} (h : LinkInv s) (hd : d ∈ s.deletedDevices) (ho : s.order d = [])
    (ht : s.deviceIndexs.delete (s.device d).index = some t) :
    LinkInv { s with deletedDevices := s.deletedDevices.erase d, deviceIndexs := t } := by
  have hmem := mem_allDevices_destroy h.dev.nodup hd t
  refine ⟨h.dev.destroy hd ht, h.queue, h.order.relist rfl (fun _ => Iff.rfl) (fun x hx => ((hmem x).mp hx).1)
    (fun x hx hn => ?_) (fun _ _ => ⟨rfl, rfl⟩) fun n _ => by cases n <;> rfl⟩
  by_cases hxd : x = d
  · subst hxd
    exact ho
  · exact absurd ((hmem x).mpr ⟨hx, hxd⟩) hn

/-- The copy that a kick leaves behind has no list. -/
theorem deviceKick_links (h : LinkInv s) (hd : d ∈ s.devices) : LinkInv (s.deviceKick al d) := by
  unfold Space.deviceKick
  split
  · exact h.same ⟨rfl, rfl, rfl, rfl, rfl, rfl, rfl, rfl, rfl, fun _ => ⟨_, _, rfl⟩, fun _ _ => ⟨rfl, rfl, rfl⟩⟩
  next c hc =>
  have hfresh : c ∉ s.allDevices := al.fresh hc
  have hperm := listAdd_perm (n := c) hd
  refine deviceDelete_links ⟨?_, h.queue, ?_⟩ (hperm.mem_iff.mpr (List.mem_cons_of_mem _ hd))
  · refine h.dev.register hfresh hperm rfl (fun x hx => Function.update_of_ne hx ..) (fun _ _ hi => hi) ?_ ?_
    · simp only [Function.update_self]
      exact ⟨h.dev.active d hd, h.dev.capacity d (List.mem_append_left _ hd)⟩
    · simp
  · have horder : Function.update s.order c [] = s.order := by
      rw [← h.order.unlisted c hfresh, Function.update_eq_self]
    refine h.order.register hfresh (fun x => ?_) (fun x hx => ⟨Function.update_of_ne hx .., Function.update_of_ne hx ..⟩)
      (fun n _ => by cases n <;> rfl) ?_ (by simp) (by simp)
    · simp only [Space.allDevices, List.mem_append, hperm.mem_iff, List.mem_cons, or_assoc]
    · simp only [horder]
      exact h.order.owned

/-- A new device is one free block. -/
theorem deviceAdd_links {file capacity : Nat} (h : LinkInv s) (hd : d ∉ s.allDevices) (hcap : capacity ≤ capacityLimit)
    (hadd : s.deviceAdd al d file capacity = some s') : LinkInv s' := by
  unfold Space.deviceAdd at hadd
  obtain ⟨⟨i, t⟩, ht, hadd⟩ := Option.bind_eq_some_iff.mp hadd
  have hindex : i = -1 ∨ t.get i = some d := by
    rcases IdxPointer.add_cases ht with ⟨hi, -⟩ | ⟨-, -, -, hi, -⟩
    · exact .inl hi
    · exact .inr hi
  have hempty : Function.update s.order d [] = s.order := by
    rw [← h.order.unlisted d hd, Function.update_eq_self]
  -- The device without a free block.
  have hreg : ∀ k n, LinkInv { s with
      devices := s.devices ++ [d]
      deviceIndexs := t
      device := Function.update s.device d ⟨false, k, true, i, 0, file, capacity, 0, 0⟩
      order := Function.update s.order d []
      retired := Function.update s.retired d []
      ticks := n } := by
    intro k n
    refine ⟨h.dev.register hd (List.perm_append_singleton d _) rfl (fun x hx => Function.update_of_ne hx ..)
      (IdxPointer.add_extends ht) (by simp [hcap]) (fun _ => by simpa using hindex), h.queue,
      h.order.register hd (fun x => ?_) (fun x hx => ⟨Function.update_of_ne hx .., Function.update_of_ne hx ..⟩)
      (fun n _ => by cases n <;> rfl) ?_ (by simp) (by simp)⟩
    · simp only [Space.allDevices, List.mem_append, List.mem_singleton]
      tauto
    · simp only [hempty]
      exact h.order.owned
  have hmem : d ∈ s.devices ++ [d] := by simp
  simp only at hadd
  split at hadd
  · have hins : LinkInv (Space.deviceFblockInsert al d none 0 capacity _).2 :=
      (hreg false s.ticks).insert al none 0 capacity (List.mem_append_left _ hmem) (by simp) (by simp)
    unfold Space.deviceFblockInsert at hadd hins
    cases hf : al.get s.ticks s.fblocks with
    | none =>
      simp only [hf, Bool.false_eq_true, if_false, Space.setDevice, Function.update_self, Function.update_idem,
        Option.some.injEq] at hadd
      exact hadd ▸ hreg true (s.ticks + 1)
    | some f =>
      simp only [hf, if_true, Option.some.injEq] at hadd hins
      exact hadd ▸ hins
  · cases hadd
    exact hreg false s.ticks

/-! ## Giving a block back -/

/-- What deleting item `a` leaves of the devices: none goes, and the only new
one is the copy of a device that is kicked. -/
structure DevicesKept (s s' : Space) : Prop where
  deviceIndexs : s'.deviceIndexs = s.deviceIndexs
  badblockPercent : s'.badblockPercent = s.badblockPercent
  deletedDevices : ∀ d ∈ s.deletedDevices, d ∈ s'.deletedDevices
  allDevices : ∀ d ∈ s.allDevices, d ∈ s'.allDevices
  copies : ∀ d ∈ s'.allDevices, d ∉ s.allDevices → (s'.device d).kicked = true
  device : ∀ d ∈ s.allDevices, ∃ x c b, s'.device d = { s.device d with deleted := x, consumed := c, badblock := b } ∧
    ((s.device d).deleted = true → x = true)
  files : s'.devices.map (fun d => (s'.device d).file) = s.devices.map fun d => (s.device d).file

namespace DevicesKept

variable {s'' : Space}

theorem of_same (h : SameDevices s s') : DevicesKept s s' := by
  have hall : s'.allDevices = s.allDevices := by rw [Space.allDevices, h.devices, h.deletedDevices, Space.allDevices]
  refine ⟨h.deviceIndexs, h.badblockPercent, fun d hd => h.deletedDevices ▸ hd, fun d hd => hall ▸ hd,
    fun d hd hn => absurd (hall ▸ hd) hn, fun d _ => ?_, ?_⟩
  · obtain ⟨c, b, hx⟩ := h.device d
    exact ⟨_, c, b, hx, id⟩
  · rw [h.devices]
    refine List.map_congr_left fun d _ => ?_
    obtain ⟨c, b, hx⟩ := h.device d
    rw [hx]

theorem trans (h : DevicesKept s s') (h' : DevicesKept s' s'') : DevicesKept s s'' := by
  refine ⟨h'.deviceIndexs.trans h.deviceIndexs, h'.badblockPercent.trans h.badblockPercent,
    fun d hd => h'.deletedDevices d (h.deletedDevices d hd), fun d hd => h'.allDevices d (h.allDevices d hd),
    fun d hd hn => ?_, fun d hd => ?_, h'.files.trans h.files⟩
  · by_cases hd' : d ∈ s'.allDevices
    · obtain ⟨x, c, b, hx, -⟩ := h'.device d hd'
      rw [hx]
      exact h.copies d hd' hn
    · exact h'.copies d hd hd'
  · obtain ⟨x, c, b, hx, himp⟩ := h.device d hd
    obtain ⟨x', c', b', hx', himp'⟩ := h'.device d (h.allDevices d hd)
    refine ⟨x', c', b', by rw [hx', hx], fun hdel => himp' ?_⟩
    rw [hx]
    exact himp hdel

end DevicesKept

/-- The copy of a kicked device takes its place. -/
theorem deviceKick_kept (al : Allocator) (hdev : DevInv s) (hd : d ∈ s.devices) (hk : (s.device d).kicked = false) :
    DevicesKept s (s.deviceKick al d) := by
  unfold Space.deviceKick
  split
  · exact .of_same ⟨rfl, rfl, rfl, rfl, fun _ => ⟨_, _, rfl⟩⟩
  next c hc =>
  have hfresh : c ∉ s.allDevices := al.fresh hc
  have hne : ∀ x ∈ s.allDevices, x ≠ c := fun x hx he => hfresh (he ▸ hx)
  have hda : d ∈ s.allDevices := List.mem_append_left _ hd
  obtain ⟨A, B, hAB, hdA⟩ := List.eq_append_cons_of_mem hd
  have hnd := (List.nodup_append.mp hdev.nodup).1
  have hcA : c ∉ A := fun h => hfresh (List.mem_append_left _ (hAB ▸ List.mem_append_left _ h))
  have hlist : (listAdd c d s.devices).erase d = A ++ c :: B := by
    rw [hAB, listAdd_append hdA, erase_append hdA]
  unfold Space.deviceDelete
  simp only [Function.update_of_ne (hne d hda), hk, Bool.false_eq_true, if_false, Space.setDevice, hlist]
  refine ⟨rfl, rfl, fun x hx => List.mem_cons_of_mem _ hx, fun x hx => ?_, fun x hx hn => ?_, fun x hx => ?_, ?_⟩
  · simp only [Space.allDevices, hAB, List.mem_append, List.mem_cons] at hx ⊢
    tauto
  · have hxc : x = c := by
      simp only [Space.allDevices, hAB, List.mem_append, List.mem_cons, not_or] at hx hn
      tauto
    subst hxc
    simp [Function.update_of_ne (hne d hda).symm]
  · by_cases hxd : x = d
    · subst hxd
      exact ⟨true, (s.device x).consumed, (s.device x).badblock, by simp [hk], fun _ => rfl⟩
    · exact ⟨_, _, _, by simp [hxd, hne x hx]; rfl, id⟩
  · have hdB : d ∉ B := (List.nodup_cons.mp (List.nodup_append.mp (hAB ▸ hnd)).2.1).1
    have hcopy : ∀ x ∈ A ++ B, (Function.update (Function.update s.device c { s.device d with kicked := true }) d
        { s.device d with deleted := true } x).file = (s.device x).file := by
      intro x hx
      have hxd : x ≠ d := fun he => (List.mem_append.mp (he ▸ hx)).elim hdA hdB
      have hxs : x ∈ s.devices := by
        rw [hAB]
        rcases List.mem_append.mp hx with hx | hx <;> simp [hx]
      rw [Function.update_of_ne hxd, Function.update_of_ne (hne x (List.mem_append_left _ hxs))]
    rw [hAB, List.map_append, List.map_append, List.map_cons, List.map_cons]
    simp only [hk] at hcopy
    rw [List.map_congr_left fun x hx => hcopy x (List.mem_append_left _ hx),
      List.map_congr_left fun x hx => hcopy x (List.mem_append_right _ hx)]
    simp [Function.update_of_ne (hne d hda).symm]

/-- A kick touches no item and no list that there is. -/
theorem deviceKick_frame (al : Allocator) (d : Nat) (s : Space) : (s.deviceKick al d).item = s.item ∧ (s.deviceKick al d).items = s.items ∧
    ∀ x ∈ s.allDevices, (s.deviceKick al d).order x = s.order x := by
  unfold Space.deviceKick
  split
  · exact ⟨rfl, rfl, fun _ _ => rfl⟩
  next c hc =>
  have hfresh : c ∉ s.allDevices := al.fresh hc
  have hne : ∀ x ∈ s.allDevices, x ≠ c := fun x hx he => hfresh (he ▸ hx)
  unfold Space.deviceDelete
  simp only
  split <;> exact ⟨rfl, rfl, fun x hx => Function.update_of_ne (hne x hx) ..⟩

theorem LinkInv.mem_devices (h : LinkInv s) {n : Node} (hn : n ∈ s.order d) (hdel : (s.device d).deleted = false) :
    d ∈ s.devices := by
  rcases List.mem_append.mp (h.order.mem_allDevices hn) with hm | hm
  · exact hm
  · rw [(h.dev.gone d hm).1] at hdel
    cases hdel

/-- What `device_return_free_block` does besides the lists of the device. -/
theorem deviceReturnFreeBlock_kept (h : LinkInv s) (ha : a ∈ s.items)
    (hr : s.deviceReturnFreeBlock al a = some (k, s')) :
    k = ipbucketBlockSize (s.item a).length ∧ DevicesKept s s' ∧ s'.item = s.item ∧ s'.items = s.items ∧
      ∀ d ∈ s.deletedDevices, ∀ n, n ≠ .item a → n ∈ s.order d → n ∈ s'.order d := by
  unfold Space.deviceReturnFreeBlock at hr
  obtain ⟨d, hd, hr⟩ := Option.bind_eq_some_iff.mp hr
  have had := h.order.item_mem h.dev ha hd
  have hda := h.order.mem_allDevices had
  have hk := h.order.not_kicked had
  -- The item leaves the list of its device.
  have herase : ∀ {x n} (o : Nat → List Node), n ≠ .item a → n ∈ o x →
      n ∈ Function.update o d ((o d).erase (.item a)) x := by
    intro x n o hn hx
    by_cases hxd : x = d
    · subst hxd
      simpa using (List.mem_erase_of_ne hn).mpr hx
    · simpa [hxd] using hx
  simp only at hr
  split at hr
  · cases hr
    exact ⟨rfl, .of_same ⟨rfl, rfl, rfl, rfl, fun _ => ⟨_, _, rfl⟩⟩, rfl, rfl, fun x _ n hn hx => herase _ hn hx⟩
  next hdel =>
  have hdel : (s.device d).deleted = false := by simpa using hdel
  have hact := h.mem_devices had hdel
  have hother : ∀ x ∈ s.deletedDevices, x ≠ d := by
    intro x hx he
    rw [he] at hx
    rw [(h.dev.gone d hx).1] at hdel
    cases hdel
  split at hr
  · cases hr
    -- The block is retired.
    have hsame : SameDevices s { s.setDevice d { s.device d with
        badblock := (s.device d).badblock + ipbucketBlockSize (s.item a).length } with
        retired := Function.update s.retired d
          (((s.item a).offset, ipbucketBlockSize (s.item a).length) :: s.retired d) } := by
      refine ⟨rfl, rfl, rfl, rfl, fun x => ?_⟩
      by_cases hxd : x = d
      · subst hxd
        exact ⟨_, _, Function.update_self ..⟩
      · exact ⟨_, _, Function.update_of_ne hxd ..⟩
    split
    · obtain ⟨hitem, hitems, horder⟩ := deviceKick_frame al d { s.setDevice d { s.device d with
        badblock := (s.device d).badblock + ipbucketBlockSize (s.item a).length } with
        retired := Function.update s.retired d
          (((s.item a).offset, ipbucketBlockSize (s.item a).length) :: s.retired d) }
      have hkick := deviceKick_kept al (d := d) (hsame.dev h.dev) hact (by simpa [Space.setDevice] using hk)
      refine ⟨rfl, (DevicesKept.of_same hsame).trans (hkick.trans (.of_same ⟨rfl, rfl, rfl, rfl, fun _ => ⟨_, _, rfl⟩⟩)),
        hitem, hitems, fun x hx n hn hm => herase _ hn ?_⟩
      rw [horder x (List.mem_append_right _ hx)]
      exact hm
    · exact ⟨rfl, (DevicesKept.of_same hsame).trans (.of_same ⟨rfl, rfl, rfl, rfl, fun _ => ⟨_, _, rfl⟩⟩), rfl, rfl,
        fun x _ n hn hm => herase _ hn hm⟩
  · obtain ⟨s₁, hs₁, hr⟩ := Option.bind_eq_some_iff.mp hr
    cases hr
    have hrec := (recycle_links h had hs₁).2
    refine ⟨rfl, (DevicesKept.of_same hrec.same).trans (.of_same ⟨rfl, rfl, rfl, rfl, fun x => ?_⟩), hrec.item, hrec.items,
      fun x hx n hn hm => ?_⟩
    · by_cases hxd : x = d
      · subst hxd
        exact ⟨_, _, Function.update_self ..⟩
      · exact ⟨_, _, Function.update_of_ne hxd ..⟩
    · exact herase _ hn (by simpa [Space.setDevice, hrec.order x (hother x hx)] using hm)

/-- **Giving back**, as far as the links go. -/
theorem deviceReturnFreeBlock_links (h : LinkInv s) (ha : a ∈ s.items)
    (hr : s.deviceReturnFreeBlock al a = some (k, s')) : LinkInv (s'.itemFree a) := by
  unfold Space.deviceReturnFreeBlock at hr
  obtain ⟨d, hd, hr⟩ := Option.bind_eq_some_iff.mp hr
  have had := h.order.item_mem h.dev ha hd
  simp only at hr
  split at hr
  · cases hr
    have hun := h.unlinkItem (x := s.device d) (R := s.retired d) had ⟨_, _, rfl⟩
    simpa only [Space.setDevice, Function.update_eq_self] using hun
  next hdel =>
  split at hr
  · cases hr
    have hun := h.unlinkItem (R := ((s.item a).offset, ipbucketBlockSize (s.item a).length) :: s.retired d) had
      ⟨(s.device d).consumed, (s.device d).badblock + ipbucketBlockSize (s.item a).length, rfl⟩
    split
    · rw [deviceKick_setOrder _ (by exact h.order.mem_allDevices had), deviceKick_itemFree]
      exact deviceKick_links hun (h.mem_devices had (by simpa using hdel))
    · exact hun
  · obtain ⟨s₁, hs₁, hr⟩ := Option.bind_eq_some_iff.mp hr
    cases hr
    obtain ⟨hinv, hrec⟩ := recycle_links h had hs₁
    have hmem := hrec.stays h hinv had (Space.mem_nodes_item.mpr (hrec.items ▸ ha))
    have hun := hinv.unlinkItem (R := s₁.retired d) hmem
      ⟨(s₁.device d).consumed - ipbucketBlockSize (s.item a).length, (s₁.device d).badblock, rfl⟩
    simp only [Function.update_eq_self] at hun
    exact hun

/-! ## Loading -/

theorem current_mem (hf : s.current d = some f) : .fblock f ∈ s.order d := by
  unfold Space.current at hf
  split at hf
  · next g hg =>
    cases hf
    exact List.mem_of_getLast? hg
  · cases hf

/-- An item is linked before the remaining space. -/
theorem deviceCutFreeBlock_links (h : LinkInv s) (hd : d ∈ s.allDevices) (hk : (s.device d).kicked = false)
    (hidx : (s.item a).deviceIndex = (s.device d).index) (hc : s.deviceCutFreeBlock al a = some (k, s')) :
    LinkInv s' ∧ SameDevices s s' ∧ s'.item = s.item ∧ (k = 0 ∧ s' = s ∨
      a ∉ s.items ∧ s'.items = a :: s.items ∧ k = ipbucketBlockSize (s.item a).length ∧ .item a ∈ s'.order d) := by
  unfold Space.deviceCutFreeBlock at hc
  obtain ⟨e, he, hc⟩ := Option.bind_eq_some_iff.mp hc
  obtain rfl : e = d := by
    rw [Space.deviceOfItem, hidx] at he
    rcases h.dev.index d hd hk with hi | hi
    · rw [hi, IdxPointer.get_neg_one] at he
      cases he
    · exact Option.some.inj (he.symm.trans hi)
  obtain ⟨f, hf, hc⟩ := Option.bind_eq_some_iff.mp hc
  simp only at hc
  split at hc
  · cases hc
    exact ⟨h, .refl _, rfl, .inl ⟨rfl, rfl⟩⟩
  split at hc
  · cases hc
  next ha =>
  have hmem := current_mem hf
  generalize hgap : (if (s.item a).offset - (s.fblock f).offset > 0 then
    (s.deviceFblockInsert al e (some (.fblock f)) (s.fblock f).offset ((s.item a).offset - (s.fblock f).offset)).2
    else s) = s₁ at hc
  -- The gap becomes a free block, or is lost.
  obtain ⟨hinv, hrec, hf₁⟩ : LinkInv s₁ ∧ Recycled e s s₁ ∧ .fblock f ∈ s₁.order e := by
    rw [← hgap]
    split
    · have hins := h.insert al (some (.fblock f)) (s.fblock f).offset ((s.item a).offset - (s.fblock f).offset) hd hk
        (fun n hn => by cases hn; exact hmem)
      have hrec := deviceFblockInsert_recycled al e (some (.fblock f)) (s.fblock f).offset
        ((s.item a).offset - (s.fblock f).offset) s
      refine ⟨hins, hrec, hrec.stays h hins hmem (Space.mem_nodes_fblock.mpr ?_)⟩
      have hff := Space.mem_nodes_fblock.mp (h.order.mem_nodes hmem)
      unfold Space.deviceFblockInsert
      split
      · exact hff
      · exact List.mem_cons_of_mem _ hff
    · exact ⟨h, ⟨.refl _, rfl, rfl, rfl, fun _ _ => rfl⟩, hmem⟩
  simp only [Option.some.injEq, Prod.mk.injEq] at hc
  obtain ⟨rfl, rfl⟩ := hc
  rw [← hrec.items] at ha
  have han : .item a ∉ s₁.nodes := fun hn => ha (Space.mem_nodes_item.mp hn)
  obtain ⟨A, B, hAB, hA, -⟩ := hinv.order.split hf₁
  generalize ipbucketBlockSize (s.item a).length + ((s.item a).offset - (s.fblock f).offset) = step
  generalize ipbucketBlockSize (s.item a).length = bs
  have hsame := linkLoaded_same a f e step bs s₁
  have horder : (s₁.linkLoaded a f e step bs).order = Function.update s₁.order e (A ++ [.item a] ++ .fblock f :: B) := by
    simp [Space.linkLoaded, hAB, listAddTail_append hA]
  refine ⟨⟨hsame.dev hinv.dev, hinv.queue, ?_⟩, hrec.same.trans hsame, hrec.item,
    .inr ⟨hrec.items ▸ ha, by rw [← hrec.items]; rfl, rfl, by simp [horder]⟩⟩
  refine hinv.order.splice (A := A) (M := []) (N := [.item a]) (B := .fblock f :: B) (hinv.order.mem_allDevices hf₁)
    (hinv.order.not_kicked hf₁) (by simp [hAB]) hsame horder (by simp [han]) (by simp) (fun n => ?_) (fun n hn => ?_)
    fun n hn _ => ?_
  · cases n with
    | item x => simp [Space.mem_nodes_item, Space.linkLoaded]
    | fblock x => simp [Space.mem_nodes_fblock, Space.linkLoaded]
  · obtain rfl := List.mem_singleton.mp hn
    simp only [Space.nodeIndex, Space.linkLoaded, hrec.item, hrec.device]
    exact hidx
  · exact nodeIndex_setFblock (s := s₁) (f := f) (b := { s₁.fblock f with
      offset := ((s₁.fblock f).offset + step) % 2 ^ 40, blockSize := (s₁.fblock f).blockSize - step }) rfl n

theorem deviceLoadPost_links (h : LinkInv s) (hp : s.deviceLoadPost d = some s') :
    LinkInv s' ∧ SameDevices s s' ∧ s'.item = s.item ∧ s'.items = s.items := by
  unfold Space.deviceLoadPost at hp
  obtain ⟨f, hf, hp⟩ := Option.bind_eq_some_iff.mp hp
  have hff := Space.mem_nodes_fblock.mp (h.order.mem_nodes (current_mem hf))
  split at hp
  · refine ⟨h.fblockDelete hff hp, deviceFblockDelete_same hp, ?_⟩
    obtain ⟨e, -, rfl⟩ := Option.map_eq_some_iff.mp hp
    exact ⟨rfl, rfl⟩
  · cases hp
    have hres := h.resize (b := s.fblock f) hff rfl
    rw [Space.setFblock, Function.update_eq_self] at hres
    exact ⟨hres, (ipbucketDel_same f s).trans (ipbucketAdd_same f _), rfl, rfl⟩

end OliveHc
