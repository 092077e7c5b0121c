/-
The lists of devices: a device is added, deleted or kicked.
-/
import OliveHc.Device.Blocks

namespace OliveHc

variable {strict : Prop} {s : Space} {d : Nat}

/-- States with the same blocks: what differs is none of `device.c`'s business. -/
structure SameBlocks (s s' : Space) : Prop where
  devices : s'.devices = s.devices
  deletedDevices : s'.deletedDevices = s.deletedDevices
  deviceIndexs : s'.deviceIndexs = s.deviceIndexs
  order : s'.order = s.order
  fblock : s'.fblock = s.fblock
  fblocks : s'.fblocks = s.fblocks
  queue : s'.queue = s.queue
  items : s'.items = s.items
  retired : s'.retired = s.retired
  device : ∀ d, ∃ u o, s'.device d = { s.device d with used := u, fdOpen := o }
  item : ∀ a ∈ s.items, (s'.item a).offset = (s.item a).offset ∧ (s'.item a).length = (s.item a).length ∧
    (s'.item a).deviceIndex = (s.item a).deviceIndex

namespace SameBlocks

variable {s' : Space}

theorem allDevices (h : SameBlocks s s') : s'.allDevices = s.allDevices := by
  rw [Space.allDevices, h.devices, h.deletedDevices, Space.allDevices]

theorem nodes (h : SameBlocks s s') : s'.nodes = s.nodes := by
  rw [Space.nodes, h.fblocks, h.items, Space.nodes]

theorem extent (h : SameBlocks s s') {n : Node} (hn : n ∈ s.nodes) :
    s'.extent n = s.extent n ∧ s'.nodeIndex n = s.nodeIndex n := by
  cases n with
  | fblock f => simp only [Space.extent, Space.nodeIndex, h.fblock, and_self]
  | item a =>
    obtain ⟨h1, h2, h3⟩ := h.item a (Space.mem_nodes_item.mp hn)
    simp only [Space.extent, Space.nodeIndex, h1, h2, h3, and_self]

end SameBlocks

/-- Something of an item changes that is none of `device.c`'s business. -/
theorem sameBlocks_setItem {sp : Space} {a : Nat} {x : Item} (h : a ∈ sp.items → x.offset = (sp.item a).offset ∧
    x.length = (sp.item a).length ∧ x.deviceIndex = (sp.item a).deviceIndex) : SameBlocks sp (sp.setItem a x) := by
  refine ⟨rfl, rfl, rfl, rfl, rfl, rfl, rfl, rfl, rfl, fun _ => ⟨_, _, rfl⟩, fun b hb => ?_⟩
  show (Function.update sp.item a x b).offset = _ ∧ (Function.update sp.item a x b).length = _ ∧
    (Function.update sp.item a x b).deviceIndex = _
  by_cases hba : b = a
  · subst hba
    rw [Function.update_self]
    exact h hb
  · rw [Function.update_of_ne hba]
    exact ⟨rfl, rfl, rfl⟩

theorem sameBlocks_setUsed (sp : Space) (d : Nat) (u : Int) (o : Bool) :
    SameBlocks sp (sp.setDevice d { sp.device d with used := u, fdOpen := o }) := by
  refine ⟨rfl, rfl, rfl, rfl, rfl, rfl, rfl, rfl, rfl, fun x => ?_, fun _ _ => ⟨rfl, rfl, rfl⟩⟩
  by_cases hx : x = d
  · subst hx
    exact ⟨_, _, Function.update_self ..⟩
  · exact ⟨_, _, Function.update_of_ne hx ..⟩

theorem itemFree_of_not_mem {sp : Space} {a : Nat} (h : a ∉ sp.items) : sp.itemFree a = sp := by
  have hfilter : sp.items.filter (· ≠ a) = sp.items :=
    List.filter_eq_self.mpr fun b hb => decide_eq_true fun he => h (he ▸ hb)
  rw [Space.itemFree, hfilter]

theorem OrderInv.same {s' : Space} (h : OrderInv strict s) (hs : SameBlocks s s') : OrderInv strict s' := by
  have hall := hs.allDevices
  have hext : ∀ d, ∀ n ∈ s.order d, s'.extent n = s.extent n ∧ s'.nodeIndex n = s.nodeIndex n := fun d n hn =>
    hs.extent ((h.owned.covers n).mpr ⟨d, hn⟩)
  refine ⟨?_, fun d hd => ?_, fun d hd hk => ?_, fun d n hn => ?_, fun a ha => ?_, fun d hd hk => ?_⟩
  · rw [hs.order, hs.nodes]
    exact h.owned
  · rw [hs.order]
    exact h.unlisted d (hall ▸ hd)
  · obtain ⟨u, o, hx⟩ := hs.device d
    rw [hx] at hk
    rw [hs.order]
    exact h.kicked d (hall ▸ hd) hk
  · obtain ⟨u, o, hx⟩ := hs.device d
    rw [hs.order] at hn
    rw [(hext d n hn).2, hx]
    exact h.nodeIndex d n hn
  · rw [hs.items] at ha
    rw [(hs.item a ha).2.1]
    exact h.length a ha
  · obtain ⟨u, o, hx⟩ := hs.device d
    rw [hx] at hk
    obtain ⟨T, hT, htidy⟩ := h.layout d (hall ▸ hd) hk
    rw [hx, hs.order, hs.retired]
    refine ⟨T, hT.congr fun n hn => (hext d n hn).1, fun hst hdel => ?_⟩
    have ht := htidy hst hdel
    exact ⟨ht.coalesced, ht.retired, ht.badblock, ht.consumed⟩

theorem SpaceInv.same {s' : Space} (h : SpaceInv strict s) (hs : SameBlocks s s') : SpaceInv strict s' := by
  have hall := hs.allDevices
  refine ⟨⟨hall ▸ h.dev.nodup, fun d hd => ?_, fun d hd => ?_, fun d hd hk => ?_, fun d hd => ?_⟩, ⟨?_, fun i f hf => ?_⟩,
    h.order.same hs⟩
  · obtain ⟨u, o, hx⟩ := hs.device d
    rw [hx]
    exact h.dev.active d (hs.devices ▸ hd)
  · obtain ⟨u, o, hx⟩ := hs.device d
    rw [hx]
    exact h.dev.gone d (hs.deletedDevices ▸ hd)
  · obtain ⟨u, o, hx⟩ := hs.device d
    rw [hx] at hk ⊢
    rw [hs.deviceIndexs]
    exact h.dev.index d (hall ▸ hd) hk
  · obtain ⟨u, o, hx⟩ := hs.device d
    rw [hx]
    exact h.dev.capacity d (hall ▸ hd)
  · rw [hs.queue, hs.fblocks]
    exact h.queue.owned
  · rw [hs.queue] at hf
    rw [hs.fblock]
    exact h.queue.size i f hf

theorem SpaceInv.ticks (h : SpaceInv strict s) (n : Nat) : SpaceInv strict { s with ticks := n } :=
  h.same ⟨rfl, rfl, rfl, rfl, rfl, rfl, rfl, rfl, rfl, fun _ => ⟨_, _, rfl⟩, fun _ _ => ⟨rfl, rfl, rfl⟩⟩

/-- An item that has no block may be anything. -/
theorem SpaceInv.setItem (h : SpaceInv strict s) {a : Nat} (x : Item) (ha : a ∉ s.items) :
    SpaceInv strict (s.setItem a x) := h.same (sameBlocks_setItem fun hmem => absurd hmem ha)

/-- The marks of an item change. -/
theorem SpaceInv.markItem (h : SpaceInv strict s) {a : Nat} {x : Item} (ho : x.offset = (s.item a).offset)
    (hl : x.length = (s.item a).length) (hi : x.deviceIndex = (s.item a).deviceIndex) : SpaceInv strict (s.setItem a x) :=
  h.same (sameBlocks_setItem fun _ => ⟨ho, hl, hi⟩)

/-- The counter of uses and the file of a device change. -/
theorem SpaceInv.setUsed (h : SpaceInv strict s) (d : Nat) (u : Int) (o : Bool) :
    SpaceInv strict (s.setDevice d { s.device d with used := u, fdOpen := o }) := h.same (sameBlocks_setUsed s d u o)

/-! ## A device object goes -/

/-- A device leaves `devices`. -/
theorem DevInv.leave (h : DevInv s) (hd : d ∈ s.devices) : DevInv { s with devices := s.devices.erase d } := by
  have hperm : s.allDevices.Perm (d :: (s.devices.erase d ++ s.deletedDevices)) :=
    (List.perm_cons_erase hd).append_right _
  have hsub : ∀ x, x ∈ s.devices.erase d ++ s.deletedDevices → x ∈ s.allDevices := fun x hx =>
    hperm.mem_iff.mpr (List.mem_cons_of_mem _ hx)
  exact ⟨(List.nodup_cons.mp (hperm.nodup h.nodup)).2, fun x hx => h.active x (List.mem_of_mem_erase hx),
    h.gone, fun x hx => h.index x (hsub x hx), fun x hx => h.capacity x (hsub x hx)⟩

theorem mem_allDevices_leave (h : DevInv s) (hd : d ∈ s.devices) (x : Nat) :
    x ∈ ({ s with devices := s.devices.erase d } : Space).allDevices ↔ x ∈ s.allDevices ∧ x ≠ d := by
  have hperm : s.allDevices.Perm (d :: (s.devices.erase d ++ s.deletedDevices)) :=
    (List.perm_cons_erase hd).append_right _
  have hnd := List.nodup_cons.mp (hperm.nodup h.nodup)
  rw [hperm.mem_iff, List.mem_cons]
  show x ∈ s.devices.erase d ++ s.deletedDevices ↔ _
  by_cases hx : x = d
  · simp only [hx, true_or, ne_eq, not_true_eq_false, and_false, iff_false]
    exact hnd.1
  · simp [hx]

/-- A device is marked as deleted. -/
theorem setDeleted_device (s : Space) (d x : Nat) : Function.update s.device d { s.device d with deleted := true } x =
    { s.device x with deleted := if x = d then true else (s.device x).deleted } := by
  by_cases hx : x = d
  · subst hx
    simp
  · simp [hx]

theorem DevInv.delete (h : DevInv s) (hd : d ∈ s.devices) (hk : (s.device d).kicked = false) :
    DevInv { s.setDevice d { s.device d with deleted := true } with
      devices := s.devices.erase d, deletedDevices := d :: s.deletedDevices } := by
  have hperm : s.allDevices.Perm (s.devices.erase d ++ d :: s.deletedDevices) :=
    ((List.perm_cons_erase hd).append_right _).trans List.perm_middle.symm
  have hnd := h.nodup
  refine ⟨hperm.nodup hnd, fun x hx => ?_, fun x hx => ?_, fun x hx => ?_, fun x hx => ?_⟩ <;>
    simp only [Space.setDevice, setDeleted_device]
  · have hne : x ≠ d := by
      rintro rfl
      exact (List.nodup_append.mp hnd).1.not_mem_erase hx
    rw [if_neg hne]
    exact h.active x (List.mem_of_mem_erase hx)
  · rcases List.mem_cons.mp hx with rfl | hx
    · exact ⟨if_pos rfl, hk⟩
    · have hg := h.gone x hx
      exact ⟨by split <;> simp [hg.1], hg.2⟩
  · exact h.index x (hperm.mem_iff.mpr hx)
  · exact h.capacity x (hperm.mem_iff.mpr hx)

/-- A deleted device is freed. -/
theorem DevInv.destroy {t : IdxPointer} (h : DevInv s) (hd : d ∈ s.deletedDevices)
    (ht : s.deviceIndexs.delete (s.device d).index = some t) :
    DevInv { s with deletedDevices := s.deletedDevices.erase d, deviceIndexs := t } := by
  have hperm : s.allDevices.Perm (d :: (s.devices ++ s.deletedDevices.erase d)) :=
    ((List.perm_cons_erase hd).append_left _).trans List.perm_middle
  have hnd := List.nodup_cons.mp (hperm.nodup h.nodup)
  have hsub : ∀ x, x ∈ s.devices ++ s.deletedDevices.erase d → x ∈ s.allDevices := fun x hx =>
    hperm.mem_iff.mpr (List.mem_cons_of_mem _ hx)
  have hdi : s.deviceIndexs.get (s.device d).index = some d := by
    rcases h.index d (List.mem_append_right _ hd) (h.gone d hd).2 with hi | hi
    · rw [hi] at ht
      cases ht
    · exact hi
  refine ⟨hnd.2, h.active, fun x hx => h.gone x (List.mem_of_mem_erase hx), fun x hx hk => ?_,
    fun x hx => h.capacity x (hsub x hx)⟩
  refine (h.index x (hsub x hx) hk).imp_right fun hi => ?_
  show t.get _ = _
  rw [IdxPointer.get_delete ht, if_neg, hi]
  intro he
  rw [he, hdi] at hi
  exact hnd.1 (Option.some.inj hi ▸ hx)

theorem mem_allDevices_destroy (hnd : s.allDevices.Nodup) (hd : d ∈ s.deletedDevices) (t : IdxPointer) (x : Nat) :
    x ∈ ({ s with deletedDevices := s.deletedDevices.erase d, deviceIndexs := t } : Space).allDevices ↔
      x ∈ s.allDevices ∧ x ≠ d := by
  have hperm : s.allDevices.Perm (d :: (s.devices ++ s.deletedDevices.erase d)) :=
    ((List.perm_cons_erase hd).append_left _).trans List.perm_middle
  have hnd := List.nodup_cons.mp (hperm.nodup hnd)
  rw [hperm.mem_iff, List.mem_cons]
  show x ∈ s.devices ++ s.deletedDevices.erase d ↔ _
  by_cases hx : x = d
  · simp only [hx, true_or, ne_eq, not_true_eq_false, and_false, iff_false]
    exact hnd.1
  · simp [hx]

/-- A kicked device has no list, so nothing of it is left. -/
theorem deviceDelete_kicked_inv (h : SpaceInv strict s) (hd : d ∈ s.devices) (hk : (s.device d).kicked = true) :
    SpaceInv strict { s with devices := s.devices.erase d } := by
  have hmem := mem_allDevices_leave h.dev hd
  refine ⟨h.dev.leave hd, ⟨h.queue.owned, h.queue.size⟩, ⟨h.order.owned, fun x hx => ?_,
    fun x hx => h.order.kicked x ((hmem x).mp hx).1, h.order.nodeIndex, h.order.length,
    fun x hx => h.order.layout x ((hmem x).mp hx).1⟩⟩
  by_cases hxd : x = d
  · subst hxd
    exact h.order.kicked x (List.mem_append_left _ hd) hk
  · exact h.order.unlisted x fun hall => hx ((hmem x).mpr ⟨hall, hxd⟩)

/-- A device that is deleted keeps its list until it is destroyed. -/
theorem deviceDelete_inv (h : SpaceInv strict s) (hd : d ∈ s.devices) : SpaceInv strict (s.deviceDelete d) := by
  unfold Space.deviceDelete
  simp only
  split
  · next hk => exact deviceDelete_kicked_inv h hd hk
  next hk =>
  have hperm : s.allDevices.Perm (s.devices.erase d ++ d :: s.deletedDevices) :=
    ((List.perm_cons_erase hd).append_right _).trans List.perm_middle.symm
  have hmem : ∀ x, x ∈ s.devices.erase d ++ d :: s.deletedDevices ↔ x ∈ s.allDevices := fun x => hperm.mem_iff.symm
  refine ⟨h.dev.delete hd (by simpa using hk), ⟨h.queue.owned, h.queue.size⟩, ⟨h.order.owned, fun x hx => ?_, fun x hx => ?_,
    fun x n hn => ?_, h.order.length, fun x hx => ?_⟩⟩ <;> simp only [Space.setDevice, setDeleted_device]
  · exact h.order.unlisted x fun hall => hx ((hmem x).mpr hall)
  · exact h.order.kicked x ((hmem x).mp hx)
  · exact h.order.nodeIndex x n hn
  · intro hkx
    obtain ⟨T, hT, htidy⟩ := h.order.layout x ((hmem x).mp hx) hkx
    refine ⟨T, hT, fun hs hdel => ?_⟩
    have hne : ¬x = d := fun he => by simp [he] at hdel
    rw [if_neg hne] at hdel ⊢
    exact htidy hs hdel

/-- A deleted device without a list is freed. -/
theorem destroyed_inv {t : IdxPointer} (h : SpaceInv strict s) (hd : d ∈ s.deletedDevices) (ho : s.order d = [])
    (ht : s.deviceIndexs.delete (s.device d).index = some t) :
    SpaceInv strict { s with deletedDevices := s.deletedDevices.erase d, deviceIndexs := t } := by
  have hmem := mem_allDevices_destroy h.dev.nodup hd t
  refine ⟨h.dev.destroy hd ht, ⟨h.queue.owned, h.queue.size⟩,
    ⟨h.order.owned, fun x hx => ?_, fun x hx => h.order.kicked x ((hmem x).mp hx).1, h.order.nodeIndex, h.order.length,
      fun x hx => h.order.layout x ((hmem x).mp hx).1⟩⟩
  by_cases hxd : x = d
  · subst hxd
    exact ho
  · exact h.order.unlisted x fun hall => hx ((hmem x).mpr ⟨hall, hxd⟩)

/-! ## A new device object -/

section Register

variable {s' : Space} {c : Nat}

theorem DevInv.register (h : DevInv s) (hc : c ∉ s.allDevices) (hperm : s'.devices.Perm (c :: s.devices))
    (hdeleted : s'.deletedDevices = s.deletedDevices) (hold : ∀ x, x ≠ c → s'.device x = s.device x)
    (hidx : ∀ i x, s.deviceIndexs.get i = some x → s'.deviceIndexs.get i = some x)
    (hnew : (s'.device c).deleted = false ∧ (s'.device c).capacity ≤ capacityLimit)
    (hcidx : (s'.device c).kicked = false →
      (s'.device c).index = -1 ∨ s'.deviceIndexs.get (s'.device c).index = some c) : DevInv s' := by
  have hall : s'.allDevices.Perm (c :: s.allDevices) := by
    rw [Space.allDevices, hdeleted]
    exact hperm.append_right _
  have hne : ∀ x ∈ s.allDevices, x ≠ c := fun x hx he => hc (he ▸ hx)
  refine ⟨hall.symm.nodup (List.nodup_cons.mpr ⟨hc, h.nodup⟩), fun x hx => ?_, fun x hx => ?_, fun x hx hk => ?_,
    fun x hx => ?_⟩
  · rcases List.mem_cons.mp (hperm.mem_iff.mp hx) with rfl | hx
    · exact hnew.1
    · rw [hold x (hne x (List.mem_append_left _ hx))]
      exact h.active x hx
  · rw [hdeleted] at hx
    rw [hold x (hne x (List.mem_append_right _ hx))]
    exact h.gone x hx
  · rcases List.mem_cons.mp (hall.mem_iff.mp hx) with rfl | hx
    · exact hcidx hk
    · rw [hold x (hne x hx)] at hk ⊢
      exact (h.index x hx hk).imp_right (hidx _ _)
  · rcases List.mem_cons.mp (hall.mem_iff.mp hx) with rfl | hx
    · exact hnew.2
    · rw [hold x (hne x hx)]
      exact h.capacity x hx

theorem OrderInv.register (h : OrderInv strict s) (hc : c ∉ s.allDevices) (hperm : s'.devices.Perm (c :: s.devices))
    (hdeleted : s'.deletedDevices = s.deletedDevices)
    (hold : ∀ x, x ≠ c → s'.device x = s.device x ∧ s'.retired x = s.retired x ∧ s'.order x = s.order x)
    (hnode : ∀ n ∈ s.nodes, s'.extent n = s.extent n ∧ s'.nodeIndex n = s.nodeIndex n)
    (howned : Owned s'.order s'.nodes) (hlength : ∀ a ∈ s'.items, (s'.item a).length < 2 ^ 32)
    (hkick : (s'.device c).kicked = true → s'.order c = [])
    (hindex : ∀ n ∈ s'.order c, s'.nodeIndex n = (s'.device c).index)
    (hlayout : (s'.device c).kicked = false → ∃ T, Layout (s'.device c).capacity (s'.order c) s'.extent T ∧
      (strict → (s'.device c).deleted = false → Tidy (s'.device c) (s'.retired c) T)) : OrderInv strict s' := by
  have hall : s'.allDevices.Perm (c :: s.allDevices) := by
    rw [Space.allDevices, hdeleted]
    exact hperm.append_right _
  have hframe : ∀ x, ∀ n ∈ s.order x, s'.extent n = s.extent n ∧ s'.nodeIndex n = s.nodeIndex n :=
    fun x n hn => hnode n ((h.owned.covers n).mpr ⟨x, hn⟩)
  refine ⟨howned, fun x hx => ?_, fun x hx hk => ?_, fun x n hn => ?_, hlength, fun x hx hk => ?_⟩
  · have hxc : x ≠ c := fun he => hx (hall.mem_iff.mpr (he ▸ List.mem_cons_self))
    rw [(hold x hxc).2.2]
    exact h.unlisted x fun hxs => hx (hall.mem_iff.mpr (List.mem_cons_of_mem _ hxs))
  · by_cases hxc : x = c
    · subst hxc
      exact hkick hk
    · rw [(hold x hxc).1] at hk
      rw [(hold x hxc).2.2]
      exact h.kicked x ((List.mem_cons.mp (hall.mem_iff.mp hx)).resolve_left hxc) hk
  · by_cases hxc : x = c
    · subst hxc
      exact hindex n hn
    · rw [(hold x hxc).2.2] at hn
      rw [(hframe x n hn).2, (hold x hxc).1]
      exact h.nodeIndex x n hn
  · by_cases hxc : x = c
    · subst hxc
      exact hlayout hk
    · rw [(hold x hxc).1] at hk
      obtain ⟨T, hT, htidy⟩ := h.layout x ((List.mem_cons.mp (hall.mem_iff.mp hx)).resolve_left hxc) hk
      rw [(hold x hxc).1, (hold x hxc).2.1, (hold x hxc).2.2]
      exact ⟨T, hT.congr fun n hn => (hframe x n hn).1, htidy⟩

end Register

theorem listAdd_perm {n x : Nat} {l : List Nat} (h : x ∈ l) : (listAdd n x l).Perm (n :: l) := by
  obtain ⟨a, b, rfl, ha⟩ := List.eq_append_cons_of_mem h
  rw [listAdd_append ha]
  calc (a ++ x :: n :: b).Perm (n :: (a ++ [x] ++ b)) := by
        rw [List.append_cons]
        exact List.perm_middle
    _ = n :: (a ++ x :: b) := by simp

/-- The copy that a kick leaves behind has no list. -/
theorem deviceKick_inv {al : Allocator} (h : SpaceInv strict s) (hd : d ∈ s.devices) :
    SpaceInv strict (s.deviceKick al d) := by
  unfold Space.deviceKick
  split
  · exact h.ticks _
  next c hc =>
  have hfresh : c ∉ s.allDevices := al.fresh hc
  have hperm := listAdd_perm (n := c) hd
  refine deviceDelete_inv ⟨?_, ⟨h.queue.owned, h.queue.size⟩, ?_⟩ (hperm.mem_iff.mpr (List.mem_cons_of_mem _ hd))
  · refine h.dev.register hfresh hperm rfl (fun x hx => Function.update_of_ne hx ..) (fun _ _ hi => hi) ?_ ?_
    · simp only [Function.update_self]
      exact ⟨h.dev.active d hd, h.dev.capacity d (List.mem_append_left _ hd)⟩
    · simp
  · have horder : Function.update s.order c [] = s.order := by
      rw [← h.order.unlisted c hfresh, Function.update_eq_self]
    refine h.order.register hfresh hperm rfl (fun x hx => ⟨Function.update_of_ne hx .., rfl, Function.update_of_ne hx ..⟩)
      (fun n _ => by cases n <;> exact ⟨rfl, rfl⟩) ?_ h.order.length ?_ ?_ ?_
    · simp only [horder]
      exact h.order.owned
    · simp
    · simp
    · simp

/-- A kick does not touch the list of the device. -/
theorem deviceKick_setOrder {al : Allocator} (n : Node) (hd : d ∈ s.allDevices) :
    (s.deviceKick al d).setOrder d (((s.deviceKick al d).order d).erase n) =
      (s.setOrder d ((s.order d).erase n)).deviceKick al d := by
  unfold Space.deviceKick
  have hget : al.get (s.setOrder d ((s.order d).erase n)).ticks
      ((s.setOrder d ((s.order d).erase n)).devices ++ (s.setOrder d ((s.order d).erase n)).deletedDevices) =
      al.get s.ticks (s.devices ++ s.deletedDevices) := rfl
  rw [hget]
  cases hc : al.get s.ticks (s.devices ++ s.deletedDevices) with
  | none => rfl
  | some c =>
    have hne : d ≠ c := fun he => al.fresh hc (he ▸ hd)
    simp only [Space.deviceDelete, Space.setOrder, Space.setDevice, Function.update_of_ne hne]
    split <;> simp [Function.update_of_ne hne, Function.update_comm hne]

theorem deviceKick_itemFree {al : Allocator} {a : Nat} : (s.deviceKick al d).itemFree a = (s.itemFree a).deviceKick al d := by
  unfold Space.deviceKick
  have hget : al.get (s.itemFree a).ticks ((s.itemFree a).devices ++ (s.itemFree a).deletedDevices) =
      al.get s.ticks (s.devices ++ s.deletedDevices) := rfl
  rw [hget]
  cases al.get s.ticks (s.devices ++ s.deletedDevices) with
  | none => rfl
  | some c =>
    simp only [Space.deviceDelete, Space.itemFree, Space.setDevice]
    split <;> next hk => simp [hk]

/-- A new device is one free block. -/
theorem deviceAdd_inv {al : Allocator} {file capacity : Nat} {s' : Space} (h : SpaceInv strict s) (hd : d ∉ s.allDevices) (hcap : capacity ≤ capacityLimit) (hdvd : 512 ∣ capacity)
    (hadd : s.deviceAdd al d file capacity = some s') : SpaceInv strict s' := by
  unfold Space.deviceAdd at hadd
  obtain ⟨⟨i, t⟩, ht, hadd⟩ := Option.bind_eq_some_iff.mp hadd
  have hkeep := IdxPointer.add_extends ht
  have hindex : i = -1 ∨ t.get i = some d := by
    rcases IdxPointer.add_cases ht with ⟨hi, -⟩ | ⟨-, -, -, hi, -⟩
    · exact .inl hi
    · exact .inr hi
  have hperm : (s.devices ++ [d]).Perm (d :: s.devices) := List.perm_append_singleton d _
  have hempty : Function.update s.order d [] = s.order := by
    rw [← h.order.unlisted d hd, Function.update_eq_self]
  simp only at hadd
  split at hadd
  · rename_i hpos
    unfold Space.deviceFblockInsert at hadd
    split at hadd
    · -- No memory for the free block: the device is listed as kicked.
      simp only [Bool.false_eq_true, if_false, Option.some.injEq] at hadd
      subst hadd
      refine ⟨?_, ⟨h.queue.owned, h.queue.size⟩, ?_⟩
      · refine h.dev.register hd hperm rfl (fun x hx => ?_) hkeep ?_ ?_
        · simp [Space.setDevice, hx]
        · simp [Space.setDevice, hcap]
        · simp [Space.setDevice]
      · refine h.order.register hd hperm rfl (fun x hx => ?_) (fun n _ => by cases n <;> exact ⟨rfl, rfl⟩) ?_ h.order.length
          ?_ ?_ ?_
        · simp [Space.setDevice, hx]
        · simp only [Space.setDevice, hempty]
          exact h.order.owned
        · simp [Space.setDevice]
        · simp [Space.setDevice]
        · simp [Space.setDevice]
    · rename_i f hf
      have hfresh : f ∉ s.fblocks := al.fresh hf
      have hnf : Node.fblock f ∉ s.nodes := fun hn => hfresh (Space.mem_nodes_fblock.mp hn)
      simp only [if_true, Option.some.injEq, Function.update_self, Function.update_idem, List.nil_append] at hadd
      have hq := (h.queue.setFblock hfresh ⟨i, 0 % 2 ^ 40, capacity⟩).add hfresh
      subst hadd
      refine ⟨?_, ⟨hq.owned, hq.size⟩, ?_⟩
      · refine h.dev.register hd hperm rfl (fun x hx => ?_) hkeep ?_ ?_
        · simp [Space.ipbucketAdd, hx]
        · simp [Space.ipbucketAdd, hcap]
        · simpa [Space.ipbucketAdd] using hindex
      · refine h.order.register hd hperm rfl (fun x hx => ?_) (fun n hn => ?_) ?_ h.order.length ?_ ?_ ?_
        · simp [Space.ipbucketAdd, hx]
        · exact extent_setFblock_of_ne (s := s) fun he => hnf (he ▸ hn)
        · show Owned (Function.update s.order d [.fblock f]) _
          have hg := h.order.owned.gain (p := d) (l := [.fblock f]) hnf (by rw [h.order.unlisted d hd])
          exact hg.congr fun n => by cases n <;> simp [Space.nodes, Space.ipbucketAdd]
        · simp [Space.ipbucketAdd]
        · simp [Space.ipbucketAdd, Space.nodeIndex]
        · intro _
          refine ⟨[⟨some (.fblock f), 0, capacity⟩], ⟨?_, ?_, ?_, ?_⟩, fun _ _ => ⟨?_, ?_, ?_, ?_⟩⟩
          · simp [Space.ipbucketAdd, Tiles, Seg.stop, Nat.pos_of_ne_zero hpos]
          · simp [Space.ipbucketAdd]
          · simp [Space.ipbucketAdd, Space.extent]
          · simpa using hdvd
          · exact List.isChain_singleton _
          · simp [Space.ipbucketAdd]
          · simp [Space.ipbucketAdd, sizeOf]
          · simp [Space.ipbucketAdd, sizeOf, itemTag]
  · rename_i hzero
    cases hadd
    have h0 : capacity = 0 := by simpa using hzero
    refine ⟨?_, ⟨h.queue.owned, h.queue.size⟩, ?_⟩
    · refine h.dev.register hd hperm rfl (fun x hx => ?_) hkeep ?_ ?_
      · simp [hx]
      · simp [hcap]
      · simpa using hindex
    · refine h.order.register hd hperm rfl (fun x hx => ?_) (fun n _ => by cases n <;> exact ⟨rfl, rfl⟩) ?_ h.order.length
        ?_ ?_ ?_
      · simp [hx]
      · simp only [hempty]
        exact h.order.owned
      · simp
      · simp
      · intro _
        refine ⟨[], ⟨?_, ?_, ?_, ?_⟩, fun _ _ => ⟨?_, ?_, ?_, ?_⟩⟩
        · simp [Tiles, h0]
        · simp
        · simp
        · simp
        · exact List.isChain_nil
        · simp
        · simp [sizeOf]
        · simp [sizeOf]

end OliveHc
