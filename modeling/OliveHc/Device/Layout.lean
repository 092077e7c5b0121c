/-
The layout of a device: its order list as a tiling.

A device's items and free blocks, and what was lost between them, tile
`[0, capacity)`. The lost pieces (the holes) are not in the order list: bad
blocks that were retired, on a deleted device whatever has been freed, and
blocks for whose free block there was no memory. A device is tidy while
only bad blocks are lost: then no two free blocks are neighbours and the
counters add up.
-/
import OliveHc.Lib.Tiling
import OliveHc.Lib.Ownership
import OliveHc.Device

namespace OliveHc

/-- Where a node is: its offset and the size of its block. -/
def Space.extent (s : Space) : Node → Nat × Nat
  | .item a => ((s.item a).offset, ipbucketBlockSize (s.item a).length)
  | .fblock f => ((s.fblock f).offset, (s.fblock f).blockSize)

def Space.nodeIndex (s : Space) : Node → Int
  | .item a => (s.item a).deviceIndex
  | .fblock f => (s.fblock f).deviceIndex

/-- A piece of a device: a node, or a hole. -/
abbrev Tile := Seg (Option Node)

/-- The piece of a node. -/
abbrev Space.tile (s : Space) (n : Node) : Tile := ⟨some n, (s.extent n).1, (s.extent n).2⟩

def IsFree (tag : Option Node) : Prop := ∃ f, tag = some (.fblock f)

/-- The order list, its nodes in place, is a tiling with holes. -/
structure Layout (capacity : Nat) (order : List Node) (extent : Node → Nat × Nat) (T : List Tile) : Prop where
  tiles : Tiles 0 capacity T
  order : T.filterMap Seg.tag = order
  extent : ∀ t ∈ T, ∀ n, t.tag = some n → extent n = (t.offset, t.size)
  aligned : ∀ t ∈ T, 512 ∣ t.size

namespace Layout

variable {capacity : Nat} {order : List Node} {extent : Node → Nat × Nat} {T : List Tile}

/-- The piece of a node, with what is on both sides of it. -/
theorem split (h : Layout capacity order extent T) {n : Node} (hn : n ∈ order) : ∃ A B,
    T = A ++ [⟨some n, (extent n).1, (extent n).2⟩] ++ B ∧
      order = A.filterMap Seg.tag ++ n :: B.filterMap Seg.tag := by
  rw [← h.order] at hn
  obtain ⟨t, ht, htag⟩ := List.mem_filterMap.mp hn
  obtain ⟨A, B, rfl⟩ := List.append_of_mem ht
  have he := h.extent t ht n htag
  obtain ⟨tag, offset, size⟩ := t
  simp only at htag he
  subst htag
  refine ⟨A, B, by rw [he, List.append_assoc, List.singleton_append], ?_⟩
  rw [← h.order, List.filterMap_append]
  rfl

/-- Neighbouring pieces are replaced by others. -/
theorem splice {A B M M' : List Tile} {order' : List Node} {extent' : Node → Nat × Nat}
    (h : Layout capacity order extent (A ++ M ++ B)) (hM : ∀ {x y}, Tiles x y M → Tiles x y M')
    (hord : order' = A.filterMap Seg.tag ++ M'.filterMap Seg.tag ++ B.filterMap Seg.tag)
    (hext : ∀ n, n ∈ A.filterMap Seg.tag ∨ n ∈ B.filterMap Seg.tag → extent' n = extent n)
    (hM' : ∀ t ∈ M', (∀ n, t.tag = some n → extent' n = (t.offset, t.size)) ∧ 512 ∣ t.size) :
    Layout capacity order' extent' (A ++ M' ++ B) := by
  refine ⟨h.tiles.replace hM, ?_, fun t ht n hn => ?_, fun t ht => ?_⟩
  · rw [hord, List.filterMap_append, List.filterMap_append]
  · rcases List.mem_append.mp ht with ht | ht
    · rcases List.mem_append.mp ht with ht | ht
      · rw [hext n (.inl (List.mem_filterMap.mpr ⟨t, ht, hn⟩))]
        exact h.extent t (by simp [ht]) n hn
      · exact (hM' t ht).1 n hn
    · rw [hext n (.inr (List.mem_filterMap.mpr ⟨t, ht, hn⟩))]
      exact h.extent t (by simp [ht]) n hn
  · rcases List.mem_append.mp ht with ht | ht
    · rcases List.mem_append.mp ht with ht | ht
      · exact h.aligned t (by simp [ht])
      · exact (hM' t ht).2
    · exact h.aligned t (by simp [ht])

/-- What the nodes of a list keep, the layout keeps. -/
theorem congr (h : Layout capacity order extent T) {extent' : Node → Nat × Nat}
    (hext : ∀ n ∈ order, extent' n = extent n) : Layout capacity order extent' T := by
  refine ⟨h.tiles, h.order, fun t ht n hn => ?_, h.aligned⟩
  rw [hext n (h.order ▸ List.mem_filterMap.mpr ⟨t, ht, hn⟩)]
  exact h.extent t ht n hn

theorem bounds (h : Layout capacity order extent T) {n : Node} (hn : n ∈ order) :
    0 < (extent n).2 ∧ (extent n).1 + (extent n).2 ≤ capacity ∧ 512 ∣ (extent n).2 := by
  obtain ⟨A, B, rfl, -⟩ := h.split hn
  have hmem : (⟨some n, (extent n).1, (extent n).2⟩ : Tile) ∈ A ++ [⟨some n, (extent n).1, (extent n).2⟩] ++ B := by simp
  exact ⟨(h.tiles.bounds hmem).2.1, (h.tiles.bounds hmem).2.2, h.aligned _ hmem⟩

end Layout

section Extent

variable {s : Space} {n : Node}

theorem extent_setFblock_of_ne {f : Nat} {b : FreeBlock} (h : n ≠ .fblock f) :
    (s.setFblock f b).extent n = s.extent n ∧ (s.setFblock f b).nodeIndex n = s.nodeIndex n := by
  cases n with
  | item a => exact ⟨rfl, rfl⟩
  | fblock g =>
    have hne : g ≠ f := fun he => h (he ▸ rfl)
    simp [Space.extent, Space.nodeIndex, Space.setFblock, hne]

theorem extent_setItem_of_ne {a : Nat} {x : Item} (h : n ≠ .item a) :
    (s.setItem a x).extent n = s.extent n ∧ (s.setItem a x).nodeIndex n = s.nodeIndex n := by
  cases n with
  | fblock f => exact ⟨rfl, rfl⟩
  | item b =>
    have hne : b ≠ a := fun he => h (he ▸ rfl)
    simp [Space.extent, Space.nodeIndex, Space.setItem, hne]

end Extent

/-! ## Tidy devices -/

/-- How much of a layout has a tag of some kind. -/
def sizeOf (p : Option Node → Bool) (T : List Tile) : Nat := (T.map fun t => if p t.tag then t.size else 0).sum

theorem sizeOf_append (p : Option Node → Bool) (A B : List Tile) : sizeOf p (A ++ B) = sizeOf p A + sizeOf p B := by
  simp [sizeOf]

theorem sizeOf_cons (p : Option Node → Bool) (t : Tile) (A : List Tile) :
    sizeOf p (t :: A) = (if p t.tag then t.size else 0) + sizeOf p A := by
  simp [sizeOf]

/-- The tag of an item. -/
def itemTag : Option Node → Bool
  | some (.item _) => true
  | _ => false

/-- Only bad blocks are lost, neighbours are merged, and the counters of the
device say how much is taken. -/
structure Tidy (device : Device) (retired : List (Nat × Nat)) (T : List Tile) : Prop where
  coalesced : Coalesced IsFree T
  retired : ∀ x, x ∈ retired ↔ ∃ t ∈ T, t.tag = none ∧ (t.offset, t.size) = x
  badblock : device.badblock = sizeOf Option.isNone T
  consumed : device.consumed = sizeOf itemTag T + sizeOf Option.isNone T

/-- Pieces that are no holes are replaced; the counters follow. -/
theorem Tidy.splice {device device' : Device} {retired retired' : List (Nat × Nat)} {A M M' B : List Tile}
    (h : Tidy device retired (A ++ M ++ B)) (hc : Coalesced IsFree (A ++ M' ++ B)) (hM : ∀ t ∈ M, t.tag ≠ none)
    (hret : ∀ x, x ∈ retired' ↔ x ∈ retired ∨ ∃ t ∈ M', t.tag = none ∧ (t.offset, t.size) = x)
    (hbad : device'.badblock = device.badblock + sizeOf Option.isNone M')
    (hcons : device'.consumed + sizeOf itemTag M = device.consumed + sizeOf itemTag M' + sizeOf Option.isNone M') :
    Tidy device' retired' (A ++ M' ++ B) := by
  have hzero : sizeOf Option.isNone M = 0 := by
    refine List.sum_eq_zero fun x hx => ?_
    obtain ⟨t, ht, rfl⟩ := List.mem_map.mp hx
    exact if_neg (by simp [Option.isNone_iff_eq_none, hM t ht])
  have h1 := h.badblock
  have h2 := h.consumed
  simp only [sizeOf_append] at h1 h2
  refine ⟨hc, fun x => ?_, ?_, ?_⟩
  · rw [hret, h.retired]
    constructor
    · rintro (⟨t, ht, hn, hx⟩ | ⟨t, ht, hn, hx⟩)
      · refine ⟨t, ?_, hn, hx⟩
        simp only [List.mem_append] at ht ⊢
        rcases ht with (ht | ht) | ht
        · exact .inl (.inl ht)
        · exact absurd hn (hM t ht)
        · exact .inr ht
      · exact ⟨t, by simp [ht], hn, hx⟩
    · rintro ⟨t, ht, hn, hx⟩
      simp only [List.mem_append] at ht
      rcases ht with (ht | ht) | ht
      · exact .inl ⟨t, by simp [ht], hn, hx⟩
      · exact .inr ⟨t, ht, hn, hx⟩
      · exact .inl ⟨t, by simp [ht], hn, hx⟩
  · simp only [sizeOf_append]
    omega
  · simp only [sizeOf_append]
    omega

/-! ## The invariant -/

namespace Space

/-- The nodes that are allocated and linked. -/
def nodes (s : Space) : List Node := s.fblocks.map .fblock ++ s.items.map .item

theorem mem_nodes_fblock {s : Space} {f : Nat} : Node.fblock f ∈ s.nodes ↔ f ∈ s.fblocks := by simp [nodes]

theorem mem_nodes_item {s : Space} {a : Nat} : Node.item a ∈ s.nodes ↔ a ∈ s.items := by simp [nodes]

/-- The device objects there are. -/
def allDevices (s : Space) : List Nat := s.devices ++ s.deletedDevices

end Space

/-- `sendfile` goes no further, so no device does. -/
def capacityLimit : Nat := 0x4020010000

/-- The lists of devices, and the indices by which nodes find them. -/
structure DevInv (s : Space) : Prop where
  nodup : s.allDevices.Nodup
  active : ∀ d ∈ s.devices, (s.device d).deleted = false
  gone : ∀ d ∈ s.deletedDevices, (s.device d).deleted = true ∧ (s.device d).kicked = false
  index : ∀ d ∈ s.allDevices, (s.device d).kicked = false →
    (s.device d).index = -1 ∨ s.deviceIndexs.get (s.device d).index = some d
  capacity : ∀ d ∈ s.allDevices, (s.device d).capacity ≤ capacityLimit

/-- The free blocks `live` are queued, each by its current size. -/
structure QueueInv (s : Space) (live : List Nat) : Prop where
  owned : Owned s.queue live
  size : ∀ i, ∀ f ∈ s.queue i, (ipbucketIndex (s.fblock f).blockSize false).toNat = i

/-- The order lists. `strict` says that memory for free blocks never runs out. -/
structure OrderInv (strict : Prop) (s : Space) : Prop where
  owned : Owned s.order s.nodes
  unlisted : ∀ d, d ∉ s.allDevices → s.order d = []
  kicked : ∀ d ∈ s.allDevices, (s.device d).kicked = true → s.order d = []
  nodeIndex : ∀ d, ∀ n ∈ s.order d, s.nodeIndex n = (s.device d).index
  length : ∀ a ∈ s.items, (s.item a).length < 2 ^ 32
  layout : ∀ d ∈ s.allDevices, (s.device d).kicked = false → ∃ T, Layout (s.device d).capacity (s.order d) s.extent T ∧
    (strict → (s.device d).deleted = false → Tidy (s.device d) (s.retired d) T)

/-- What holds of the state of `device.c` between its calls. -/
structure SpaceInv (strict : Prop) (s : Space) : Prop where
  dev : DevInv s
  queue : QueueInv s s.fblocks
  order : OrderInv strict s

namespace OrderInv

variable {strict : Prop} {s : Space}

theorem mem_allDevices (h : OrderInv strict s) {d : Nat} {n : Node} (hn : n ∈ s.order d) : d ∈ s.allDevices := by
  by_contra hd
  rw [h.unlisted d hd] at hn
  cases hn

theorem not_kicked (h : OrderInv strict s) {d : Nat} {n : Node} (hn : n ∈ s.order d) : (s.device d).kicked = false := by
  by_contra hk
  rw [h.kicked d (h.mem_allDevices hn) (by simpa using hk)] at hn
  cases hn

/-- The index of a node leads to the device that has it. -/
theorem device_eq (h : OrderInv strict s) (hd : DevInv s) {d e : Nat} {n : Node} (hn : n ∈ s.order d)
    (he : s.deviceIndexs.get (s.nodeIndex n) = some e) : e = d := by
  rw [h.nodeIndex d n hn] at he
  rcases hd.index d (h.mem_allDevices hn) (h.not_kicked hn) with hi | hi
  · rw [hi, IdxPointer.get_neg_one] at he
    cases he
  · exact Option.some.inj (he.symm.trans hi)

theorem fblock_mem (h : OrderInv strict s) (hd : DevInv s) {d f : Nat} (hf : f ∈ s.fblocks)
    (he : s.deviceOfFblock f = some d) : .fblock f ∈ s.order d := by
  obtain ⟨e, hn⟩ := (h.owned.covers (.fblock f)).mp (Space.mem_nodes_fblock.mpr hf)
  rw [h.device_eq hd hn he]
  exact hn

theorem item_mem (h : OrderInv strict s) (hd : DevInv s) {d a : Nat} (ha : a ∈ s.items)
    (he : s.deviceOfItem a = some d) : .item a ∈ s.order d := by
  obtain ⟨e, hn⟩ := (h.owned.covers (.item a)).mp (Space.mem_nodes_item.mpr ha)
  rw [h.device_eq hd hn he]
  exact hn

/-- One device's list changes; the rest of the state stays, as far as the
other lists can see. -/
theorem change {s' : Space} {d : Nat} (h : OrderInv strict s) (hd : d ∈ s.allDevices)
    (hall : s'.allDevices = s.allDevices)
    (hdev : ∀ x, (s'.device x).index = (s.device x).index ∧ (s'.device x).capacity = (s.device x).capacity ∧
      (s'.device x).kicked = (s.device x).kicked)
    (hother : ∀ x, x ≠ d → s'.device x = s.device x ∧ s'.retired x = s.retired x ∧ s'.order x = s.order x)
    (hnode : ∀ n ∈ s.nodes, n ∉ s.order d → s'.extent n = s.extent n ∧ s'.nodeIndex n = s.nodeIndex n)
    (howned : Owned s'.order s'.nodes) (hkick : (s.device d).kicked = false)
    (hindex : ∀ n ∈ s'.order d, s'.nodeIndex n = (s.device d).index)
    (hlength : ∀ a ∈ s'.items, (s'.item a).length < 2 ^ 32)
    (hlayout : ∃ T, Layout (s.device d).capacity (s'.order d) s'.extent T ∧
      (strict → (s'.device d).deleted = false → Tidy (s'.device d) (s'.retired d) T)) :
    OrderInv strict s' := by
  -- A node of another list is live and not in this one.
  have hframe : ∀ x, x ≠ d → ∀ n ∈ s.order x, s'.extent n = s.extent n ∧ s'.nodeIndex n = s.nodeIndex n := by
    intro x hx n hn
    exact hnode n ((h.owned.covers n).mpr ⟨x, hn⟩) fun hnd => hx (h.owned.unique hn hnd)
  refine ⟨howned, fun x hx => ?_, fun x hx hk => ?_, fun x n hn => ?_, hlength, fun x hx hk => ?_⟩
  · rw [hall] at hx
    rw [(hother x (fun he => hx (he ▸ hd))).2.2, h.unlisted x hx]
  · rw [(hdev x).2.2] at hk
    by_cases hxd : x = d
    · subst hxd
      rw [hkick] at hk
      cases hk
    · rw [(hother x hxd).2.2]
      exact h.kicked x (hall ▸ hx) hk
  · rw [(hdev x).1]
    by_cases hxd : x = d
    · subst hxd
      exact hindex n hn
    · rw [(hother x hxd).2.2] at hn
      rw [(hframe x hxd n hn).2]
      exact h.nodeIndex x n hn
  · by_cases hxd : x = d
    · subst hxd
      obtain ⟨T, hT, htidy⟩ := hlayout
      rw [(hdev x).2.1]
      exact ⟨T, hT, htidy⟩
    · obtain ⟨hd1, hd2, hd3⟩ := hother x hxd
      rw [hd1] at hk
      obtain ⟨T, hT, htidy⟩ := h.layout x (hall ▸ hx) hk
      rw [hd1, hd2, hd3]
      exact ⟨T, hT.congr fun n hn => (hframe x hxd n hn).1, htidy⟩

end OrderInv

end OliveHc
