/-
Blocks that are given back: merged with their free neighbours, or lost.
-/
import OliveHc.Device.Lists

namespace OliveHc

variable {strict : Prop}

/-! ## The neighbours of an item -/

section Neighbours

variable {capacity : Nat} {order : List Node} {s : Space} {A B : List Tile} {a : Nat}

/-- A free block before an item, in the list and on the device. -/
theorem fblockAt_prev {p : Nat} {M : Tile}
    (hT : Layout capacity order s.extent (A ++ [M] ++ B)) (ha : .item a ∉ A.filterMap Seg.tag)
    (horder : order = A.filterMap Seg.tag ++ .item a :: B.filterMap Seg.tag)
    (h : s.fblockAt (listPrev (.item a) order) (fun b => b.offset + b.blockSize = M.offset) = some p) :
    ∃ A', A = A' ++ [⟨some (.fblock p), (s.fblock p).offset, (s.fblock p).blockSize⟩] := by
  rw [horder, listPrev_append ha, List.getLast?_filterMap] at h
  unfold Space.fblockAt at h
  split at h
  case h_2 => cases h
  next f hf =>
  split at h
  case isFalse => cases h
  next hstop =>
  cases h
  obtain ⟨l₁, t, l₂, hl, ht, hnone⟩ := List.findSome?_eq_some_iff.mp hf
  have hA : A = l₂.reverse ++ t :: l₁.reverse := by
    rw [← List.reverse_reverse A, hl]
    simp
  have he := hT.extent t (by rw [hA]; simp) _ ht
  simp only [Space.extent, Prod.mk.injEq] at he
  -- Nothing is between the block and the item.
  have hl₁ : l₁.reverse = [] := by
    have htiles := hT.tiles
    rw [hA, List.append_assoc, List.append_assoc] at htiles
    obtain ⟨x, -, h2⟩ := tiles_append.mp htiles
    obtain ⟨-, -, h3⟩ := h2
    obtain ⟨y, h4, h5, -⟩ := tiles_append.mp h3
    cases hr : l₁.reverse with
    | nil => rfl
    | cons u l =>
      rw [hr] at h4
      have h6 := h4.2.2.le
      have h7 := h4.1
      have h8 := h4.2.1
      simp only [Seg.stop] at *
      omega
  refine ⟨l₂.reverse, ?_⟩
  rw [hA, hl₁, he.1, he.2, ← ht]

theorem fblockAt_prev_none {M : Tile} (hT : Layout capacity order s.extent (A ++ [M] ++ B))
    (ha : .item a ∉ A.filterMap Seg.tag) (horder : order = A.filterMap Seg.tag ++ .item a :: B.filterMap Seg.tag)
    (h : s.fblockAt (listPrev (.item a) order) (fun b => b.offset + b.blockSize = M.offset) = none) :
    ∀ t ∈ A.getLast?, ¬IsFree t.tag := by
  rintro t ht ⟨f, hf⟩
  obtain ⟨A', rfl⟩ : ∃ A', A = A' ++ [t] := ⟨_, (List.dropLast_append_getLast? t ht).symm⟩
  have he := hT.extent t (by simp) _ hf
  simp only [Space.extent, Prod.mk.injEq] at he
  rw [horder, listPrev_append ha, List.filterMap_append, List.filterMap_cons_some hf, List.filterMap_nil,
    List.getLast?_concat] at h
  simp only [Space.fblockAt, he] at h
  have htiles := hT.tiles
  rw [List.append_assoc, List.append_assoc] at htiles
  obtain ⟨x, -, h2⟩ := tiles_append.mp htiles
  have hoff : M.offset = t.offset + t.size := h2.2.2.1
  rw [if_pos hoff.symm] at h
  cases h

/-- A free block behind an item. -/
theorem fblockAt_next {n : Nat} {M : Tile} (hT : Layout capacity order s.extent (A ++ [M] ++ B))
    (ha : .item a ∉ A.filterMap Seg.tag) (horder : order = A.filterMap Seg.tag ++ .item a :: B.filterMap Seg.tag)
    (h : s.fblockAt (listNext (.item a) order) (fun b => b.offset = M.offset + M.size) = some n) :
    ∃ B', B = ⟨some (.fblock n), (s.fblock n).offset, (s.fblock n).blockSize⟩ :: B' := by
  rw [horder, listNext_append ha, List.head?_filterMap] at h
  unfold Space.fblockAt at h
  split at h
  case h_2 => cases h
  next f hf =>
  split at h
  case isFalse => cases h
  next hstart =>
  cases h
  obtain ⟨l₁, t, l₂, rfl, ht, hnone⟩ := List.findSome?_eq_some_iff.mp hf
  have he := hT.extent t (by simp) _ ht
  simp only [Space.extent, Prod.mk.injEq] at he
  have hl₁ : l₁ = [] := by
    have htiles := hT.tiles
    rw [List.append_assoc] at htiles
    obtain ⟨x, -, -, -, h3⟩ := tiles_append.mp htiles
    have h3 : Tiles M.stop capacity (l₁ ++ t :: l₂) := h3
    obtain ⟨y, h4, h5, -⟩ := tiles_append.mp h3
    cases l₁ with
    | nil => rfl
    | cons u l =>
      have h6 := h4.2.2.le
      have h7 := h4.1
      have h8 := h4.2.1
      simp only [Seg.stop] at *
      omega
  subst hl₁
  refine ⟨l₂, ?_⟩
  rw [he.1, he.2, ← ht]
  rfl

theorem fblockAt_next_none {M : Tile} (hT : Layout capacity order s.extent (A ++ [M] ++ B))
    (ha : .item a ∉ A.filterMap Seg.tag) (horder : order = A.filterMap Seg.tag ++ .item a :: B.filterMap Seg.tag)
    (h : s.fblockAt (listNext (.item a) order) (fun b => b.offset = M.offset + M.size) = none) :
    ∀ t ∈ B.head?, ¬IsFree t.tag := by
  rintro t ht ⟨f, hf⟩
  obtain ⟨B', rfl⟩ : ∃ B', B = t :: B' := by
    cases B with
    | nil => cases ht
    | cons u B' => exact ⟨B', by simpa using ht⟩
  have he := hT.extent t (by simp) _ hf
  simp only [Space.extent, Prod.mk.injEq] at he
  rw [horder, listNext_append ha, List.filterMap_cons_some hf, List.head?_cons] at h
  simp only [Space.fblockAt, he] at h
  have htiles := hT.tiles
  rw [List.append_assoc] at htiles
  obtain ⟨x, -, -, -, h3⟩ := tiles_append.mp htiles
  have hoff : t.offset = M.offset + M.size := h3.1
  rw [if_pos hoff] at h
  cases h

end Neighbours

/-! ## Blocks that are lost -/

section Drop

variable {s s' : Space} {d : Nat}

/-- A node leaves its list and its block becomes a hole. -/
theorem OrderInv.drop {n : Node} (h : OrderInv strict s) (hdev : DevInv s) (hn : n ∈ s.order d)
    (hsame : SameDevices s s') (hother : ∀ x, x ≠ d → s'.device x = s.device x ∧ s'.retired x = s.retired x)
    (hord : s'.order = Function.update s.order d ((s.order d).erase n))
    (hnodes : ∀ m, m ∈ s'.nodes ↔ m ∈ s.nodes ∧ m ≠ n)
    (hkeep : ∀ m, s'.extent m = s.extent m ∧ s'.nodeIndex m = s.nodeIndex m)
    (hlength : ∀ a ∈ s'.items, (s'.item a).length < 2 ^ 32)
    (htidy : strict → (s'.device d).deleted = false → ∀ A B,
      Tidy (s.device d) (s.retired d) (A ++ [⟨some n, (s.extent n).1, (s.extent n).2⟩] ++ B) →
      Tidy (s'.device d) (s'.retired d) (A ++ [⟨none, (s.extent n).1, (s.extent n).2⟩] ++ B)) :
    OrderInv strict s' := by
  obtain ⟨A, B, hT, htidy₀, horder, hnA, -⟩ := h.split hdev hn
  refine h.splice (N := [⟨none, (s.extent n).1, (s.extent n).2⟩]) (h.mem_allDevices hn) (h.not_kicked hn) hT hsame hother
    ?_ (fun h => h) ?_ (by simp) (by simp) ?_ (fun m _ _ => hkeep m) hlength ?_
  · rw [hord, horder, erase_append hnA]
    simp
  · simp [(hT.bounds hn).2.2]
  · intro m
    simp [hnodes]
  · intro hs hdel
    have hdel' : (s.device d).deleted = false := by
      obtain ⟨c, b, hx⟩ := hsame.device d
      rwa [hx] at hdel
    exact htidy hs hdel A B (htidy₀ hs hdel')

/-- A free block of a deleted device is dropped. -/
theorem dropFblock_inv {f : Nat} {live : List Nat} (hdev : DevInv s) (hord : OrderInv strict s) (hq : QueueInv s live)
    (hl : ∀ r, r ≠ f → (r ∈ live ↔ r ∈ s.fblocks)) (hf : .fblock f ∈ s.order d) (hd : (s.device d).deleted = true)
    (h : s.deviceFblockDelete f = some s') : SpaceInv strict s' := by
  refine ⟨(deviceFblockDelete_same h).dev hdev, deviceFblockDelete_queue h hq hl, ?_⟩
  have hsame := deviceFblockDelete_same h
  obtain ⟨e, he, rfl⟩ := Option.map_eq_some_iff.mp h
  obtain rfl : e = d := hord.device_eq hdev hf he
  refine hord.drop hdev hf hsame (fun x _ => ⟨rfl, rfl⟩) rfl (fun m => ?_) (fun m => ?_) hord.length fun _ hdel => ?_
  · cases m <;> simp [Space.nodes, Space.setOrder, Space.ipbucketDel]
  · cases m <;> exact ⟨rfl, rfl⟩
  · exact absurd (hd.symm.trans hdel) (by simp)

/-- An item leaves its list: its device is deleted, or its block is bad. -/
theorem dropItem_inv {a : Nat} {x : Device} {R : List (Nat × Nat)} (h : SpaceInv strict s) (ha : .item a ∈ s.order d)
    (hx : ∃ c b, x = { s.device d with consumed := c, badblock := b })
    (htidy : strict → x.deleted = false → ∀ A B,
      Tidy (s.device d) (s.retired d) (A ++ [⟨some (.item a), (s.extent (.item a)).1, (s.extent (.item a)).2⟩] ++ B) →
      Tidy x R (A ++ [⟨none, (s.extent (.item a)).1, (s.extent (.item a)).2⟩] ++ B)) :
    SpaceInv strict (({ s.setDevice d x with retired := Function.update s.retired d R }.setOrder d
      ((s.order d).erase (.item a))).itemFree a) := by
  have hsame : SameDevices s (({ s.setDevice d x with retired := Function.update s.retired d R }.setOrder d
      ((s.order d).erase (.item a))).itemFree a) := by
    refine ⟨rfl, rfl, rfl, rfl, fun y => ?_⟩
    obtain ⟨c, b, rfl⟩ := hx
    by_cases hy : y = d
    · subst hy
      exact ⟨_, _, Function.update_self ..⟩
    · exact ⟨_, _, Function.update_of_ne hy ..⟩
  refine ⟨hsame.dev h.dev, ⟨h.queue.owned, h.queue.size⟩, ?_⟩
  refine h.order.drop h.dev ha hsame (fun y hy => ⟨Function.update_of_ne hy .., Function.update_of_ne hy ..⟩) rfl
    (fun m => ?_) (fun m => ?_) (fun b hb => ?_) fun hs hdel A B hT => ?_
  · cases m <;> simp [Space.nodes, Space.setOrder, Space.setDevice, Space.itemFree]
  · cases m <;> exact ⟨rfl, rfl⟩
  · exact h.order.length b (List.mem_filter.mp hb).1
  · simp only [Space.itemFree, Space.setOrder, Space.setDevice, Function.update_self] at hdel ⊢
    exact htidy hs hdel A B hT

end Drop

/-! ## Blocks that are merged -/

section Merge

variable {s s' : Space} {a d g o z : Nat} {A M B : List Tile}

/-- An item and the free blocks next to it become the free block `g`. -/
theorem OrderInv.merge (h : OrderInv strict s) (ha : .item a ∈ s.order d)
    (hT : Layout (s.device d).capacity (s.order d) s.extent (A ++ M ++ B))
    (hsame : SameDevices s s')
    (hdevice : s'.device = Function.update s.device d
      { s.device d with consumed := (s.device d).consumed - ipbucketBlockSize (s.item a).length })
    (hretired : s'.retired = s.retired)
    (hord : s'.order = Function.update s.order d (A.filterMap Seg.tag ++ .fblock g :: B.filterMap Seg.tag))
    (hfblock : s'.fblock = Function.update s.fblock g ⟨(s.device d).index, o, z⟩)
    (hitem : s'.item = s.item) (hitems : ∀ x, x ∈ s'.items ↔ x ∈ s.items ∧ x ≠ a)
    (hfblocks : ∀ x, x ∈ s'.fblocks ↔ x = g ∨ x ∈ s.fblocks ∧ Node.fblock x ∉ M.filterMap Seg.tag)
    (hM : ∀ {x y}, Tiles x y M → Tiles x y ([⟨some (.fblock g), o, z⟩] : List Tile)) (hsz : 512 ∣ z)
    (hMtag : ∀ t ∈ M, t.tag ≠ none) (hMitem : ∀ x, Node.item x ∈ M.filterMap Seg.tag ↔ x = a)
    (hMsize : sizeOf itemTag M = ipbucketBlockSize (s.item a).length)
    (hg : Node.fblock g ∈ M.filterMap Seg.tag ∨ g ∉ s.fblocks)
    (htidy : strict → Tidy (s.device d) (s.retired d) (A ++ M ++ B) ∧ (∀ t ∈ A.getLast?, ¬IsFree t.tag) ∧
      ∀ t ∈ B.head?, ¬IsFree t.tag) :
    OrderInv strict s' := by
  have hext : ∀ n, n ≠ .fblock g → s'.extent n = s.extent n ∧ s'.nodeIndex n = s.nodeIndex n := by
    intro n hn
    cases n with
    | item x => simp only [Space.extent, Space.nodeIndex, hitem, and_self]
    | fblock x =>
      have hne : x ≠ g := fun he => hn (he ▸ rfl)
      simp only [Space.extent, Space.nodeIndex, hfblock, Function.update_of_ne hne, and_self]
  refine h.splice (N := [⟨some (.fblock g), o, z⟩]) (h.mem_allDevices ha) (h.not_kicked ha) hT hsame
    (fun x hx => ⟨by rw [hdevice, Function.update_of_ne hx], by rw [hretired]⟩) (by rw [hord]; simp) hM ?_ ?_ (by simp)
    ?_ ?_ ?_ ?_
  · simp only [List.mem_cons, List.not_mem_nil, or_false, forall_eq]
    refine ⟨hsz, fun n hn => ?_⟩
    cases hn
    simp only [Space.extent, Space.nodeIndex, hfblock, Function.update_self, and_self]
  · simpa [Space.mem_nodes_fblock] using hg
  · intro n
    cases n with
    | item x => simp [Space.mem_nodes_item, hitems, hMitem]
    | fblock x => simp [Space.mem_nodes_fblock, hfblocks]
  · intro n hn hnM
    refine hext n fun he => ?_
    subst he
    exact hg.elim hnM fun hnot => hnot (Space.mem_nodes_fblock.mp hn)
  · intro x hx
    rw [hitem]
    exact h.length x ((hitems x).mp hx).1
  · intro hs _
    obtain ⟨ht, hl, hr⟩ := htidy hs
    have hcons := ht.consumed
    simp only [sizeOf_append, hMsize] at hcons
    refine ht.splice (ht.coalesced.replace (fun _ => hl) fun _ => hr) hMtag (by simp [hretired]) ?_ ?_
    · simp [hdevice, sizeOf]
    · have hzero : sizeOf itemTag [⟨some (.fblock g), o, z⟩] = 0 ∧
          sizeOf Option.isNone [⟨some (.fblock g), o, z⟩] = 0 := by simp [sizeOf, itemTag]
      rw [hdevice, Function.update_self, hzero.1, hzero.2, hMsize]
      simp only
      omega

/-- The last steps of `device_return_free_block`, and the `slab_free` of the item. -/
def Space.giveUp (a d : Nat) (s : Space) : Space :=
  ((s.setDevice d { s.device d with consumed := (s.device d).consumed - ipbucketBlockSize (s.item a).length }).setOrder d
    ((s.order d).erase (.item a))).itemFree a

theorem giveUp_same (a d : Nat) (s : Space) : SameDevices s (s.giveUp a d) := by
  refine ⟨rfl, rfl, rfl, rfl, fun x => ?_⟩
  by_cases hx : x = d
  · subst hx
    exact ⟨_, _, Function.update_self ..⟩
  · exact ⟨_, _, Function.update_of_ne hx ..⟩

theorem mem_giveUp_items {x : Nat} : x ∈ (s.giveUp a d).items ↔ x ∈ s.items ∧ x ≠ a := by
  simp [Space.giveUp, Space.itemFree, Space.setOrder, Space.setDevice]

theorem erase_middle {n : Node} {x y : List Node} (h : (x ++ n :: y).Nodup) : (x ++ n :: y).erase n = x ++ y :=
  erase_append fun hn => (List.nodup_append.mp h).2.2 n hn n (by simp) rfl

/-- The free block before the item grows over it. -/
theorem mergePrev_inv {p : Nat} (h : SpaceInv strict s) (ha : .item a ∈ s.order d)
    (hT : Layout (s.device d).capacity (s.order d) s.extent (A ++ [s.tile (.fblock p), s.tile (.item a)] ++ B))
    (htidy : strict → Tidy (s.device d) (s.retired d) (A ++ [s.tile (.fblock p), s.tile (.item a)] ++ B) ∧
      ∀ t ∈ B.head?, ¬IsFree t.tag) :
    SpaceInv strict (((s.setFblock p { s.fblock p with
      blockSize := (s.fblock p).blockSize + ipbucketBlockSize (s.item a).length }).ipbucketUpdate p).giveUp a d) := by
  have hp : .fblock p ∈ s.order d := by
    rw [← hT.order]
    simp
  have hpf : p ∈ s.fblocks := Space.mem_nodes_fblock.mp ((h.order.owned.covers _).mpr ⟨d, hp⟩)
  have hsame : SameDevices s _ := ((setFblock_same p { s.fblock p with
      blockSize := (s.fblock p).blockSize + ipbucketBlockSize (s.item a).length } s).trans
    ((ipbucketDel_same p _).trans (ipbucketAdd_same p _))).trans (giveUp_same a d _)
  have hq := h.queue.update hpf { s.fblock p with blockSize := (s.fblock p).blockSize + ipbucketBlockSize (s.item a).length }
  have hidx : (s.fblock p).deviceIndex = (s.device d).index := h.order.nodeIndex d _ hp
  have horder : s.order d = (A.filterMap Seg.tag ++ [.fblock p]) ++ .item a :: B.filterMap Seg.tag := by
    rw [← hT.order]
    simp
  have hnd := h.order.owned.nodup d
  refine ⟨hsame.dev h.dev, ⟨hq.owned, hq.size⟩, ?_⟩
  refine h.order.merge (g := p) (o := (s.fblock p).offset) (z := (s.fblock p).blockSize + ipbucketBlockSize (s.item a).length)
    ha hT hsame rfl rfl ?_ (hidx ▸ rfl) rfl ?_ ?_ ?_ (Nat.dvd_add (hT.bounds hp).2.2 (hT.bounds ha).2.2) (by simp)
    (by simp [eq_comm]) (by simp [sizeOf, itemTag, Space.extent]) (by simp) fun hs => ?_
  · show Function.update s.order d ((s.order d).erase (.item a)) = _
    rw [horder] at hnd ⊢
    rw [erase_middle hnd, List.append_assoc, List.singleton_append]
  · intro x
    exact mem_giveUp_items
  · intro x
    show x ∈ s.fblocks ↔ _
    by_cases hx : x = p
    · simp [hx, hpf]
    · simp [hx]
  · intro x y ht
    simp only [Tiles, Seg.stop, Space.extent] at ht ⊢
    omega
  · obtain ⟨ht, hr⟩ := htidy hs
    exact ⟨ht, ht.coalesced.not_free_last ⟨p, rfl⟩, hr⟩

/-- The free block behind the item grows over it. -/
theorem mergeNext_inv {n : Nat} (h : SpaceInv strict s) (ha : .item a ∈ s.order d)
    (hT : Layout (s.device d).capacity (s.order d) s.extent (A ++ [s.tile (.item a), s.tile (.fblock n)] ++ B))
    (htidy : strict → Tidy (s.device d) (s.retired d) (A ++ [s.tile (.item a), s.tile (.fblock n)] ++ B) ∧
      ∀ t ∈ A.getLast?, ¬IsFree t.tag) :
    SpaceInv strict (((s.setFblock n { s.fblock n with
      offset := (s.fblock n).offset - ipbucketBlockSize (s.item a).length
      blockSize := (s.fblock n).blockSize + ipbucketBlockSize (s.item a).length }).ipbucketUpdate n).giveUp a d) := by
  have hn : .fblock n ∈ s.order d := by
    rw [← hT.order]
    simp
  have hnf : n ∈ s.fblocks := Space.mem_nodes_fblock.mp ((h.order.owned.covers _).mpr ⟨d, hn⟩)
  have hsame : SameDevices s _ := ((setFblock_same n { s.fblock n with
      offset := (s.fblock n).offset - ipbucketBlockSize (s.item a).length
      blockSize := (s.fblock n).blockSize + ipbucketBlockSize (s.item a).length } s).trans
    ((ipbucketDel_same n _).trans (ipbucketAdd_same n _))).trans (giveUp_same a d _)
  have hq := h.queue.update hnf { s.fblock n with
    offset := (s.fblock n).offset - ipbucketBlockSize (s.item a).length
    blockSize := (s.fblock n).blockSize + ipbucketBlockSize (s.item a).length }
  have hidx : (s.fblock n).deviceIndex = (s.device d).index := h.order.nodeIndex d _ hn
  have horder : s.order d = A.filterMap Seg.tag ++ .item a :: .fblock n :: B.filterMap Seg.tag := by
    rw [← hT.order]
    simp
  have hnd := h.order.owned.nodup d
  refine ⟨hsame.dev h.dev, ⟨hq.owned, hq.size⟩, ?_⟩
  refine h.order.merge (g := n) (o := (s.fblock n).offset - ipbucketBlockSize (s.item a).length)
    (z := (s.fblock n).blockSize + ipbucketBlockSize (s.item a).length)
    ha hT hsame rfl rfl ?_ (hidx ▸ rfl) rfl ?_ ?_ ?_ (Nat.dvd_add (hT.bounds hn).2.2 (hT.bounds ha).2.2) (by simp)
    (by simp [eq_comm]) (by simp [sizeOf, itemTag, Space.extent]) (by simp) fun hs => ?_
  · show Function.update s.order d ((s.order d).erase (.item a)) = _
    rw [horder] at hnd ⊢
    rw [erase_middle hnd]
  · intro x
    exact mem_giveUp_items
  · intro x
    show x ∈ s.fblocks ↔ _
    by_cases hx : x = n
    · simp [hx, hnf]
    · simp [hx]
  · intro x y ht
    simp only [Tiles, Seg.stop, Space.extent] at ht ⊢
    omega
  · obtain ⟨ht, hl⟩ := htidy hs
    exact ⟨ht, hl, ht.coalesced.not_free_head (m := [_]) ⟨n, rfl⟩⟩

/-- The free block before the item grows over it and over the one behind it. -/
theorem mergeBoth_inv {p n : Nat} {s₁ : Space} (h : SpaceInv strict s) (ha : .item a ∈ s.order d)
    (hT : Layout (s.device d).capacity (s.order d) s.extent
      (A ++ [s.tile (.fblock p), s.tile (.item a), s.tile (.fblock n)] ++ B))
    (htidy : strict → Tidy (s.device d) (s.retired d)
      (A ++ [s.tile (.fblock p), s.tile (.item a), s.tile (.fblock n)] ++ B))
    (hdel : ((s.setFblock p { s.fblock p with
      blockSize := (s.fblock p).blockSize + (ipbucketBlockSize (s.item a).length + (s.fblock n).blockSize) }).ipbucketUpdate
        p).deviceFblockDelete n = some s₁) : SpaceInv strict (s₁.giveUp a d) := by
  have hp : .fblock p ∈ s.order d := by
    rw [← hT.order]
    simp
  have hn : .fblock n ∈ s.order d := by
    rw [← hT.order]
    simp
  have hpf : p ∈ s.fblocks := Space.mem_nodes_fblock.mp ((h.order.owned.covers _).mpr ⟨d, hp⟩)
  have horder : s.order d = (A.filterMap Seg.tag ++ [.fblock p, .item a]) ++ .fblock n :: B.filterMap Seg.tag := by
    rw [← hT.order]
    simp
  have hnd := h.order.owned.nodup d
  have hpn : p ≠ n := by
    rintro rfl
    rw [horder] at hnd
    exact (List.nodup_append.mp hnd).2.2 (.fblock p) (by simp) (.fblock p) (by simp) rfl
  have hsame := ((setFblock_same p { s.fblock p with
      blockSize := (s.fblock p).blockSize + (ipbucketBlockSize (s.item a).length + (s.fblock n).blockSize) } s).trans
    ((ipbucketDel_same p _).trans (ipbucketAdd_same p _))).trans ((deviceFblockDelete_same hdel).trans (giveUp_same a d _))
  have hq := deviceFblockDelete_queue hdel (h.queue.update hpf _) fun r _ => Iff.rfl
  have hidx : (s.fblock p).deviceIndex = (s.device d).index := h.order.nodeIndex d _ hp
  refine ⟨hsame.dev h.dev, ⟨hq.owned, hq.size⟩, ?_⟩
  obtain ⟨e, he, rfl⟩ := Option.map_eq_some_iff.mp hdel
  obtain rfl : e = d := by
    refine h.order.device_eq h.dev hn ?_
    simpa [Space.nodeIndex, Space.deviceOfFblock, Space.setFblock, Space.ipbucketUpdate, Space.ipbucketAdd, Space.ipbucketDel,
      Function.update_of_ne hpn.symm] using he
  refine h.order.merge (g := p) (o := (s.fblock p).offset)
    (z := (s.fblock p).blockSize + (ipbucketBlockSize (s.item a).length + (s.fblock n).blockSize))
    ha hT hsame rfl rfl ?_ (hidx ▸ rfl) rfl ?_ ?_ ?_
    (Nat.dvd_add (hT.bounds hp).2.2 (Nat.dvd_add (hT.bounds ha).2.2 (hT.bounds hn).2.2)) (by simp)
    (by simp [eq_comm]) (by simp [sizeOf, itemTag, Space.extent]) (by simp) fun hs => ?_
  · show Function.update (Function.update s.order e ((s.order e).erase (.fblock n))) e
      ((Function.update s.order e ((s.order e).erase (.fblock n)) e).erase (.item a)) = _
    rw [Function.update_idem, Function.update_self]
    rw [horder] at hnd ⊢
    rw [erase_middle hnd]
    have hnd' := (List.nodup_append.mp hnd).1
    rw [show A.filterMap Seg.tag ++ [Node.fblock p, .item a] = (A.filterMap Seg.tag ++ [.fblock p]) ++ .item a :: [] by simp]
      at hnd' ⊢
    rw [List.erase_append_left _ (by simp), erase_middle hnd']
    simp
  · intro x
    exact mem_giveUp_items
  · intro x
    show x ∈ s.fblocks.filter (· ≠ n) ↔ _
    by_cases hx : x = p
    · simp [hx, hpf, hpn]
    · simp [hx]
  · intro x y ht
    simp only [Tiles, Seg.stop, Space.extent] at ht ⊢
    omega
  · have ht := htidy hs
    exact ⟨ht, ht.coalesced.not_free_last ⟨p, rfl⟩, ht.coalesced.not_free_head (m := [_, _]) ⟨n, rfl⟩⟩

/-- An item without a free neighbour becomes a free block. -/
theorem mergeNone_inv {al : Allocator} {f : Nat} (h : SpaceInv strict s) (ha : .item a ∈ s.order d)
    (hT : Layout (s.device d).capacity (s.order d) s.extent (A ++ [s.tile (.item a)] ++ B))
    (htidy : strict → Tidy (s.device d) (s.retired d) (A ++ [s.tile (.item a)] ++ B) ∧
      (∀ t ∈ A.getLast?, ¬IsFree t.tag) ∧ ∀ t ∈ B.head?, ¬IsFree t.tag) (hoff : (s.item a).offset < 2 ^ 40)
    (hal : al.get s.ticks s.fblocks = some f) :
    SpaceInv strict ((s.deviceFblockInsert al d (some (.item a)) (s.item a).offset
      (ipbucketBlockSize (s.item a).length)).2.giveUp a d) := by
  have hfresh : f ∉ s.fblocks := al.fresh hal
  have hff : .fblock f ∉ s.order d := fun hf =>
    hfresh (Space.mem_nodes_fblock.mp ((h.order.owned.covers _).mpr ⟨d, hf⟩))
  have hnd := h.order.owned.nodup d
  have horder : s.order d = A.filterMap Seg.tag ++ .item a :: B.filterMap Seg.tag := by
    rw [← hT.order]
    simp
  have hnA : .item a ∉ A.filterMap Seg.tag := by
    rw [horder] at hnd
    exact fun hn => (List.nodup_append.mp hnd).2.2 _ hn _ (by simp) rfl
  have hq : QueueInv (s.deviceFblockInsert al d (some (.item a)) (s.item a).offset
      (ipbucketBlockSize (s.item a).length)).2 (f :: s.fblocks) := by
    have hset := h.queue.setFblock hfresh ⟨(s.device d).index, (s.item a).offset % 2 ^ 40, ipbucketBlockSize (s.item a).length⟩
    simp only [Space.deviceFblockInsert, hal]
    exact ⟨(hset.add hfresh).owned, (hset.add hfresh).size⟩
  have hsame := (deviceFblockInsert_same al d (some (.item a)) (s.item a).offset
    (ipbucketBlockSize (s.item a).length) s).trans (giveUp_same a d _)
  simp only [Space.deviceFblockInsert, hal] at hq hsame ⊢
  refine ⟨hsame.dev h.dev, ⟨hq.owned, hq.size⟩, ?_⟩
  refine h.order.merge (g := f) (o := (s.item a).offset) (z := ipbucketBlockSize (s.item a).length)
    ha hT hsame rfl rfl ?_ ?_ rfl ?_ ?_ ?_ (hT.bounds ha).2.2 (by simp) (by simp [eq_comm])
    (by simp [sizeOf, itemTag, Space.extent]) (.inr hfresh) htidy
  · show Function.update (Function.update s.order d (listAddTail _ _ (s.order d))) d
      ((Function.update s.order d (listAddTail _ _ (s.order d)) d).erase (.item a)) = _
    rw [Function.update_idem, Function.update_self, horder, listAddTail_append hnA]
    rw [horder] at hff
    simp only [List.mem_append, List.mem_cons, not_or] at hff
    rw [show A.filterMap Seg.tag ++ Node.fblock f :: .item a :: B.filterMap Seg.tag =
      (A.filterMap Seg.tag ++ [.fblock f]) ++ .item a :: B.filterMap Seg.tag by simp, erase_append (by simp [hnA])]
    simp
  · rw [← Nat.mod_eq_of_lt hoff]
    simp [Space.giveUp, Space.itemFree, Space.setOrder, Space.setDevice, Space.ipbucketAdd]
  · intro x
    exact mem_giveUp_items
  · intro x
    have hxa : Node.fblock x ≠ .item a := by simp
    simp [Space.giveUp, Space.itemFree, Space.setOrder, Space.setDevice, Space.ipbucketAdd]
  · intro x y ht
    exact ht

end Merge

/-! ## `device_return_free_block` -/

section Return

variable {al : Allocator} {s s' : Space} {a d k : Nat}

/-- A bad block is retired. -/
theorem retire_inv (h : SpaceInv strict s) (ha : .item a ∈ s.order d) :
    SpaceInv strict (({ s.setDevice d { s.device d with
        badblock := (s.device d).badblock + ipbucketBlockSize (s.item a).length } with
      retired := Function.update s.retired d (((s.item a).offset, ipbucketBlockSize (s.item a).length) :: s.retired d)
      }.setOrder d ((s.order d).erase (.item a))).itemFree a) := by
  refine dropItem_inv h ha ⟨_, _, rfl⟩ fun _ _ A B hT => ?_
  have hnf : ¬IsFree none := by rintro ⟨f, hf⟩; cases hf
  refine hT.splice (hT.coalesced.replace (fun hf => absurd hf hnf) fun hf => absurd hf hnf) (by simp) (fun x => ?_) ?_ ?_
  · simp [Space.extent, or_comm, eq_comm]
  · simp [sizeOf, Space.extent]
  · simp [sizeOf, itemTag, Space.extent]

/-- An item of a deleted device is unlinked. -/
theorem unlink_inv (h : SpaceInv strict s) (ha : .item a ∈ s.order d) (hd : (s.device d).deleted = true) :
    SpaceInv strict ((s.setOrder d ((s.order d).erase (.item a))).itemFree a) := by
  have hdrop := dropItem_inv (x := s.device d) (R := s.retired d) h ha ⟨_, _, rfl⟩
    fun _ hdel => absurd (hd.symm.trans hdel) (by simp)
  simpa only [Space.setDevice, Function.update_eq_self] using hdrop

/-- **Giving back.** Item `a` leaves the device; its block is merged with its
free neighbours, or lost with a deleted device or as a bad block. -/
theorem deviceReturnFreeBlock_inv (hal : strict → ∀ t l, (al.get t l).isSome) (h : SpaceInv strict s) (ha : a ∈ s.items)
    (hr : s.deviceReturnFreeBlock al a = some (k, s')) : SpaceInv strict (s'.itemFree a) := by
  unfold Space.deviceReturnFreeBlock at hr
  obtain ⟨d, hd, hr⟩ := Option.bind_eq_some_iff.mp hr
  have had := h.order.item_mem h.dev ha hd
  have hda := h.order.mem_allDevices had
  obtain ⟨A, B, hT, htidy, horder, haA, hstop⟩ := h.order.split h.dev had
  simp only at hr
  split at hr
  · next hdel =>
    cases hr
    exact unlink_inv h had hdel
  next hdel =>
  have hdel : (s.device d).deleted = false := by simpa using hdel
  split at hr
  · next hbad =>
    cases hr
    split
    · rw [deviceKick_setOrder _ (by exact hda), deviceKick_itemFree]
      refine deviceKick_inv (retire_inv h had) ?_
      rcases List.mem_append.mp hda with hm | hm
      · exact hm
      · rw [(h.dev.gone d hm).1] at hdel
        cases hdel
    · exact retire_inv h had
  obtain ⟨s₁, hs₁, hr⟩ := Option.bind_eq_some_iff.mp hr
  cases hr
  have htidy := fun hs => htidy hs hdel
  have hgive : ∀ {s₁ : Space}, s₁.item = s.item → SpaceInv strict (s₁.giveUp a d) → SpaceInv strict
      (((s₁.setDevice d { s₁.device d with consumed := (s₁.device d).consumed - ipbucketBlockSize (s.item a).length }).setOrder
        d ((s₁.order d).erase (.item a))).itemFree a) := by
    intro s₁ hitem hinv
    rw [Space.giveUp, hitem] at hinv
    exact hinv
  unfold Space.recycle at hs₁
  simp only at hs₁
  split at hs₁
  · next p n hp hn =>
    obtain ⟨A', rfl⟩ := fblockAt_prev hT haA horder hp
    obtain ⟨B', rfl⟩ := fblockAt_next hT haA horder hn
    have hlist : A' ++ [s.tile (.fblock p)] ++ [s.tile (.item a)] ++ s.tile (.fblock n) :: B' =
        A' ++ [s.tile (.fblock p), s.tile (.item a), s.tile (.fblock n)] ++ B' := by simp
    refine hgive ?_ (mergeBoth_inv h had (hlist ▸ hT) (hlist ▸ htidy) hs₁)
    obtain ⟨e, -, rfl⟩ := Option.map_eq_some_iff.mp hs₁
    rfl
  · next p hp hn =>
    cases hs₁
    obtain ⟨A', rfl⟩ := fblockAt_prev hT haA horder hp
    have hnext := fblockAt_next_none hT haA horder hn
    have hlist : A' ++ [s.tile (.fblock p)] ++ [s.tile (.item a)] ++ B =
        A' ++ [s.tile (.fblock p), s.tile (.item a)] ++ B := by simp
    exact hgive rfl (mergePrev_inv h had (hlist ▸ hT) fun hs => ⟨hlist ▸ htidy hs, hnext⟩)
  · next n hp hn =>
    cases hs₁
    obtain ⟨B', rfl⟩ := fblockAt_next hT haA horder hn
    have hprev := fblockAt_prev_none hT haA horder hp
    have hlist : A ++ [s.tile (.item a)] ++ s.tile (.fblock n) :: B' =
        A ++ [s.tile (.item a), s.tile (.fblock n)] ++ B' := by simp
    exact hgive rfl (mergeNext_inv h had (hlist ▸ hT) fun hs => ⟨hlist ▸ htidy hs, hprev⟩)
  · next hp hn =>
    cases hs₁
    have hprev := fblockAt_prev_none hT haA horder hp
    have hnext := fblockAt_next_none hT haA horder hn
    cases hf : al.get s.ticks s.fblocks with
    | some f =>
      refine hgive ?_ (mergeNone_inv h had hT (fun hs => ⟨htidy hs, hprev, hnext⟩) (by simp only [Space.extent] at hstop; omega) hf)
      simp only [Space.deviceFblockInsert, hf]
      rfl
    | none =>
      have hdrop := dropItem_inv (x := { s.device d with
        consumed := (s.device d).consumed - ipbucketBlockSize (s.item a).length }) (R := s.retired d)
        (h.ticks (s.ticks + 1)) had ⟨_, _, rfl⟩ fun hs => by
          have := hal hs s.ticks s.fblocks
          simp [hf] at this
      simp only [Function.update_eq_self] at hdrop
      simp only [Space.deviceFblockInsert, hf]
      exact hdrop

end Return

/-! ## `device_get_free_block` -/

/-- **Taking.** Item `a` gets a block of its own, or nothing but free blocks
of deleted devices is touched. -/
theorem getFreeBlock_inv {s s' : Space} {a n k : Nat} (h : SpaceInv strict s) (h1 : 1 ≤ (s.item a).length)
    (hlen : (s.item a).length < 2 ^ 32) (hg : s.getFreeBlock a n = some (k, s')) : SpaceInv strict s' := by
  induction n generalizing s with
  | zero | succ n ih =>
    unfold Space.getFreeBlock at hg
    split at hg
    · cases hg
      exact h
    next f s₁ hget =>
    obtain ⟨hf, rfl, -⟩ := h.queue.get hget
    obtain ⟨d, hd, hg⟩ := Option.bind_eq_some_iff.mp hg
    have hfd := h.order.fblock_mem h.dev hf hd
    have hdev := (ipbucketDel_same f s).dev h.dev
    have hord : OrderInv strict (s.ipbucketDel f) :=
      ⟨h.order.owned, h.order.unlisted, h.order.kicked, h.order.nodeIndex, h.order.length, h.order.layout⟩
    have hq := h.queue.del f
    split at hg
    · next hdel =>
      obtain ⟨s₂, hs₂, hg⟩ := Option.bind_eq_some_iff.mp hg
      have hdrop := dropFblock_inv hdev hord hq (fun r hr => by simp [hr, Space.ipbucketDel]) hfd hdel hs₂
      first
      | cases hg
        exact hdrop
      | have hitem : s₂.item = s.item := by
          obtain ⟨e, -, rfl⟩ := Option.map_eq_some_iff.mp hs₂
          rfl
        exact ih hdrop (hitem ▸ h1) (hitem ▸ hlen) hg
    · exact takeBlock_inv hdev hord hq hfd h1 hlen hg

end OliveHc
