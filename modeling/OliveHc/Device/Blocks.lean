/-
What the calls of `device.c` do to the order lists: each replaces a few
neighbouring pieces of one device's tiling.
-/
import OliveHc.Device.Queue

namespace OliveHc

/-- The devices as the rest of the program sees them: all but the counters
`consumed` and `badblock`. -/
structure SameDevices (s s' : Space) : Prop where
  devices : s'.devices = s.devices
  deletedDevices : s'.deletedDevices = s.deletedDevices
  deviceIndexs : s'.deviceIndexs = s.deviceIndexs
  badblockPercent : s'.badblockPercent = s.badblockPercent
  device : ∀ x, ∃ c b, s'.device x = { s.device x with consumed := c, badblock := b }

namespace SameDevices

variable {s s' s'' : Space}

theorem refl (s : Space) : SameDevices s s := ⟨rfl, rfl, rfl, rfl, fun _ => ⟨_, _, rfl⟩⟩

theorem trans (h : SameDevices s s') (h' : SameDevices s' s'') : SameDevices s s'' := by
  refine ⟨h'.devices.trans h.devices, h'.deletedDevices.trans h.deletedDevices, h'.deviceIndexs.trans h.deviceIndexs,
    h'.badblockPercent.trans h.badblockPercent, fun x => ?_⟩
  obtain ⟨c, b, hx⟩ := h.device x
  obtain ⟨c', b', hx'⟩ := h'.device x
  exact ⟨c', b', by rw [hx', hx]⟩

theorem allDevices (h : SameDevices s s') : s'.allDevices = s.allDevices := by
  rw [Space.allDevices, h.devices, h.deletedDevices, Space.allDevices]

theorem dev (h : SameDevices s s') (hd : DevInv s) : DevInv s' := by
  refine ⟨h.allDevices ▸ hd.nodup, fun d hm => ?_, fun d hm => ?_, fun d hm hk => ?_, fun d hm => ?_⟩ <;>
    obtain ⟨c, b, hx⟩ := h.device d <;> simp only [hx] at *
  · exact hd.active d (h.devices ▸ hm)
  · exact hd.gone d (h.deletedDevices ▸ hm)
  · rw [h.deviceIndexs]
    exact hd.index d (h.allDevices ▸ hm) hk
  · exact hd.capacity d (h.allDevices ▸ hm)

end SameDevices

theorem ipbucketAdd_same (f : Nat) (s : Space) : SameDevices s (s.ipbucketAdd f) :=
  ⟨rfl, rfl, rfl, rfl, fun _ => ⟨_, _, rfl⟩⟩

theorem ipbucketDel_same (f : Nat) (s : Space) : SameDevices s (s.ipbucketDel f) :=
  ⟨rfl, rfl, rfl, rfl, fun _ => ⟨_, _, rfl⟩⟩

theorem setFblock_same (f : Nat) (b : FreeBlock) (s : Space) : SameDevices s (s.setFblock f b) :=
  ⟨rfl, rfl, rfl, rfl, fun _ => ⟨_, _, rfl⟩⟩

theorem deviceFblockInsert_same (al : Allocator) (d : Nat) (base : Option Node) (offset size : Nat) (s : Space) :
    SameDevices s (s.deviceFblockInsert al d base offset size).2 := by
  unfold Space.deviceFblockInsert
  split
  · exact ⟨rfl, rfl, rfl, rfl, fun _ => ⟨_, _, rfl⟩⟩
  · exact ⟨rfl, rfl, rfl, rfl, fun _ => ⟨_, _, rfl⟩⟩

/-- Neighbouring pieces `M` of a device are replaced by `N`. -/
theorem OrderInv.splice {strict : Prop} {s s' : Space} {d : Nat} {A M N B : List Tile} (h : OrderInv strict s)
    (hd : d ∈ s.allDevices) (hkick : (s.device d).kicked = false)
    (hT : Layout (s.device d).capacity (s.order d) s.extent (A ++ M ++ B)) (hsame : SameDevices s s')
    (hother : ∀ x, x ≠ d → s'.device x = s.device x ∧ s'.retired x = s.retired x)
    (hord : s'.order = Function.update s.order d
      (A.filterMap Seg.tag ++ N.filterMap Seg.tag ++ B.filterMap Seg.tag))
    (hM : ∀ {x y}, Tiles x y M → Tiles x y N)
    (hN : ∀ t ∈ N, 512 ∣ t.size ∧ ∀ n, t.tag = some n →
      s'.extent n = (t.offset, t.size) ∧ s'.nodeIndex n = (s.device d).index)
    (hnew : ∀ n ∈ N.filterMap Seg.tag, n ∈ M.filterMap Seg.tag ∨ n ∉ s.nodes) (hnd : (N.filterMap Seg.tag).Nodup)
    (hnodes : ∀ n, n ∈ s'.nodes ↔ n ∈ N.filterMap Seg.tag ∨ (n ∈ s.nodes ∧ n ∉ M.filterMap Seg.tag))
    (hkeep : ∀ n ∈ s.nodes, n ∉ M.filterMap Seg.tag → s'.extent n = s.extent n ∧ s'.nodeIndex n = s.nodeIndex n)
    (hlength : ∀ a ∈ s'.items, (s'.item a).length < 2 ^ 32)
    (htidy : strict → (s'.device d).deleted = false → Tidy (s'.device d) (s'.retired d) (A ++ N ++ B)) :
    OrderInv strict s' := by
  have horder : s.order d = A.filterMap Seg.tag ++ M.filterMap Seg.tag ++ B.filterMap Seg.tag := by
    rw [← hT.order, List.filterMap_append, List.filterMap_append]
  -- A node that stays is not among those that are replaced.
  have hstay : ∀ n, n ∈ A.filterMap Seg.tag ∨ n ∈ B.filterMap Seg.tag → n ∈ s.nodes ∧ n ∉ M.filterMap Seg.tag := by
    intro n hn
    have hnd := h.owned.nodup d
    rw [horder] at hnd
    obtain ⟨ham, -, hab⟩ := List.nodup_append.mp hnd
    obtain ⟨-, -, ham⟩ := List.nodup_append.mp ham
    refine ⟨(h.owned.covers n).mpr ⟨d, ?_⟩, fun hm => ?_⟩
    · rw [horder]
      simp only [List.mem_append]
      tauto
    · rcases hn with hn | hn
      · exact ham n hn n hm rfl
      · exact hab n (by simp only [List.mem_append]; exact .inr hm) n hn rfl
  have hordd : s'.order d = A.filterMap Seg.tag ++ N.filterMap Seg.tag ++ B.filterMap Seg.tag := by
    rw [hord, Function.update_self]
  refine h.change hd hsame.allDevices (fun x => ?_) (fun x hx => ?_) (fun n hn hnd => ?_) ?_ hkick (fun n hn => ?_)
    hlength ⟨A ++ N ++ B, ?_, htidy⟩
  · obtain ⟨c, b, hx⟩ := hsame.device x
    rw [hx]
    exact ⟨rfl, rfl, rfl⟩
  · exact ⟨(hother x hx).1, (hother x hx).2, by rw [hord, Function.update_of_ne hx]⟩
  · refine hkeep n hn fun hm => hnd ?_
    rw [horder]
    simp only [List.mem_append]
    exact .inl (.inr hm)
  · rw [hord]
    exact h.owned.splice horder hnd hnew hnodes
  · rw [hordd] at hn
    simp only [List.mem_append] at hn
    rcases hn with (hn | hn) | hn
    · rw [(hkeep n (hstay n (.inl hn)).1 (hstay n (.inl hn)).2).2]
      exact h.nodeIndex d n (by rw [horder]; simp only [List.mem_append]; exact .inl (.inl hn))
    · obtain ⟨t, ht, htag⟩ := List.mem_filterMap.mp hn
      exact ((hN t ht).2 n htag).2
    · rw [(hkeep n (hstay n (.inr hn)).1 (hstay n (.inr hn)).2).2]
      exact h.nodeIndex d n (by rw [horder]; simp only [List.mem_append]; exact .inr hn)
  · refine hT.splice hM hordd (fun n hn => (hkeep n (hstay n hn).1 (hstay n hn).2).1) fun t ht => ?_
    exact ⟨fun n hn => ((hN t ht).2 n hn).1, (hN t ht).1⟩

variable {strict : Prop}

theorem linkItem_same (a f d offset : Nat) (s : Space) : SameDevices s (s.linkItem a f d offset) := by
  refine ⟨rfl, rfl, rfl, rfl, fun x => ?_⟩
  by_cases hx : x = d
  · subst hx
    exact ⟨_, _, Function.update_self ..⟩
  · exact ⟨_, _, Function.update_of_ne hx ..⟩

theorem linkLoaded_same (a f d step bs : Nat) (s : Space) : SameDevices s (s.linkLoaded a f d step bs) := by
  refine ⟨rfl, rfl, rfl, rfl, fun x => ?_⟩
  by_cases hx : x = d
  · subst hx
    exact ⟨_, _, Function.update_self ..⟩
  · exact ⟨_, _, Function.update_of_ne hx ..⟩

/-- The extents and indices after an item got its place. -/
theorem linkItem_extent {a f d offset : Nat} {s : Space} {n : Node} (hn : n ≠ .item a) :
    (s.linkItem a f d offset).extent n = s.extent n ∧ (s.linkItem a f d offset).nodeIndex n = s.nodeIndex n :=
  extent_setItem_of_ne (s := s) hn

theorem linkItem_extent_self (a f d offset : Nat) (s : Space) (ho : offset < 2 ^ 40) :
    (s.linkItem a f d offset).extent (.item a) = (offset, ipbucketBlockSize (s.item a).length) ∧
      (s.linkItem a f d offset).nodeIndex (.item a) = (s.device d).index := by
  simp only [Space.extent, Space.nodeIndex, Space.linkItem, Function.update_self, Nat.mod_eq_of_lt ho, and_self]

/-- A node in its device's list, and the pieces on both sides of it. -/
theorem OrderInv.split {s : Space} {d : Nat} {n : Node} (h : OrderInv strict s) (hdev : DevInv s) (hn : n ∈ s.order d) :
    ∃ A B, Layout (s.device d).capacity (s.order d) s.extent (A ++ [⟨some n, (s.extent n).1, (s.extent n).2⟩] ++ B) ∧
      (strict → (s.device d).deleted = false →
        Tidy (s.device d) (s.retired d) (A ++ [⟨some n, (s.extent n).1, (s.extent n).2⟩] ++ B)) ∧
      s.order d = A.filterMap Seg.tag ++ n :: B.filterMap Seg.tag ∧ n ∉ A.filterMap Seg.tag ∧
      (s.extent n).1 + (s.extent n).2 < 2 ^ 40 := by
  have hd := h.mem_allDevices hn
  obtain ⟨T, hT, htidy⟩ := h.layout d hd (h.not_kicked hn)
  obtain ⟨A, B, rfl, horder⟩ := hT.split hn
  refine ⟨A, B, hT, htidy, horder, fun hna => ?_, ?_⟩
  · have hnd := h.owned.nodup d
    rw [horder] at hnd
    exact (List.nodup_append.mp hnd).2.2 n hna n (by simp) rfl
  · have := hdev.capacity d hd
    have := (hT.bounds hn).2.1
    simp only [capacityLimit] at *
    omega

/-- The lengths of the items after one more got its place. -/
theorem linkItem_length {s : Space} {a f d offset : Nat} (hord : OrderInv strict s) (hlen : (s.item a).length < 2 ^ 32) :
    ∀ x ∈ (s.linkItem a f d offset).items, ((s.linkItem a f d offset).item x).length < 2 ^ 32 := by
  intro x hx
  by_cases hxa : x = a
  · subst hxa
    simpa only [Space.linkItem, Function.update_self] using hlen
  · simp only [Space.linkItem, Function.update_of_ne hxa]
    exact hord.length x ((List.mem_cons.mp hx).resolve_left hxa)

/-- An item takes the rear of a free block. -/
theorem cutRear_inv {s : Space} {a f d bs : Nat} (hdev : DevInv s) (hord : OrderInv strict s)
    (hq : QueueInv s (s.fblocks.filter (· ≠ f))) (hf : .fblock f ∈ s.order d) (ha : a ∉ s.items)
    (hlen : (s.item a).length < 2 ^ 32) (hbs : bs = ipbucketBlockSize (s.item a).length) (hpos : 0 < bs)
    (hlt : bs < (s.fblock f).blockSize) :
    SpaceInv strict (((s.linkItem a f d ((s.fblock f).offset + (s.fblock f).blockSize - bs)).setFblock f
      { s.fblock f with blockSize := (s.fblock f).blockSize - bs }).ipbucketAdd f) := by
  obtain ⟨A, B, hT, htidy, horder, hfA, hstop⟩ := hord.split hdev hf
  have hfn : .fblock f ∈ s.nodes := (hord.owned.covers _).mpr ⟨d, hf⟩
  have han : .item a ∉ s.nodes := fun h => ha (Space.mem_nodes_item.mp h)
  have hal : 512 ∣ bs := hbs ▸ dvd_ipbucketBlockSize hlen.le
  have half := (hT.bounds hf).2.2
  simp only [Space.extent] at hT htidy hstop half
  generalize hb : s.fblock f = b at *
  have hsame : SameDevices s _ := ((linkItem_same a f d (b.offset + b.blockSize - bs) s).trans
    (setFblock_same f { b with blockSize := b.blockSize - bs } _)).trans (ipbucketAdd_same f _)
  refine ⟨hsame.dev hdev, ?_, ?_⟩
  · have hl : QueueInv (s.linkItem a f d (b.offset + b.blockSize - bs)) (s.fblocks.filter (· ≠ f)) := ⟨hq.owned, hq.size⟩
    refine ((hl.setFblock (f := f) (by simp) _).add (by simp)).congr fun r => ?_
    show r ∈ s.fblocks ↔ _
    by_cases hr : r = f
    · simp [hr, Space.mem_nodes_fblock.mp hfn]
    · simp [hr]
  · have hext := @linkItem_extent_self a f d (b.offset + b.blockSize - bs) s (by omega)
    refine hord.splice (N := [⟨some (.fblock f), b.offset, b.blockSize - bs⟩,
      ⟨some (.item a), b.offset + b.blockSize - bs, bs⟩]) (hord.mem_allDevices hf) (hord.not_kicked hf) hT hsame
      (fun x hx => ⟨Function.update_of_ne hx .., rfl⟩) ?_ ?_ ?_ ?_ (by simp) ?_ ?_ (linkItem_length (f := f) hord hlen) ?_
    · show Function.update s.order d (listAdd _ _ (s.order d)) = _
      rw [horder, listAdd_append hfA]
      simp
    · intro x y h
      simp only [Tiles, Seg.stop] at h ⊢
      omega
    · simp only [List.mem_cons, List.not_mem_nil, or_false, forall_eq_or_imp, forall_eq]
      refine ⟨⟨Nat.dvd_sub half hal, fun n hn => ?_⟩, hal, fun n hn => ?_⟩
      · cases hn
        refine ⟨by simp [Space.extent, Space.ipbucketAdd, Space.setFblock], ?_⟩
        have hidx := hord.nodeIndex d _ hf
        simpa [Space.nodeIndex, Space.ipbucketAdd, Space.setFblock, hb] using hidx
      · cases hn
        exact ⟨hbs ▸ hext.1, hext.2⟩
    · simp [han]
    · intro n
      cases n with
      | item x => simp [Space.nodes, Space.ipbucketAdd, Space.setFblock, Space.linkItem]
      | fblock g =>
        have := Space.mem_nodes_fblock.mp hfn
        simp only [Space.mem_nodes_fblock]
        show g ∈ s.fblocks ↔ _
        by_cases hg : g = f
        · simp [hg, this]
        · simp [hg]
    · intro n hn hnf
      have h1 : n ≠ .fblock f := by simpa using hnf
      have h2 : n ≠ .item a := fun h => han (h ▸ hn)
      obtain ⟨e1, e2⟩ := @linkItem_extent a f d (b.offset + b.blockSize - bs) s n h2
      obtain ⟨e3, e4⟩ := @extent_setFblock_of_ne (s.linkItem a f d (b.offset + b.blockSize - bs)) n f
        { b with blockSize := b.blockSize - bs } h1
      exact ⟨e3.trans e1, e4.trans e2⟩
    · intro hs hdel
      have hdel' : (s.device d).deleted = false := by
        obtain ⟨c, e, hx⟩ := hsame.device d
        rwa [hx] at hdel
      have ht := htidy hs hdel'
      have hc : Coalesced IsFree (A ++ [⟨some (.fblock f), b.offset, b.blockSize - bs⟩] ++ B) :=
        ht.coalesced.replace (fun hfree => ht.coalesced.not_free_last hfree) fun hfree => ht.coalesced.not_free_head (m := []) hfree
      refine ht.splice (hc.insert (by rintro ⟨g, hg⟩; cases hg)) (by simp) (by simp; exact fun _ _ => Iff.rfl) ?_ ?_
      · simp [Space.ipbucketAdd, Space.setFblock, Space.linkItem, sizeOf]
      · simp [Space.ipbucketAdd, Space.setFblock, Space.linkItem, sizeOf, itemTag, hbs]

theorem deviceFblockDelete_same {f : Nat} {s s' : Space} (h : s.deviceFblockDelete f = some s') : SameDevices s s' := by
  obtain ⟨d, -, rfl⟩ := Option.map_eq_some_iff.mp h
  exact ⟨rfl, rfl, rfl, rfl, fun _ => ⟨_, _, rfl⟩⟩

theorem deviceFblockDelete_queue {f : Nat} {s s' : Space} {live : List Nat} (h : s.deviceFblockDelete f = some s')
    (hq : QueueInv s live) (hl : ∀ r, r ≠ f → (r ∈ live ↔ r ∈ s.fblocks)) : QueueInv s' s'.fblocks := by
  obtain ⟨d, -, rfl⟩ := Option.map_eq_some_iff.mp h
  have hd := hq.del f
  refine ⟨hd.owned.congr fun r => ?_, hd.size⟩
  by_cases hr : r = f
  · simp [hr]
  · simp [hr, hl r hr]

/-- An item takes all of a free block. -/
theorem exactFit_inv {s s' : Space} {a f d : Nat} (hdev : DevInv s) (hord : OrderInv strict s)
    (hq : QueueInv s (s.fblocks.filter (· ≠ f))) (hf : .fblock f ∈ s.order d) (ha : a ∉ s.items)
    (hlen : (s.item a).length < 2 ^ 32) (hbs : (s.fblock f).blockSize = ipbucketBlockSize (s.item a).length)
    (hdel : (s.linkItem a f d (s.fblock f).offset).deviceFblockDelete f = some s') : SpaceInv strict s' := by
  obtain ⟨A, B, hT, htidy, horder, hfA, hstop⟩ := hord.split hdev hf
  have hfn : .fblock f ∈ s.nodes := (hord.owned.covers _).mpr ⟨d, hf⟩
  have han : .item a ∉ s.nodes := fun h => ha (Space.mem_nodes_item.mp h)
  have half := (hT.bounds hf).2.2
  simp only [Space.extent] at hT htidy hstop half
  have hsame := (linkItem_same a f d (s.fblock f).offset s).trans (deviceFblockDelete_same hdel)
  have hqueue : QueueInv s' s'.fblocks := by
    have hl : QueueInv (s.linkItem a f d (s.fblock f).offset) (s.fblocks.filter (· ≠ f)) := ⟨hq.owned, hq.size⟩
    exact deviceFblockDelete_queue hdel hl fun r hr => by simp [hr, Space.linkItem]
  refine ⟨hsame.dev hdev, hqueue, ?_⟩
  obtain ⟨e, he, rfl⟩ := Option.map_eq_some_iff.mp hdel
  obtain rfl : e = d := hord.device_eq hdev hf he
  have hext := linkItem_extent_self a f e (s.fblock f).offset s (by omega)
  generalize hb : s.fblock f = b at *
  refine hord.splice (N := [⟨some (.item a), b.offset, b.blockSize⟩]) (hord.mem_allDevices hf) (hord.not_kicked hf) hT hsame
    (fun x hx => ⟨Function.update_of_ne hx .., rfl⟩) ?_ ?_ ?_ ?_ (by simp) ?_ ?_ (linkItem_length (f := f) hord hlen) ?_
  · show Function.update (Function.update s.order e (listAdd _ _ (s.order e))) e
      ((Function.update s.order e (listAdd _ _ (s.order e)) e).erase (.fblock f)) = _
    rw [Function.update_idem, Function.update_self, horder, listAdd_append hfA, erase_append hfA]
    simp
  · intro x y h
    exact h
  · simp only [List.mem_cons, List.not_mem_nil, or_false, forall_eq]
    refine ⟨half, fun n hn => ?_⟩
    cases hn
    exact ⟨hbs ▸ hext.1, hext.2⟩
  · simp [han]
  · intro n
    cases n with
    | item x => simp [Space.nodes, Space.ipbucketDel, Space.setOrder, Space.linkItem]
    | fblock g => simp [Space.nodes, Space.ipbucketDel, Space.setOrder, Space.linkItem]
  · intro n hn hnf
    have h2 : n ≠ .item a := fun h => han (h ▸ hn)
    exact @linkItem_extent a f e b.offset s n h2
  · intro hs hdel
    have hdel' : (s.device e).deleted = false := by
      obtain ⟨c, e, hx⟩ := hsame.device e
      rwa [hx] at hdel
    have ht := htidy hs hdel'
    have hnf : ¬IsFree (some (Node.item a)) := by rintro ⟨g, hg⟩; cases hg
    refine ht.splice (ht.coalesced.replace (fun h => absurd h hnf) fun h => absurd h hnf) (by simp)
      (by simp; exact fun _ _ => Iff.rfl) ?_ ?_
    · simp [Space.setOrder, Space.ipbucketDel, Space.linkItem, sizeOf]
    · simp [Space.setOrder, Space.ipbucketDel, Space.linkItem, sizeOf, itemTag, hbs]

/-- An item takes its block from a free block that is large enough. -/
theorem takeBlock_inv {s s' : Space} {a f d n : Nat} (hdev : DevInv s) (hord : OrderInv strict s)
    (hq : QueueInv s (s.fblocks.filter (· ≠ f))) (hf : .fblock f ∈ s.order d) (h1 : 1 ≤ (s.item a).length)
    (hlen : (s.item a).length < 2 ^ 32) (ht : s.takeBlock a f d = some (n, s')) : SpaceInv strict s' := by
  unfold Space.takeBlock at ht
  simp only at ht
  split at ht
  · cases ht
  next ha =>
  split at ht
  · next hgt =>
    cases ht
    exact cutRear_inv hdev hord hq hf ha hlen rfl (ipbucketBlockSize_pos h1 hlen.le) hgt
  split at ht
  · next heq =>
    obtain ⟨x, hx, he⟩ := Option.map_eq_some_iff.mp ht
    cases he
    exact exactFit_inv hdev hord hq hf ha hlen heq hx
  · cases ht

end OliveHc
