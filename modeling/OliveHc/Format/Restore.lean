/-
Loading a device record by record (`format_load_device`).

Which records of a dump become items is a function of the records alone:
those that pass the checks and fit behind the ones before (`taken`). An
item is entered with what its record says, and nothing else changes.
-/
import OliveHc.Device.Frames
import OliveHc.Device.Blocks
import OliveHc.Format.Image
import OliveHc.Master.Steps

namespace OliveHc

/-! ## Which records are loaded -/

/-- Where the item of a record is to be. -/
def FormatItem.place (x : FormatItem) : Nat := (x.offset % (2 ^ 40 : Nat)).toNat

/-- The size of its block. -/
def FormatItem.size (x : FormatItem) : Nat := ipbucketBlockSize x.length

/-- The item fits behind what ends at `front`. -/
def FormatItem.FitsAt (front capacity : Nat) (x : FormatItem) : Prop := front ≤ x.place ∧ x.place + x.size ≤ capacity

instance (front capacity : Nat) (x : FormatItem) : Decidable (x.FitsAt front capacity) := by
  unfold FormatItem.FitsAt
  infer_instance

/-- The records that pass the checks, each with its server. -/
def picked (pick : FormatItem → Option Nat) (l : List FormatItem) : List (Nat × FormatItem) :=
  l.filterMap fun x => (pick x).map (·, x)

/-- The records that become items, while there is memory. One without a
length takes its place, and is freed. -/
def taken (pick : FormatItem → Option Nat) (capacity : Nat) : Nat → List FormatItem → List (Nat × FormatItem)
  | _, [] => []
  | front, x :: l =>
    match pick x with
    | none => taken pick capacity front l
    | some s =>
      if x.FitsAt front capacity then
        if x.size = 0 then taken pick capacity (x.place + x.size) l
        else (s, x) :: taken pick capacity (x.place + x.size) l
      else taken pick capacity front l

/-- The records that are read before one fails. -/
def readRecords (io : FormatIo) (image : Nat → UInt8) : Nat → Nat → List FormatItem
  | 0, _ => []
  | n + 1, i => if !io.record i then [] else recordAt image i :: readRecords io image n (i + 1)

/-! ## The remaining space -/

/-- The item of a node. -/
def Node.item? : Node → Option Nat
  | .item a => some a
  | .fblock _ => none

/-- Device `d` is loaded up to `front`, with the remaining space `f` and the
items `its` before it. -/
structure Front (d f front : Nat) (its : List Nat) (s : Space) : Prop where
  order : ∃ L, s.order d = L ++ [.fblock f] ∧ .fblock f ∉ L ∧ L.filterMap Node.item? = its
  live : f ∈ s.fblocks
  offset : (s.fblock f).offset = front
  size : front + (s.fblock f).blockSize = (s.device d).capacity
  capacity : (s.device d).capacity ≤ capacityLimit
  owner : (s.fblock f).deviceIndex = (s.device d).index
  index : (s.device d).index = -1 ∨ s.deviceIndexs.get (s.device d).index = some d

namespace Front

variable {al : Allocator} {s s' : Space} {d f front a k : Nat} {its : List Nat}

theorem current (h : Front d f front its s) : s.current d = some f := by
  obtain ⟨L, hL, -⟩ := h.order
  rw [Space.current, hL, List.getLast?_append]
  rfl

end Front

/-- What loading device `d` does to the rest: the other lists stay, and so do
the other free blocks and their queues. -/
structure LoadFrame (d f : Nat) (s s' : Space) : Prop where
  same : SameDevices s s'
  order : ∀ e, e ≠ d → s'.order e = s.order e
  fblock : ∀ g ∈ s.fblocks, g ≠ f → g ∈ s'.fblocks ∧ s'.fblock g = s.fblock g
  queue : ∀ g ∈ s.fblocks, g ≠ f → ∀ i, g ∈ s'.queue i ↔ g ∈ s.queue i

/-- What one item adds to the list: the free block before it, if there is
one, and the item. -/
structure Piece where
  gap : Option Nat
  item : Nat

def Piece.nodes (p : Piece) : List Node := (p.gap.map Node.fblock).toList ++ [.item p.item]

/-- The free block for `[lo, hi)`. There is none if nothing is between, or if
there was no memory. -/
def GapAt (al : Allocator) (d lo hi : Nat) (s : Space) : Option Nat → Prop
  | none => lo = hi ∨ ∃ n l, al.get n l = none
  | some g => lo < hi ∧ g ∈ s.fblocks ∧ s.fblock g = ⟨(s.device d).index, lo, hi - lo⟩ ∧
      g ∈ s.queue (ipbucketIndex (hi - lo) false).toNat

/-- The piece that is put before the remaining space `f`. -/
structure CutAt (al : Allocator) (d f lo hi : Nat) (p : Piece) (s s' : Space) : Prop where
  order : ∀ L, s.order d = L ++ [.fblock f] → s'.order d = L ++ p.nodes ++ [.fblock f]
  gap : GapAt al d lo hi s' p.gap
  queue : ∀ g ∈ s.fblocks, ∀ i, g ∈ s'.queue i ↔ g ∈ s.queue i

/-- A free block that is queued leaves the others where they are. -/
theorem Space.mem_queue_ipbucketAdd {f g : Nat} (h : g ≠ f) (s : Space) (i : Nat) :
    g ∈ (s.ipbucketAdd f).queue i ↔ g ∈ s.queue i := by
  unfold Space.ipbucketAdd
  simp only [Function.update_apply]
  split
  · next hi =>
    subst hi
    split <;> simp [h]
  · rfl

theorem Space.mem_queue_ipbucketAdd_self (s : Space) (f : Nat) :
    f ∈ (s.ipbucketAdd f).queue (ipbucketIndex (s.fblock f).blockSize false).toNat := by
  unfold Space.ipbucketAdd
  simp only [Function.update_self]
  split <;> simp

namespace LoadFrame

variable {al : Allocator} {s s' s'' : Space} {d f : Nat}

theorem refl (d f : Nat) (s : Space) : LoadFrame d f s s :=
  ⟨.refl s, fun _ _ => rfl, fun _ hg _ => ⟨hg, rfl⟩, fun _ _ _ _ => Iff.rfl⟩

theorem trans (h : LoadFrame d f s s') (h' : LoadFrame d f s' s'') : LoadFrame d f s s'' := by
  refine ⟨h.same.trans h'.same, fun e he => (h'.order e he).trans (h.order e he), fun g hg hgf => ?_,
    fun g hg hgf i => (h'.queue g (h.fblock g hg hgf).1 hgf i).trans (h.queue g hg hgf i)⟩
  obtain ⟨hg', he⟩ := h.fblock g hg hgf
  obtain ⟨hg'', he'⟩ := h'.fblock g hg' hgf
  exact ⟨hg'', he'.trans he⟩

/-- The items are no part of it. -/
theorem items {s₁ s₁' : Space} (h : LoadFrame d f s s') (hs : s₁ = { s with item := s₁.item, items := s₁.items })
    (hs' : s₁' = { s' with item := s₁'.item, items := s₁'.items }) : LoadFrame d f s₁ s₁' := by
  rw [hs, hs']
  exact ⟨⟨h.same.devices, h.same.deletedDevices, h.same.deviceIndexs, h.same.badblockPercent, h.same.device⟩, h.order,
    h.fblock, h.queue⟩

theorem fblockInsert (al : Allocator) (d f : Nat) (base : Option Node) (offset size : Nat) (s : Space) :
    LoadFrame d f s (s.deviceFblockInsert al d base offset size).2 := by
  refine ⟨deviceFblockInsert_same .., ?_, ?_, ?_⟩
  all_goals
    unfold Space.deviceFblockInsert
    split
  · exact fun _ _ => rfl
  · exact fun e he => Function.update_of_ne he ..
  · exact fun g hg _ => ⟨hg, rfl⟩
  · next g' hg' =>
    intro g hg _
    have hne : g ≠ g' := fun he => al.fresh hg' (he ▸ hg)
    exact ⟨List.mem_cons_of_mem g' hg, Function.update_of_ne hne ..⟩
  · exact fun _ _ _ _ => Iff.rfl
  · next g' hg' =>
    intro g hg _
    have hne : g ≠ g' := fun he => al.fresh hg' (he ▸ hg)
    exact Space.mem_queue_ipbucketAdd hne _

end LoadFrame

namespace Front

variable {al : Allocator} {s s' : Space} {d f front a k : Nat} {its : List Nat}

/-- The gap before an item becomes a free block, if there is memory. -/
theorem insert (h : Front d f front its s) (gap : Nat) :
    Front d f front its (s.deviceFblockInsert al d (some (.fblock f)) front gap).2 := by
  obtain ⟨L, hL, hf, hits⟩ := h.order
  have hsame := deviceFblockInsert_same al d (some (.fblock f)) front gap s
  obtain ⟨c, b, hdev⟩ := hsame.device d
  refine ⟨?_, ?_, ?_, ?_, by rw [hdev]; exact h.capacity, ?_, by rw [hsame.deviceIndexs, hdev]; exact h.index⟩
  all_goals
    unfold Space.deviceFblockInsert
    split
  · exact ⟨L, hL, hf, hits⟩
  · next g hg =>
    refine ⟨L ++ [.fblock g], ?_, ?_, ?_⟩
    · show Function.update s.order d _ d = _
      rw [Function.update_self, hL, listAddTail_append hf, List.append_assoc]
      rfl
    · simp only [List.mem_append, List.mem_singleton, Node.fblock.injEq, not_or]
      exact ⟨hf, fun he => al.fresh hg (he ▸ h.live)⟩
    · rw [List.filterMap_append, hits]
      exact List.append_nil its
  · exact h.live
  · exact List.mem_cons_of_mem _ h.live
  · exact h.offset
  · next g hg =>
    have hne : f ≠ g := fun he => al.fresh hg (he ▸ h.live)
    show (Function.update s.fblock g _ f).offset = front
    rw [Function.update_of_ne hne]
    exact h.offset
  · exact h.size
  · next g hg =>
    have hne : f ≠ g := fun he => al.fresh hg (he ▸ h.live)
    show front + (Function.update s.fblock g _ f).blockSize = _
    rw [Function.update_of_ne hne]
    exact h.size
  · exact h.owner
  · next g hg =>
    have hne : f ≠ g := fun he => al.fresh hg (he ▸ h.live)
    show (Function.update s.fblock g _ f).deviceIndex = _
    rw [Function.update_of_ne hne]
    exact h.owner

/-- The item is put before the remaining space, which shrinks. -/
theorem link (h : Front d f front its s) {step bsize stop : Nat} (hstop : front + step = stop)
    (hle : stop ≤ (s.device d).capacity) : Front d f stop (its ++ [a]) (s.linkLoaded a f d step bsize) := by
  obtain ⟨L, hL, hf, hits⟩ := h.order
  have hsame := linkLoaded_same a f d step bsize s
  obtain ⟨c, b, hdev⟩ := hsame.device d
  have hcap := h.capacity
  have hsize := h.size
  have hfb : (s.linkLoaded a f d step bsize).fblock f = { s.fblock f with
      offset := ((s.fblock f).offset + step) % 2 ^ 40, blockSize := (s.fblock f).blockSize - step } :=
    Function.update_self ..
  refine ⟨⟨L ++ [.item a], ?_, ?_, ?_⟩, h.live, ?_, ?_, by rw [hdev]; exact hcap, by rw [hfb, hdev]; exact h.owner,
    by rw [hsame.deviceIndexs, hdev]; exact h.index⟩
  · show Function.update s.order d _ d = _
    rw [Function.update_self, hL, listAddTail_append hf, List.append_assoc]
    rfl
  · simp only [List.mem_append, List.mem_singleton, reduceCtorEq, or_false]
    exact hf
  · rw [List.filterMap_append, hits]
    rfl
  · rw [hfb, h.offset]
    simp only [capacityLimit] at hcap ⊢
    omega
  · rw [hfb, hdev]
    simp only
    omega

/-- The block of the gap, as it is in the list. -/
theorem insertGap (al : Allocator) (h : Front d f front its s) {hi : Nat} (hlt : front < hi) : ∃ gap,
    (∀ L, s.order d = L ++ [.fblock f] → (s.deviceFblockInsert al d (some (.fblock f)) front (hi - front)).2.order d =
      L ++ (gap.map Node.fblock).toList ++ [.fblock f] ∧ .fblock f ∉ L ++ (gap.map Node.fblock).toList) ∧
      GapAt al d front hi (s.deviceFblockInsert al d (some (.fblock f)) front (hi - front)).2 gap ∧ gap ≠ some f := by
  obtain ⟨L₀, hL₀, hf, -⟩ := h.order
  have hfront : front % 2 ^ 40 = front := by
    have hcap := h.capacity
    have hsize := h.size
    simp only [capacityLimit] at hcap
    omega
  unfold Space.deviceFblockInsert
  split
  · next hno =>
    refine ⟨none, fun L hL => ?_, .inr ⟨_, _, hno⟩, (Option.some_ne_none f).symm⟩
    obtain rfl : L₀ = L := List.append_cancel_right (hL₀.symm.trans hL)
    simp [hL₀, hf]
  · next g hg =>
    have hgf : g ≠ f := fun he => al.fresh hg (he ▸ h.live)
    have hself : ∀ b : FreeBlock, Function.update s.fblock g b g = b := fun b => Function.update_self ..
    refine ⟨some g, fun L hL => ?_, ⟨hlt, List.mem_cons_self, ?_, ?_⟩, fun he => hgf (Option.some.inj he)⟩
    · obtain rfl : L₀ = L := List.append_cancel_right (hL₀.symm.trans hL)
      refine ⟨?_, ?_⟩
      · show Function.update s.order d _ d = _
        rw [Function.update_self, hL₀, listAddTail_append hf]
        simp
      · simp [hf, Ne.symm hgf]
    · show Function.update s.fblock g _ g = _
      rw [hself, hfront]
      rfl
    · have hqueue := Space.mem_queue_ipbucketAdd_self { s with
          fblock := Function.update s.fblock g ⟨(s.device d).index, front % 2 ^ 40, hi - front⟩
          order := Function.update s.order d (listAddTail (Node.fblock g) (.fblock f) (s.order d))
          fblocks := g :: s.fblocks
          ticks := s.ticks + 1 } g
      simp only [hself] at hqueue
      exact hqueue

/-- **`device_cut_free_block`** at the remaining space: the item fits, or
nothing happens. -/
theorem cut (h : Front d f front its s) (ha : a ∉ s.items) (hidx : (s.item a).deviceIndex = (s.device d).index)
    (hc : s.deviceCutFreeBlock al a = some (k, s')) :
    (front ≤ (s.item a).offset ∧ (s.item a).offset + ipbucketBlockSize (s.item a).length ≤ (s.device d).capacity ∧
        k = ipbucketBlockSize (s.item a).length ∧
        Front d f ((s.item a).offset + ipbucketBlockSize (s.item a).length) (its ++ [a]) s' ∧ LoadFrame d f s s' ∧
        ∃ gap, CutAt al d f front (s.item a).offset ⟨gap, a⟩ s s') ∨
      ¬(front ≤ (s.item a).offset ∧ (s.item a).offset + ipbucketBlockSize (s.item a).length ≤ (s.device d).capacity) ∧
        k = 0 ∧ s' = s := by
  unfold Space.deviceCutFreeBlock at hc
  obtain ⟨e, he, hc⟩ := Option.bind_eq_some_iff.mp hc
  obtain rfl : e = d := by
    rw [Space.deviceOfItem, hidx] at he
    rcases h.index with hi | hi
    · rw [hi, IdxPointer.get_neg_one] at he
      cases he
    · exact Option.some.inj (he.symm.trans hi)
  rw [h.current] at hc
  have hoff := h.offset
  have hsize := h.size
  obtain ⟨g, hg, hc⟩ := Option.bind_eq_some_iff.mp hc
  cases hg
  simp only [hoff] at hc
  split at hc
  · next hno =>
    cases hc
    exact .inr ⟨by omega, rfl, rfl⟩
  next hfit =>
  cases hc
  refine .inl ⟨by omega, by omega, rfl, ?_⟩
  -- The state in which the item is linked.
  obtain ⟨s₁, hs₁, h₁, hframe, gap, hlist, hgap, hgf, hqueue⟩ : ∃ s₁, (if (s.item a).offset - front > 0 then
      (s.deviceFblockInsert al e (some (.fblock f)) front ((s.item a).offset - front)).2 else s) = s₁ ∧
      Front e f front its s₁ ∧ LoadFrame e f s s₁ ∧ ∃ gap, (∀ L, s.order e = L ++ [.fblock f] →
        s₁.order e = L ++ (gap.map Node.fblock).toList ++ [.fblock f] ∧ .fblock f ∉ L ++ (gap.map Node.fblock).toList) ∧
        GapAt al e front (s.item a).offset s₁ gap ∧ gap ≠ some f ∧
        ∀ g ∈ s.fblocks, ∀ i, g ∈ s₁.queue i ↔ g ∈ s.queue i := by
    refine ⟨_, rfl, ?_⟩
    split
    · next hpos =>
      obtain ⟨gap, hlist, hgap, hgf⟩ := h.insertGap al (show front < (s.item a).offset by omega)
      refine ⟨h.insert _, .fblockInsert .., gap, hlist, hgap, hgf, ?_⟩
      unfold Space.deviceFblockInsert
      split
      · exact fun _ _ _ => Iff.rfl
      · next g' hg' =>
        intro g hg
        have hne : g ≠ g' := fun he => al.fresh hg' (he ▸ hg)
        exact Space.mem_queue_ipbucketAdd hne _
    · obtain ⟨L₀, hL₀, hf, -⟩ := h.order
      refine ⟨h, .refl .., none, fun L hL => ?_, .inl (by omega), nofun, fun _ _ _ => Iff.rfl⟩
      obtain rfl : L₀ = L := List.append_cancel_right (hL₀.symm.trans hL)
      simpa using ⟨hL₀, hf⟩
  rw [hs₁]
  obtain ⟨c, b, hdev⟩ := hframe.same.device e
  refine ⟨h₁.link (by omega) (by rw [hdev]; show _ ≤ (s.device e).capacity; omega), hframe.trans ⟨linkLoaded_same ..,
    fun x hx => Function.update_of_ne hx .., fun x hx hxf => ⟨hx, Function.update_of_ne hxf ..⟩, fun _ _ _ _ => Iff.rfl⟩,
    gap, fun L hL => ?_, ?_, hqueue⟩
  · obtain ⟨horder, hf⟩ := hlist L hL
    show Function.update s₁.order e _ e = _
    rw [Function.update_self, horder, listAddTail_append hf]
    simp [Piece.nodes]
  · cases gap with
    | none => exact hgap
    | some g =>
      obtain ⟨hlt, hg, hblock, hin⟩ := hgap
      refine ⟨hlt, hg, ?_, hin⟩
      show Function.update s₁.fblock f _ g = _
      rw [Function.update_of_ne fun he => hgf (congrArg some he), hblock]
      show _ = FreeBlock.mk (Function.update s₁.device e _ e).index _ _
      rw [Function.update_self]

/-- `device_load_post`: nothing but the remaining space changes. -/
theorem loadPost (h : Front d f front its s) (hp : s.deviceLoadPost d = some s') :
    LoadFrame d f s s' ∧ s'.item = s.item ∧ s'.items = s.items := by
  rw [Space.deviceLoadPost, h.current] at hp
  simp only [Option.bind_eq_bind, Option.bind_some] at hp
  split at hp
  · obtain ⟨e, he, rfl⟩ := Option.map_eq_some_iff.mp hp
    obtain rfl : e = d := by
      rw [Space.deviceOfFblock, h.owner] at he
      rcases h.index with hi | hi
      · rw [hi, IdxPointer.get_neg_one] at he
        cases he
      · exact Option.some.inj (he.symm.trans hi)
    refine ⟨⟨deviceFblockDelete_same hp, fun x hx => Function.update_of_ne hx .., fun g hg hgf => ⟨?_, rfl⟩,
      fun _ _ hgf _ => List.mem_erase_of_ne hgf⟩, rfl, rfl⟩
    exact List.mem_filter.mpr ⟨hg, by simpa using hgf⟩
  · cases hp
    exact ⟨⟨(ipbucketDel_same f s).trans (ipbucketAdd_same f _), fun _ _ => rfl, fun g hg _ => ⟨hg, rfl⟩,
      fun _ _ hgf i => (Space.mem_queue_ipbucketAdd hgf _ i).trans (List.mem_erase_of_ne hgf)⟩, rfl, rfl⟩

end Front

/-! ## Items from records -/

namespace Master

/-- The server of a record that passes the checks. -/
def picks (override : Int) (ports : Nat → Nat) (m : Master) (x : FormatItem) : Option Nat :=
  if x.offset < override ∨ x.expire ≤ m.now then none else m.serverByPort (ports x.serverIndex.toNat)

/-- The item of a record, on device `d` and for server `s`. -/
def restoredItem (d s : Nat) (x : FormatItem) (m : Master) : Item where
  id := x.hashId
  length := x.length
  expire := x.expire
  offset := x.place
  putting := false
  deleted := false
  badblock := false
  serverIndex := (m.server s).index
  deviceIndex := (m.space.device d).index
  headersLen := x.headersLen
  used := 0
  clear := 0

/-- The nodes of loaded items in the hash of server `s`, newest first. -/
def loadedNodes (s : Nat) (t : List (Nat × Nat × FormatItem)) : List (HashNode Entry) :=
  ((t.filter fun x => x.2.1 = s).map fun x => ⟨x.2.2.hashId, .item x.1⟩).reverse

theorem loadedNodes_append (s : Nat) (t t' : List (Nat × Nat × FormatItem)) :
    loadedNodes s (t ++ t') = loadedNodes s t' ++ loadedNodes s t := by
  rw [loadedNodes, List.filter_append, List.map_append, List.reverse_append]
  rfl

theorem mem_loadedNodes {s : Nat} {t : List (Nat × Nat × FormatItem)} {n : HashNode Entry} :
    n ∈ loadedNodes s t ↔ ∃ x ∈ t, x.2.1 = s ∧ n = ⟨x.2.2.hashId, .item x.1⟩ := by
  simp only [loadedNodes, List.mem_reverse, List.mem_map, List.mem_filter, decide_eq_true_eq]
  constructor
  · rintro ⟨x, ⟨hx, hs⟩, rfl⟩
    exact ⟨x, hx, hs, rfl⟩
  · rintro ⟨x, hx, hs, rfl⟩
    exact ⟨x, ⟨hx, hs⟩, rfl⟩

/-- The items `t` (address, server and record) were entered. -/
structure Entered (t : List (Nat × Nat × FormatItem)) (m m' : Master) : Prop where
  now : m'.now = m.now
  servers : m'.servers = m.servers
  server : ∀ s, ∃ c n k, m'.server s = { m.server s with consumed := c, content := n, itemNr := k }
  devices : SameDevices m.space m'.space
  nodup : (t.map (·.1)).Nodup
  fresh : ∀ x ∈ t, x.1 ∉ m.space.items
  items : ∀ a, a ∈ m'.space.items ↔ a ∈ m.space.items ∨ ∃ x ∈ t, x.1 = a
  old : ∀ a ∈ m.space.items, m'.space.item a = m.space.item a
  live : ∀ x ∈ t, (m'.space.item x.1).deleted = false
  hash : ∀ s L, HashHolds (m.hash s) L → (∀ n ∈ L, ∀ a, n.node = .item a → a ∈ m.space.items) →
    HashHolds (m'.hash s) (loadedNodes s t ++ L)

namespace Entered

variable {m m' m'' : Master} {t t' : List (Nat × Nat × FormatItem)}

/-- Nothing was entered. -/
theorem nothing (hm : m'.now = m.now ∧ m'.servers = m.servers ∧ m'.server = m.server ∧ m'.hash = m.hash)
    (hdev : SameDevices m.space m'.space) (hitems : ∀ a, a ∈ m'.space.items ↔ a ∈ m.space.items)
    (hold : ∀ a ∈ m.space.items, m'.space.item a = m.space.item a) : Entered [] m m' where
  now := hm.1
  servers := hm.2.1
  server s := ⟨_, _, _, by rw [hm.2.2.1]⟩
  devices := hdev
  nodup := List.nodup_nil
  fresh := nofun
  items a := by rw [hitems]; simp
  old := hold
  live := nofun
  hash s L hL _ := by
    rw [hm.2.2.2]
    exact hL

theorem refl (m : Master) : Entered [] m m := nothing ⟨rfl, rfl, rfl, rfl⟩ (.refl _) (fun _ => Iff.rfl) fun _ _ => rfl

theorem trans (h : Entered t m m') (h' : Entered t' m' m'') : Entered (t ++ t') m m'' where
  now := h'.now.trans h.now
  servers := h'.servers.trans h.servers
  server s := by
    obtain ⟨c, n, k, hs⟩ := h.server s
    obtain ⟨c', n', k', hs'⟩ := h'.server s
    exact ⟨c', n', k', by rw [hs', hs]⟩
  devices := h.devices.trans h'.devices
  nodup := by
    rw [List.map_append, List.nodup_append]
    refine ⟨h.nodup, h'.nodup, fun a ha b hb hab => ?_⟩
    obtain ⟨x, hx, rfl⟩ := List.mem_map.mp ha
    obtain ⟨y, hy, rfl⟩ := List.mem_map.mp hb
    exact h'.fresh y hy ((h.items _).mpr (.inr ⟨x, hx, hab⟩))
  fresh x hx hmem := by
    rcases List.mem_append.mp hx with hx | hx
    · exact h.fresh x hx hmem
    · exact h'.fresh x hx ((h.items _).mpr (.inl hmem))
  items a := by
    rw [h'.items, h.items]
    simp only [List.mem_append, or_and_right, exists_or, or_assoc]
  old a ha := by rw [h'.old a ((h.items a).mpr (.inl ha)), h.old a ha]
  live x hx := by
    rcases List.mem_append.mp hx with hx | hx
    · rw [h'.old x.1 ((h.items _).mpr (.inr ⟨x, hx, rfl⟩)), h.live x hx]
    · exact h'.live x hx
  hash s L hL hitems := by
    rw [loadedNodes_append, List.append_assoc]
    refine h'.hash s _ (h.hash s L hL hitems) fun n hn a ha => (h.items a).mpr ?_
    rcases List.mem_append.mp hn with hn | hn
    · obtain ⟨x, hx, -, rfl⟩ := mem_loadedNodes.mp hn
      cases ha
      exact .inr ⟨x, hx, rfl⟩
    · exact .inl (hitems n hn a ha)

theorem serverByPort (h : Entered t m m') (port : Nat) : m'.serverByPort port = m.serverByPort port := by
  unfold Master.serverByPort
  rw [h.servers]
  congr 1
  funext s
  obtain ⟨_, _, _, hs⟩ := h.server s
  rw [hs]

theorem picks (h : Entered t m m') (override : Int) (ports : Nat → Nat) :
    m'.picks override ports = m.picks override ports := by
  funext x
  rw [Master.picks, Master.picks, h.now, h.serverByPort]

end Entered

/-- The items `t` were loaded to device `d`. -/
structure Restored (d : Nat) (t : List (Nat × Nat × FormatItem)) (m m' : Master) : Prop extends Entered t m m' where
  item : ∀ x ∈ t, m'.space.item x.1 = m.restoredItem d x.2.1 x.2.2

namespace Restored

variable {rt : Runtime} {m m' m'' : Master} {d f front : Nat} {its : List Nat} {t t' : List (Nat × Nat × FormatItem)}

theorem refl (d : Nat) (m : Master) : Restored d [] m m := ⟨.refl m, nofun⟩

theorem trans (h : Restored d t m m') (h' : Restored d t' m' m'') : Restored d (t ++ t') m m'' := by
  refine ⟨h.toEntered.trans h'.toEntered, fun x hx => ?_⟩
  rcases List.mem_append.mp hx with hx | hx
  · rw [h'.old x.1 ((h.items _).mpr (.inr ⟨x, hx, rfl⟩)), h.item x hx]
  · obtain ⟨_, _, _, hs⟩ := h.server x.2.1
    obtain ⟨_, _, hd⟩ := h.devices.device d
    rw [h'.item x hx, restoredItem, restoredItem, hs, hd]

/-- The item is entered. -/
theorem entered {s a k : Nat} {x : FormatItem} {sp : Space} (ha : a ∉ m.space.items)
    (hdev : SameDevices m.space sp) (hitem : sp.item = (m.loadDraft s d a x).space.item)
    (hitems : sp.items = a :: m.space.items) :
    Restored d [(a, s, x)] m (({ m.loadDraft s d a x with space := sp } : Master).enter rt s d a k x) where
  now := rfl
  servers := rfl
  server y := by
    show ∃ c n k, Function.update m.server s _ y = _
    by_cases hy : y = s
    · subst hy
      rw [Function.update_self]
      exact ⟨_, _, _, rfl⟩
    · rw [Function.update_of_ne hy]
      exact ⟨_, _, _, rfl⟩
  devices := ⟨hdev.devices, hdev.deletedDevices, hdev.deviceIndexs, hdev.badblockPercent, hdev.device⟩
  nodup := List.nodup_singleton a
  fresh y hy := by
    rw [List.mem_singleton.mp hy]
    exact ha
  items b := by
    show b ∈ sp.items ↔ _
    rw [hitems]
    simp [or_comm, eq_comm]
  old b hb := by
    have hba : b ≠ a := fun he => ha (he ▸ hb)
    show Function.update sp.item a _ b = _
    rw [Function.update_of_ne hba, hitem]
    exact Function.update_of_ne hba ..
  live y hy := by
    rw [List.mem_singleton.mp hy]
    show (Function.update sp.item a { sp.item a with id := x.hashId } a).deleted = _
    rw [Function.update_self, hitem]
    show (Function.update m.space.item a _ a).deleted = _
    rw [Function.update_self]
  item y hy := by
    rw [List.mem_singleton.mp hy]
    show Function.update sp.item a { sp.item a with id := x.hashId } a = _
    rw [Function.update_self, hitem]
    show { Function.update m.space.item a _ a with id := x.hashId } = _
    rw [Function.update_self]
    rfl
  hash y L hL hnodes := by
    show HashHolds (Function.update m.hash s (hashAdd _ (m.hash s) ⟨x.hashId, .item a⟩) y) _
    by_cases hy : y = s
    · subst hy
      rw [Function.update_self, loadedNodes, List.filter_cons_of_pos (by simp)]
      exact hL.hashAdd _ fun hn => ha (hnodes _ hn a rfl)
    · rw [Function.update_of_ne hy, loadedNodes, List.filter_cons_of_neg (by simpa using Ne.symm hy)]
      exact hL

/-- **One record** of a device that is loaded. -/
theorem loadCase {s : Nat} {x : FormatItem} (h : Front d f front its m.space) (hc : LoadCase rt s d x m m') :
    ∃ t its' front', Restored d t m m' ∧ Front d f front' its' m'.space ∧ LoadFrame d f m.space m'.space ∧
      ((t = [] ∧ its' = its ∧ front' = front ∧ (m'.space.order d = m.space.order d ∧ m'.space.queue = m.space.queue) ∧
          (x.FitsAt front (m.space.device d).capacity → ¬∀ n l, (rt.al.get n l).isSome)) ∨
        (x.FitsAt front (m.space.device d).capacity ∧ front' = x.place + x.size ∧ ∃ p,
          CutAt rt.al d f front x.place p m.space m'.space ∧ p.item ∉ m.space.items ∧ its' = its ++ [p.item] ∧
          (x.size = 0 ∧ t = [] ∨ x.size ≠ 0 ∧ t = [(p.item, s, x)]))) := by
  -- What the cut does for a new item.
  have hcut : ∀ {a k : Nat} {sp : Space}, rt.al.get m.calls m.space.items = some a →
      (m.loadDraft s d a x).space.deviceCutFreeBlock rt.al a = some (k, sp) →
      x.FitsAt front (m.space.device d).capacity ∧ k = x.size ∧ Front d f (x.place + x.size) (its ++ [a]) sp ∧
        LoadFrame d f m.space sp ∧ (∃ gap, CutAt rt.al d f front x.place ⟨gap, a⟩ m.space sp) ∨
      ¬x.FitsAt front (m.space.device d).capacity ∧ k = 0 ∧ sp = (m.loadDraft s d a x).space := by
    intro a k sp ha hk
    have hself : (m.loadDraft s d a x).space.item a = { m.space.item a with
        putting := false, badblock := false, deleted := false, used := 0, clear := 0
        serverIndex := (m.server s).index, length := x.length, expire := x.expire, headersLen := x.headersLen
        offset := x.place, deviceIndex := (m.space.device d).index } := Function.update_self ..
    have h₁ : Front d f front its (m.loadDraft s d a x).space :=
      ⟨h.order, h.live, h.offset, h.size, h.capacity, h.owner, h.index⟩
    have hcases := h₁.cut (rt.al.fresh ha) (by rw [hself]; rfl) hk
    rw [hself] at hcases
    rcases hcases with ⟨h1, h2, h3, h4, h5, gap, h6⟩ | ⟨h1, h2, h3⟩
    · exact .inl ⟨⟨h1, h2⟩, h3, h4, h5.items rfl rfl, gap, h6.order, h6.gap, h6.queue⟩
    · exact .inr ⟨h1, h2, h3⟩
  cases hc with
  | noMem hno =>
    refine ⟨[], its, front, ⟨.nothing ⟨rfl, rfl, rfl, rfl⟩ (.refl _) (fun _ => Iff.rfl) fun _ _ => rfl, nofun⟩, h,
      .refl .., .inl ⟨rfl, rfl, rfl, ⟨rfl, rfl⟩, fun _ hal => ?_⟩⟩
    have hsome := hal m.calls m.space.items
    rw [hno] at hsome
    cases hsome
  | @noFit a sp ha hk =>
    have hnew := rt.al.fresh ha
    obtain ⟨hitem, hitems⟩ := Space.deviceCutFreeBlock_located hk
    -- Nothing is left of the object.
    have hnothing : SameDevices m.space sp → Restored d [] m { m.loadDraft s d a x with space := sp.itemFree a } := by
      intro hdev
      refine ⟨.nothing ⟨rfl, rfl, rfl, rfl⟩ ⟨hdev.devices, hdev.deletedDevices, hdev.deviceIndexs, hdev.badblockPercent,
        hdev.device⟩ (fun b => ?_) fun b hb => ?_, nofun⟩
      · show b ∈ sp.items.filter _ ↔ _
        rw [List.mem_filter]
        have hmem : b ∈ sp.items ∧ b ≠ a ↔ b ∈ m.space.items ∧ b ≠ a := by
          rcases hitems with ⟨-, hi⟩ | ⟨-, -, hi⟩
          · rw [hi]
            rfl
          · rw [hi, List.mem_cons]
            exact ⟨fun hb => ⟨hb.1.resolve_left hb.2, hb.2⟩, fun hb => ⟨.inr hb.1, hb.2⟩⟩
        simp only [ne_eq, decide_not, Bool.not_eq_eq_eq_not, Bool.not_true, decide_eq_false_iff_not]
        rw [← ne_eq, hmem]
        exact ⟨And.left, fun hb => ⟨hb, fun he => hnew (he ▸ hb)⟩⟩
      · have hba : b ≠ a := fun he => hnew (he ▸ hb)
        show sp.item b = _
        rw [hitem]
        exact Function.update_of_ne hba ..
    rcases hcut ha hk with ⟨hfit, hsize, hfront, hframe, gap, hgap⟩ | ⟨hfit, -, rfl⟩
    · exact ⟨[], _, _, hnothing hframe.same, ⟨hfront.order, hfront.live, hfront.offset, hfront.size, hfront.capacity,
        hfront.owner, hfront.index⟩, hframe.items rfl rfl, .inr ⟨hfit, rfl, ⟨gap, a⟩,
        ⟨hgap.order, by cases gap <;> exact hgap.gap, hgap.queue⟩, hnew, rfl, .inl ⟨hsize.symm, rfl⟩⟩⟩
    · exact ⟨[], its, front, hnothing ⟨rfl, rfl, rfl, rfl, fun _ => ⟨_, _, rfl⟩⟩, ⟨h.order, h.live, h.offset, h.size,
        h.capacity, h.owner, h.index⟩, (LoadFrame.refl ..).items rfl rfl,
        .inl ⟨rfl, rfl, rfl, ⟨rfl, rfl⟩, fun hf => absurd hf hfit⟩⟩
  | @ok a k sp ha hk hne =>
    obtain ⟨hitem, hitems⟩ := Space.deviceCutFreeBlock_located hk
    have hitems : sp.items = a :: m.space.items := by
      rcases hitems with ⟨h0, -⟩ | ⟨-, -, hi⟩
      · exact absurd h0 hne
      · exact hi
    rcases hcut ha hk with ⟨hfit, hsize, hfront, hframe, gap, hgap⟩ | ⟨-, h0, -⟩
    · exact ⟨[(a, s, x)], _, _, entered (rt.al.fresh ha) hframe.same hitem hitems, ⟨hfront.order, hfront.live,
        hfront.offset, hfront.size, hfront.capacity, hfront.owner, hfront.index⟩, hframe.items rfl rfl,
        .inr ⟨hfit, rfl, ⟨gap, a⟩, ⟨hgap.order, by cases gap <;> exact hgap.gap, hgap.queue⟩, rt.al.fresh ha, rfl,
          .inr ⟨hsize ▸ hne, rfl⟩⟩⟩
    · exact absurd h0 hne

end Restored

/-! ## The loop -/

namespace Restored

variable {rt : Runtime} {m m' : Master} {d f front : Nat} {its : List Nat}

/-- What loading the records `l` comes to, from `front` on. -/
def Loaded (rt : Runtime) (d f front : Nat) (its : List Nat) (pick : FormatItem → Option Nat) (l : List FormatItem)
    (m m' : Master) : Prop :=
  ∃ t its' front', Restored d t m m' ∧ Front d f front' its' m'.space ∧ LoadFrame d f m.space m'.space ∧
    (t.map (·.2)).Sublist (picked pick l) ∧
    ((∀ n l, (rt.al.get n l).isSome) → t.map (·.2) = taken pick (m.space.device d).capacity front l) ∧
    ((∀ x ∈ l, x.size ≠ 0) → its' = its ++ t.map (·.1))

/-- **The loop of `format_load_device`.** -/
theorem loadItems {io : FormatIo} {image : Nat → UInt8} {override : Int} {ports : Nat → Nat} {n i : Nat} {all : Bool}
    (h : Front d f front its m.space) (hl : m.loadItems rt io d image override ports n i = some (all, m')) :
    Loaded rt d f front its (m.picks override ports) (readRecords io image n i) m m' := by
  induction n generalizing m i front its with
  | zero =>
    cases hl
    exact ⟨[], its, front, .refl .., h, .refl .., .refl _, fun _ => rfl, fun _ => (List.append_nil its).symm⟩
  | succ n ih =>
    unfold Master.loadItems at hl
    split at hl
    · next hfail =>
      cases hl
      rw [readRecords, if_pos hfail]
      exact ⟨[], its, front, .refl .., h, .refl .., .refl _, fun _ => rfl, fun _ => (List.append_nil its).symm⟩
    next hread =>
    rw [readRecords, if_neg hread]
    simp only at hl
    -- A record that is not picked changes nothing.
    have hskip : m.picks override ports (recordAt image i) = none →
        m.loadItems rt io d image override ports n (i + 1) = some (all, m') →
        Loaded rt d f front its (m.picks override ports) (recordAt image i :: readRecords io image n (i + 1)) m m' := by
      intro hp hl
      obtain ⟨t, its', front', h1, h2, h3, h4, h5, h6⟩ := ih h hl
      refine ⟨t, its', front', h1, h2, h3, ?_, ?_, fun hz => h6 fun x hx => hz x (List.mem_cons_of_mem _ hx)⟩
      · rw [picked, List.filterMap_cons, hp]
        exact h4
      · rw [taken, hp]
        exact h5
    split at hl
    · next hcheck => exact hskip (if_pos hcheck) hl
    next hcheck =>
    have hpick : m.picks override ports (recordAt image i) = m.serverByPort (ports (recordAt image i).serverIndex.toNat) :=
      if_neg hcheck
    split at hl
    · cases hl
    split at hl
    · next hno => exact hskip (hpick.trans hno) hl
    next s hs =>
    obtain ⟨m₁, h₁, hl⟩ := Option.bind_eq_some_iff.mp hl
    have h₁ : m.serverLoadFmItem rt s d (recordAt image i) = some m₁ := h₁
    have hpick := hpick.trans hs
    obtain ⟨t₁, its₁, front₁, hr₁, hf₁, hframe₁, hcase⟩ := loadCase h (serverLoadFmItem_cases h₁)
    obtain ⟨t, its', front', h1, h2, h3, h4, h5, h6⟩ := ih hf₁ hl
    obtain ⟨_, _, hdev⟩ := hframe₁.same.device d
    rw [hr₁.picks] at h4 h5
    rw [hdev] at h5
    have hsub : picked (m.picks override ports) (recordAt image i :: readRecords io image n (i + 1)) =
        (s, recordAt image i) :: picked (m.picks override ports) (readRecords io image n (i + 1)) := by
      rw [picked, List.filterMap_cons, hpick]
      rfl
    refine ⟨t₁ ++ t, its', front', hr₁.trans h1, h2, hframe₁.trans h3, ?_, fun hal => ?_, fun hz => ?_⟩
    · rw [hsub, List.map_append]
      rcases hcase with ⟨rfl, -⟩ | ⟨-, -, p, -, -, -, ⟨-, rfl⟩ | ⟨-, rfl⟩⟩
      · exact h4.cons _
      · exact h4.cons _
      · exact h4.cons_cons _
    · have h5 := h5 hal
      rw [taken, hpick, List.map_append]
      simp only
      rcases hcase with ⟨rfl, -, rfl, -, hno⟩ | ⟨hfit, rfl, p, -, -, -, ⟨hzero, rfl⟩ | ⟨hne, rfl⟩⟩
      · rw [if_neg fun hfit => hno hfit hal]
        exact h5
      · rw [if_pos hfit, if_pos hzero]
        exact h5
      · rw [if_pos hfit, if_neg hne, h5]
        rfl
    · have h6 := h6 fun x hx => hz x (List.mem_cons_of_mem _ hx)
      rw [h6, List.map_append, ← List.append_assoc]
      rcases hcase with ⟨rfl, rfl, -⟩ | ⟨-, -, p, -, -, rfl, ⟨hzero, -⟩ | ⟨-, rfl⟩⟩
      · rw [List.map_nil, List.append_nil]
      · exact absurd hzero (hz _ List.mem_cons_self)
      · rfl

end Restored

/-! ## A device -/

/-- The records that are read of a device. -/
def recordsOn (io : FormatIo) (image : Nat → UInt8) : List FormatItem :=
  if !io.opens || !io.info then [] else (formatInfo image).elim [] fun x => readRecords io image x.1.toNat 0

/-- The server of a record of a device, if it passes the checks. -/
def picksOn (image : Nat → UInt8) (m : Master) (x : FormatItem) : Option Nat :=
  (formatInfo image).bind fun y => m.picks (toI64 (ohcFmInfoSize + y.1 * formatItemSize)) y.2 x

theorem Entered.picksOn {m m' : Master} {t : List (Nat × Nat × FormatItem)} (h : Entered t m m') (image : Nat → UInt8) :
    m'.picksOn image = m.picksOn image := by
  funext x
  unfold Master.picksOn
  congr 1
  funext y
  rw [h.picks]

/-- The part of `format_load_device` behind the checks of the superblock. -/
def loadAccepted (rt : Runtime) (io : FormatIo) (d : Nat) (image : Nat → UInt8) (n : Int) (ports : Nat → Nat) (m : Master) :
    Option (Bool × (Nat → UInt8) × Master) := do
  let (all, m) ← m.loadItems rt io d image (toI64 (ohcFmInfoSize + n * formatItemSize)) ports n.toNat 0
  if !all then some (false, image, m)
  else do
    let space ← m.space.deviceLoadPost d
    let m := { m with space }
    if io.clear then some (true, imageWrite 0 (lit "FeiLiWuShi") image, m) else some (false, image, m)

theorem ite_elim_info {β : Type} (buffer : List UInt8) (x : β) (k : Int → (Nat → Nat) → β) :
    (if leNat (buffer.take 8) ≠ ohcFmMagic ∨ leInt ((buffer.drop 8).take 4) ≠ ohcFmVersion then x
      else if formatChecksum buffer ≠ ohcFmChsFeed then x
      else k (leInt ((buffer.drop 24).take 8)) fun i => leNat ((buffer.drop (superblockSize + 2 * i)).take 2)) =
    (if leNat (buffer.take 8) ≠ ohcFmMagic ∨ leInt ((buffer.drop 8).take 4) ≠ ohcFmVersion then none
      else if formatChecksum buffer ≠ ohcFmChsFeed then none
      else some (leInt ((buffer.drop 24).take 8),
        fun i => leNat ((buffer.drop (superblockSize + 2 * i)).take 2))).elim x fun y => k y.1 y.2 := by
  split
  · rfl
  split
  · rfl
  · rfl

theorem formatLoadDevice_eq (rt : Runtime) (io : FormatIo) (d : Nat) (image : Nat → UInt8) (m : Master) :
    m.formatLoadDevice rt io d image = if !io.opens || !io.info then some (false, image, m) else
      (formatInfo image).elim (some (false, image, m)) fun x => m.loadAccepted rt io d image x.1 x.2 := by
  by_cases hio : (!io.opens || !io.info) = true
  · rw [formatLoadDevice, if_pos hio, if_pos hio]
  · rw [formatLoadDevice, if_neg hio, if_neg hio]
    exact ite_elim_info (imageRead image 0 ohcFmInfoSize) _ fun n ports => m.loadAccepted rt io d image n ports

/-- What `format_load_device` can do. -/
inductive LoadDeviceCase (rt : Runtime) (io : FormatIo) (d : Nat) (image : Nat → UInt8) (m : Master) :
    Bool → (Nat → UInt8) → Master → Prop
  | refused : recordsOn io image = [] → LoadDeviceCase rt io d image m false image m
  | broken {n : Int} {ports : Nat → Nat} {m' : Master} : recordsOn io image = readRecords io image n.toNat 0 →
      formatInfo image = some (n, ports) →
      m.loadItems rt io d image (toI64 (ohcFmInfoSize + n * formatItemSize)) ports n.toNat 0 = some (false, m') →
      LoadDeviceCase rt io d image m false image m'
  | loaded {n : Int} {ports : Nat → Nat} {m' : Master} {sp : Space} :
      recordsOn io image = readRecords io image n.toNat 0 → formatInfo image = some (n, ports) →
      m.loadItems rt io d image (toI64 (ohcFmInfoSize + n * formatItemSize)) ports n.toNat 0 = some (true, m') →
      m'.space.deviceLoadPost d = some sp →
      LoadDeviceCase rt io d image m io.clear (if io.clear then imageWrite 0 (lit "FeiLiWuShi") image else image)
        { m' with space := sp }

theorem formatLoadDevice_cases {rt : Runtime} {io : FormatIo} {d : Nat} {image image' : Nat → UInt8} {m m' : Master}
    {ok : Bool} (h : m.formatLoadDevice rt io d image = some (ok, image', m')) :
    LoadDeviceCase rt io d image m ok image' m' := by
  rw [formatLoadDevice_eq] at h
  by_cases hio : (!io.opens || !io.info) = true
  · rw [if_pos hio] at h
    cases h
    exact .refused (if_pos hio)
  have hrecords : recordsOn io image = (formatInfo image).elim [] fun x => readRecords io image x.1.toNat 0 := if_neg hio
  rw [if_neg hio] at h
  cases hinfo : formatInfo image with
  | none =>
    rw [hinfo] at h hrecords
    cases h
    exact .refused hrecords
  | some x =>
    obtain ⟨n, ports⟩ := x
    rw [hinfo] at h hrecords
    obtain ⟨⟨all, m₁⟩, h₁, h⟩ := Option.bind_eq_some_iff.mp h
    cases all with
    | false =>
      cases h
      exact .broken hrecords hinfo h₁
    | true =>
      obtain ⟨sp, hsp, h⟩ := Option.bind_eq_some_iff.mp h
      have hcase := LoadDeviceCase.loaded hrecords hinfo h₁ hsp
      cases hclear : io.clear with
      | false =>
        rw [hclear] at h hcase
        cases h
        exact hcase
      | true =>
        rw [hclear] at h hcase
        cases h
        exact hcase

/-- **A device that has its block**: the records become items as far as they
are `taken`. -/
theorem LoadDeviceCase.restored {rt : Runtime} {io : FormatIo} {d f front : Nat} {its : List Nat} {image image' : Nat → UInt8}
    {m m' : Master} {ok : Bool} (h : Front d f front its m.space) (hc : LoadDeviceCase rt io d image m ok image' m') :
    ∃ t, Restored d t m m' ∧ LoadFrame d f m.space m'.space ∧
      (t.map (·.2)).Sublist (picked (m.picksOn image) (recordsOn io image)) ∧
      ((∀ n l, (rt.al.get n l).isSome) →
        t.map (·.2) = taken (m.picksOn image) (m.space.device d).capacity front (recordsOn io image)) := by
  -- The picks are those of the loop, when the superblock is accepted.
  have hpicks : ∀ {n : Int} {ports : Nat → Nat}, formatInfo image = some (n, ports) →
      m.picksOn image = m.picks (toI64 (ohcFmInfoSize + n * formatItemSize)) ports := by
    intro n ports hinfo
    funext x
    rw [Master.picksOn, hinfo]
    rfl
  cases hc with
  | refused hno =>
    rw [hno]
    exact ⟨[], .refl .., .refl .., .refl _, fun _ => rfl⟩
  | broken hrecords hinfo hl =>
    obtain ⟨t, -, -, h1, -, h3, h4, h5, -⟩ := Restored.loadItems h hl
    rw [hrecords, hpicks hinfo]
    exact ⟨t, h1, h3, h4, h5⟩
  | @loaded n ports m₁ sp hrecords hinfo hl hp =>
    obtain ⟨t, its', front', h1, h2, h3, h4, h5, -⟩ := Restored.loadItems h hl
    obtain ⟨hframe, hitem, hitems⟩ := h2.loadPost hp
    have hpost : Restored d [] m₁ { m₁ with space := sp } :=
      ⟨.nothing ⟨rfl, rfl, rfl, rfl⟩ hframe.same (fun a => by rw [hitems]) fun a _ => by rw [hitem], nofun⟩
    rw [hrecords, hpicks hinfo]
    have hall := h1.trans hpost
    rw [List.append_nil] at hall
    exact ⟨t, hall, h3.trans hframe, h4, h5⟩

/-- A device that has no block gets no item: where there was memory for one,
there is no place to look for. -/
theorem loadItems_nowhere {rt : Runtime} {io : FormatIo} {d : Nat} {image : Nat → UInt8} {m m' : Master} {override : Int}
    {ports : Nat → Nat} {n i : Nat} {all : Bool} (hcur : m.space.current d = none)
    (hidx : (m.space.device d).index = -1 ∨ m.space.deviceIndexs.get (m.space.device d).index = some d)
    (hl : m.loadItems rt io d image override ports n i = some (all, m')) : m'.space = m.space ∧ Entered [] m m' := by
  refine loadItems_rule (P := fun m₁ => m₁.space = m.space ∧ Entered [] m m₁) (fun {m₁ m₂ s x} h _ hc => ?_)
    ⟨rfl, .refl m⟩ hl
  obtain ⟨hsp, hm⟩ := h
  -- The object finds the device, and nothing in its list.
  have hnone : ∀ {a k : Nat} {sp : Space}, (m₁.loadDraft s d a x).space.deviceCutFreeBlock rt.al a ≠ some (k, sp) := by
    intro a k sp hk
    unfold Space.deviceCutFreeBlock at hk
    obtain ⟨e, he, hk⟩ := Option.bind_eq_some_iff.mp hk
    have hself : ((m₁.loadDraft s d a x).space.item a).deviceIndex = (m.space.device d).index := by
      rw [← hsp]
      show (Function.update m₁.space.item a _ a).deviceIndex = _
      rw [Function.update_self]
    rw [Space.deviceOfItem, hself] at he
    have he : m.space.deviceIndexs.get (m.space.device d).index = some e := by
      rw [← he, ← hsp]
      rfl
    obtain rfl : e = d := by
      rcases hidx with hi | hi
      · rw [hi, IdxPointer.get_neg_one] at he
        cases he
      · exact Option.some.inj (he.symm.trans hi)
    have hcur' : (m₁.loadDraft s e a x).space.current e = none := by
      rw [← hcur, ← hsp]
      rfl
    rw [hcur'] at hk
    cases hk
  cases serverLoadFmItem_cases hc with
  | noMem =>
    exact ⟨hsp, hm.trans (.nothing ⟨rfl, rfl, rfl, rfl⟩ (.refl _) (fun _ => Iff.rfl) fun _ _ => rfl)⟩
  | noFit _ hk => exact absurd hk hnone
  | ok _ hk _ => exact absurd hk hnone

theorem LoadDeviceCase.nowhere {rt : Runtime} {io : FormatIo} {d : Nat} {image image' : Nat → UInt8} {m m' : Master} {ok : Bool}
    (hcur : m.space.current d = none)
    (hidx : (m.space.device d).index = -1 ∨ m.space.deviceIndexs.get (m.space.device d).index = some d)
    (hc : LoadDeviceCase rt io d image m ok image' m') : m'.space = m.space ∧ Entered [] m m' := by
  cases hc with
  | refused => exact ⟨rfl, .refl m⟩
  | broken _ _ hl => exact loadItems_nowhere hcur hidx hl
  | @loaded n ports m₁ sp _ _ hl hp =>
    obtain ⟨hsp, -⟩ := loadItems_nowhere hcur hidx hl
    rw [Space.deviceLoadPost, hsp, hcur] at hp
    cases hp

/-! ## A load that goes through -/

/-- The calls on a file that does not fail. -/
def plainIo : FormatIo := ⟨true, true, fun _ => true, true⟩

/-- A record that passes the first check names a server of the dump. -/
def Sound (override : Int) (ports : Nat → Nat) (m : Master) (x : FormatItem) : Prop :=
  ¬(x.offset < override ∨ x.expire ≤ m.now) →
    ¬(x.serverIndex < 0 ∨ x.serverIndex ≥ iptArraySize ∨ ports x.serverIndex.toNat = 0)

section Progress

variable {rt : Runtime} {io : FormatIo} {d f front : Nat} {its : List Nat} {image : Nat → UInt8} {m m' : Master}
  {override : Int} {ports : Nat → Nat} {n i : Nat} {all : Bool}

theorem serverLoadFmItem_some (h : Front d f front its m.space)
    (hidx : m.space.deviceIndexs.get (m.space.device d).index = some d) (s : Nat) (x : FormatItem) :
    ∃ m', m.serverLoadFmItem rt s d x = some m' := by
  unfold serverLoadFmItem
  cases ha : rt.al.get m.calls m.space.items with
  | none => exact ⟨_, rfl⟩
  | some a =>
    obtain ⟨k, sp, hk⟩ : ∃ k sp, (m.loadDraft s d a x).space.deviceCutFreeBlock rt.al a = some (k, sp) := by
      have hself : ((m.loadDraft s d a x).space.item a).deviceIndex = (m.space.device d).index := by
        show (Function.update m.space.item a _ a).deviceIndex = _
        rw [Function.update_self]
      have hdevice : (m.loadDraft s d a x).space.deviceOfItem a = some d := by
        rw [Space.deviceOfItem, hself]
        exact hidx
      have hcurrent : (m.loadDraft s d a x).space.current d = some f := h.current
      unfold Space.deviceCutFreeBlock
      rw [hdevice]
      simp only [Option.bind_eq_bind, Option.bind_some, hcurrent]
      split
      · exact ⟨_, _, rfl⟩
      · rw [if_neg (show a ∉ (m.loadDraft s d a x).space.items from rt.al.fresh ha)]
        exact ⟨_, _, rfl⟩
    show ∃ m', Option.bind (Space.deviceCutFreeBlock rt.al a (m.loadDraft s d a x).space) _ = some m'
    rw [hk, Option.bind_some]
    simp only
    split
    · exact ⟨_, rfl⟩
    · exact ⟨_, rfl⟩

theorem loadItems_succ : m.loadItems rt io d image override ports (n + 1) i =
    if !io.record i then some (false, m)
    else if (recordAt image i).offset < override ∨ (recordAt image i).expire ≤ m.now then
      m.loadItems rt io d image override ports n (i + 1)
    else if (recordAt image i).serverIndex < 0 ∨ (recordAt image i).serverIndex ≥ iptArraySize ∨
        ports (recordAt image i).serverIndex.toNat = 0 then none
    else (m.serverByPort (ports (recordAt image i).serverIndex.toNat)).elim
      (m.loadItems rt io d image override ports n (i + 1)) fun s =>
        (m.serverLoadFmItem rt s d (recordAt image i)).bind fun m =>
          m.loadItems rt io d image override ports n (i + 1) := by
  rw [loadItems]
  simp only [recordAt]
  cases m.serverByPort (ports (FormatItem.ofBytes
      (imageRead image (ohcFmInfoSize + i * formatItemSize) formatItemSize)).serverIndex.toNat) with
  | none => rfl
  | some s => rfl

/-- **The loop comes to its end** if the records are sound. -/
theorem loadItems_some (h : Front d f front its m.space)
    (hidx : m.space.deviceIndexs.get (m.space.device d).index = some d)
    (hsound : ∀ x ∈ readRecords io image n i, m.Sound override ports x) :
    ∃ r, m.loadItems rt io d image override ports n i = some r := by
  induction n generalizing m i front its with
  | zero => exact ⟨_, rfl⟩
  | succ n ih =>
    rw [loadItems_succ]
    split
    · exact ⟨_, rfl⟩
    next hread =>
    rw [readRecords, if_neg hread] at hsound
    have hnext := fun x hx => hsound x (List.mem_cons_of_mem _ hx)
    split
    · exact ih h hidx hnext
    next hcheck =>
    rw [if_neg (hsound _ List.mem_cons_self hcheck)]
    cases hs : m.serverByPort (ports (recordAt image i).serverIndex.toNat) with
    | none => exact ih h hidx hnext
    | some s =>
    obtain ⟨m₁, h₁⟩ := serverLoadFmItem_some h hidx s (recordAt image i)
    obtain ⟨t, its', front', hr, hf, hframe, -⟩ := Restored.loadCase h (serverLoadFmItem_cases h₁)
    rw [Option.elim_some, h₁, Option.bind_some]
    obtain ⟨_, _, hdev⟩ := hframe.same.device d
    refine ih hf (by rw [hframe.same.deviceIndexs, hdev]; exact hidx) fun x hx => ?_
    rw [Sound, hr.now]
    exact hnext x hx

theorem loadItems_all (hio : ∀ i, io.record i = true) (h : m.loadItems rt io d image override ports n i = some (all, m')) :
    all = true := by
  induction n generalizing m i with
  | zero =>
    cases h
    rfl
  | succ n ih =>
    unfold loadItems at h
    rw [hio i] at h
    simp only [Bool.not_true, Bool.false_eq_true, if_false] at h
    split at h
    · exact ih h
    split at h
    · cases h
    split at h
    · exact ih h
    · obtain ⟨m₁, -, h⟩ := Option.bind_eq_some_iff.mp h
      exact ih h

theorem deviceLoadPost_some {s : Space} (h : Front d f front its s) (hidx : s.deviceIndexs.get (s.device d).index = some d) :
    ∃ sp, s.deviceLoadPost d = some sp := by
  rw [Space.deviceLoadPost, h.current]
  simp only [Option.bind_eq_bind, Option.bind_some]
  split
  · rw [Space.deviceFblockDelete, Space.deviceOfFblock, h.owner, hidx]
    exact ⟨_, rfl⟩
  · exact ⟨_, rfl⟩

/-- `format_load_device` returns `OHC_OK` when no call fails. -/
theorem formatLoadDevice_some {k : Int} (rt : Runtime) (h : Front d f front its m.space)
    (hidx : m.space.deviceIndexs.get (m.space.device d).index = some d)
    (hinfo : formatInfo image = some (k, ports)) (hsound : ∀ x ∈ recordsOn plainIo image, m.Sound (toI64 (ohcFmInfoSize + k * formatItemSize)) ports x) :
    ∃ m', m.formatLoadDevice rt plainIo d image = some (true, imageWrite 0 (lit "FeiLiWuShi") image, m') := by
  have hrecords : recordsOn plainIo image = readRecords plainIo image k.toNat 0 := by
    rw [recordsOn, hinfo]
    rfl
  rw [hrecords] at hsound
  obtain ⟨⟨all, m₁⟩, h₁⟩ := loadItems_some h hidx hsound
  obtain rfl := loadItems_all (fun _ => rfl) h₁
  obtain ⟨t, its', front', -, hf, hframe, -⟩ := Restored.loadItems h h₁
  obtain ⟨_, _, hdev⟩ := hframe.same.device d
  obtain ⟨sp, hsp⟩ := deviceLoadPost_some hf (by rw [hframe.same.deviceIndexs, hdev]; exact hidx)
  refine ⟨{ m₁ with space := sp }, ?_⟩
  rw [formatLoadDevice_eq, hinfo, Option.elim_some, loadAccepted, h₁]
  simp only [plainIo, Option.bind_eq_bind, Option.bind_some, Bool.not_true, Bool.or_false, Bool.false_eq_true, if_false,
    if_true]
  rw [hsp]
  rfl

end Progress

end Master

/-! ## What a dump gives back -/

theorem readRecords_range' {io : FormatIo} {image : Nat → UInt8} (hio : ∀ i, io.record i = true) (n i : Nat) :
    readRecords io image n i = (List.range' i n).map (recordAt image) := by
  induction n generalizing i with
  | zero => rfl
  | succ n ih =>
    rw [readRecords, hio, ih, List.range'_succ]
    rfl

namespace Stored

variable {ports : Nat → Nat} {records : List FormatItem} {image image' : Nat → UInt8}

theorem recordsOn (h : Stored ports records image image') : Master.recordsOn Master.plainIo image' = records := by
  obtain ⟨p, hinfo, -⟩ := h.info
  rw [Master.recordsOn, hinfo]
  simp only [Master.plainIo, Bool.not_true, Bool.or_false, Bool.false_eq_true, if_false, Option.elim_some, Int.toNat_natCast]
  rw [readRecords_range' fun _ => rfl]
  refine List.ext_getElem (by simp) fun i hi hi' => ?_
  rw [List.getElem_map, List.getElem_range', Nat.zero_add, Nat.one_mul, h.record i hi']

theorem picksOn (h : Stored ports records image image') {x : FormatItem} (hx : x.serverIndex < iptArraySize) (m : Master) :
    m.picksOn image' x = m.picks (toI64 (ohcFmInfoSize + records.length * formatItemSize)) ports x := by
  obtain ⟨p, hinfo, hp⟩ := h.info
  have hidx : x.serverIndex.toNat < iptArraySize := by
    rw [iptArraySize] at hx ⊢
    omega
  rw [Master.picksOn, hinfo, Option.bind_some]
  show Master.picks _ p m x = _
  rw [Master.picks, Master.picks, hp _ hidx]

end Stored

end OliveHc
