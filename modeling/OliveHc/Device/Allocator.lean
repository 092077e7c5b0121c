/-
The block allocator: what holds of every device after any sequence of its
operations.

The state is that of `device.c`, with the items that have a block. Who
deletes an item is `server_item_delete`, of which only its part here is
modelled: an item in use is marked, another one gives its block back.
-/
import OliveHc.Device.Load
import OliveHc.Device.Runs

namespace OliveHc

/-! ## The operations -/

/-- `server_item_delete`, as far as the blocks go. -/
def Space.itemDelete (al : Allocator) (a : Nat) (s : Space) : Option Space :=
  let item := s.item a
  if item.used ≠ 0 ∨ item.putting then some (s.setItem a { item with deleted := true })
  else (s.deviceReturnFreeBlock al a).map fun x => x.2.itemFree a

def spaceHost (al : Allocator) : Host Space := ⟨id, fun s _ => s, Space.itemDelete al⟩

/-- `server_load_fm_item`, as far as the blocks go: a new object `x.1`, which
is freed again if it gets no block. -/
def Space.loadItem (al : Allocator) (d : Nat) (x : Nat × Item) (s : Space) : Option Space :=
  if x.1 ∈ s.items then none
  else ((s.setItem x.1 { x.2 with deviceIndex := (s.device d).index }).deviceCutFreeBlock al x.1).map fun y =>
    if y.1 = 0 then y.2.itemFree x.1 else y.2

/-- A record of a well-formed dump: a block that was some item's. -/
structure Item.WellFormed (x : Item) : Prop where
  pos : 0 < x.length
  length : x.length < 2 ^ 32
  aligned : 512 ∣ x.offset

/-- The operations, each with the objects it is called for. The marks of an
item are set by its requests at any time. -/
inductive SpaceEvent
  | add (d file capacity : Nat)
  | get (a : Nat) (x : Item)
  | mark (a : Nat) (putting badblock : Bool) (used : Nat)
  | ret (a : Nat)
  | extend (target : Nat)
  | load (d : Nat) (records : List (Nat × Item))
  | delete (d : Nat)
  | routine

/-- One operation. What `device_conf_check` makes sure of is required of a
new device; an object that is allocated is new. -/
inductive SpaceStep (al : Allocator) (s : Space) : SpaceEvent → Space → Prop
  | add {d file capacity s'} : d ∉ s.allDevices → 512 ∣ capacity → capacity ≤ capacityLimit →
      s.deviceAdd al d file capacity = some s' → SpaceStep al s (.add d file capacity) s'
  | get {a x k s'} : a ∉ s.items → x.length < 2 ^ 32 → (s.setItem a x).deviceGetFreeBlock a = some (k, s') →
      SpaceStep al s (.get a x) s'
  | mark {a putting badblock used} :
      SpaceStep al s (.mark a putting badblock used) (s.setItem a { s.item a with putting, badblock, used })
  | ret {a k s'} : a ∈ s.items → s.deviceReturnFreeBlock al a = some (k, s') → SpaceStep al s (.ret a) (s'.itemFree a)
  | extend {target ok s'} : (spaceHost al).deviceFreeBlockExtend target s = some (ok, s') →
      SpaceStep al s (.extend target) s'
  | load {d records s₁ s'} : (∀ x ∈ records, x.2.WellFormed) → (s.current d).isSome →
      records.foldlM (fun s x => s.loadItem al d x) s = some s₁ → s₁.deviceLoadPost d = some s' →
      SpaceStep al s (.load d records) s'
  | delete {d} : d ∈ s.devices → SpaceStep al s (.delete d) (s.deviceDelete d)
  | routine {s'} : (spaceHost al).deviceRoutine s = some s' → SpaceStep al s .routine s'

def spaceSystem (al : Allocator) : System Space SpaceEvent where
  init s := ∃ p, s = .empty p
  next := SpaceStep al

/-! ## Every operation keeps the invariant -/

variable {strict : Prop} {al : Allocator} {s s' : Space}

theorem Space.empty_inv (p : Int) : SpaceInv strict (.empty p) := by
  refine ⟨⟨?_, ?_, ?_, ?_, ?_⟩, ⟨.nil, ?_⟩, ⟨.nil, ?_, ?_, ?_, ?_, ?_⟩⟩ <;> simp [Space.empty, Space.allDevices]

theorem itemDelete_inv {a : Nat} (hal : strict → ∀ t l, (al.get t l).isSome) (h : SpaceInv strict s) (ha : a ∈ s.items)
    (hd : s.itemDelete al a = some s') : SpaceInv strict s' ∧ ItemGone a s s' := by
  unfold Space.itemDelete at hd
  simp only at hd
  split at hd
  · cases hd
    exact ⟨h.markItem rfl rfl rfl, fun _ _ hx => hx, fun _ hx => hx, fun _ _ _ _ hx => hx⟩
  · obtain ⟨⟨k, s₁⟩, hr, rfl⟩ := Option.map_eq_some_iff.mp hd
    obtain ⟨-, hkept, -, hitems, horder⟩ := deviceReturnFreeBlock_kept h.links ha hr
    refine ⟨deviceReturnFreeBlock_inv hal h ha hr, fun x hx hm => ?_, hkept.deletedDevices, horder⟩
    simpa [Space.itemFree, hx, hitems] using hm

theorem spaceHost_keeps (hal : strict → ∀ t l, (al.get t l).isSome) : (spaceHost al).Keeps (SpaceInv strict) where
  space_withSpace _ _ := rfl
  withSpace_space _ := rfl
  withSpace_withSpace _ _ _ := rfl
  inv _ h := h.links
  fblockDelete _ _ d _ h hd hf hs :=
    dropFblock_inv h.dev h.order h.queue (fun _ _ => Iff.rfl) hf (h.dev.gone d hd).1 hs
  itemDelete _ _ _ h ha hd := itemDelete_inv hal h ha hd
  close _ d h _ _ := h.setUsed d _ false
  destroy _ _ _ h hd ho ht := destroyed_inv h hd ho ht

theorem loadItem_loading {d f : Nat} {x : Nat × Item} (hal : strict → ∀ t l, (al.get t l).isSome)
    (h : Loading strict d f s) (hx : x.2.WellFormed) (hl : s.loadItem al d x = some s') : Loading strict d f s' := by
  unfold Space.loadItem at hl
  split at hl
  · cases hl
  next hnew =>
  obtain ⟨⟨k, s₁⟩, hc, rfl⟩ := Option.map_eq_some_iff.mp hl
  have hset := h.setItem (x := { x.2 with deviceIndex := (s.device d).index }) fun hmem => absurd hmem hnew
  have hself : (s.setItem x.1 { x.2 with deviceIndex := (s.device d).index }).item x.1 =
      { x.2 with deviceIndex := (s.device d).index } := Function.update_self ..
  obtain ⟨hload, hzero⟩ := deviceCutFreeBlock_loading hal hset hnew (by rw [hself]; rfl) (by rw [hself]; exact hx.pos)
    (by rw [hself]; exact hx.length) (by rw [hself]; exact hx.aligned) hc
  simp only
  split
  · next h0 =>
    -- The object was never linked.
    rw [hzero h0, itemFree_of_not_mem (by exact hnew)]
    exact hset
  · exact hload

theorem loadItems_loading {d f : Nat} {l : List (Nat × Item)} (hal : strict → ∀ t l, (al.get t l).isSome)
    (h : Loading strict d f s) (hl : ∀ x ∈ l, x.2.WellFormed)
    (hf : l.foldlM (fun s x => s.loadItem al d x) s = some s') : Loading strict d f s' := by
  induction l generalizing s with
  | nil =>
    cases hf
    exact h
  | cons x l ih =>
    rw [List.foldlM_cons] at hf
    obtain ⟨s₁, h₁, hrest⟩ := Option.bind_eq_some_iff.mp hf
    exact ih (loadItem_loading hal h (hl x (by simp)) h₁) (fun y hy => hl y (List.mem_cons_of_mem _ hy)) hrest

/-- No block is asked for nothing. -/
def GetsNonempty (_ : Space) : SpaceEvent → Prop
  | .get _ x => x.length ≠ 0
  | _ => True

theorem spaceStep_inv {e : SpaceEvent} (hal : strict → ∀ t l, (al.get t l).isSome) (h : SpaceInv strict s)
    (hok : GetsNonempty s e) (hs : SpaceStep al s e s') : SpaceInv strict s' := by
  cases hs with
  | add hd hdvd hcap hadd => exact deviceAdd_inv h hd hcap hdvd hadd
  | @get a x _ _ ha hlen hg =>
    have hx : (s.setItem a x).item a = x := Function.update_self ..
    exact getFreeBlock_inv (h.setItem x ha) (by rw [hx]; exact Nat.pos_of_ne_zero hok) (by rw [hx]; exact hlen) hg
  | mark => exact h.markItem rfl rfl rfl
  | ret ha hr => exact deviceReturnFreeBlock_inv hal h ha hr
  | extend he => exact (spaceHost_keeps hal).extend h he
  | load hrec hc hl hp =>
    obtain ⟨f, hf⟩ := Option.isSome_iff_exists.mp hc
    exact deviceLoadPost_inv (loadItems_loading hal (h.loading hf) hrec hl) hp
  | delete hd => exact deviceDelete_inv h hd
  | routine hr => exact (spaceHost_keeps hal).deviceRoutine h hr

theorem spaceInv_of_reach (hal : strict → ∀ t l, (al.get t l).isSome) (h : (spaceSystem al).Reach GetsNonempty s) :
    SpaceInv strict s := by
  refine h.invariant (fun s hi => ?_) fun s e s' _ hinv hok hs => spaceStep_inv hal hinv hok hs
  obtain ⟨p, rfl⟩ := hi
  exact Space.empty_inv p

/-! ## The representation invariant -/

/-- The bytes of a device that an item or a bad block takes. -/
def Space.Covered (s : Space) (d x : Nat) : Prop :=
  (∃ a, .item a ∈ s.order d ∧ (s.item a).offset ≤ x ∧ x < (s.item a).offset + ipbucketBlockSize (s.item a).length) ∨
    ∃ b ∈ s.retired d, b.1 ≤ x ∧ x < b.1 + b.2

/-- How much of a device the nodes of some kind take. -/
def Space.bytes (s : Space) (p : Option Node → Bool) (d : Nat) : Nat :=
  ((s.order d).map fun n => if p (some n) then (s.extent n).2 else 0).sum

/-- The tag of a free block. -/
def freeTag : Option Node → Bool
  | some (.fblock _) => true
  | _ => false

/-- What the allocator promises of device `d`. -/
structure AllocatorInv (s : Space) (d : Nat) : Prop where
  sorted : (s.order d).Pairwise fun m n => (s.extent m).1 < (s.extent n).1
  disjoint : (s.order d).Pairwise fun m n => (s.extent m).1 + (s.extent m).2 ≤ (s.extent n).1
  inside : ∀ n ∈ s.order d, (s.extent n).1 + (s.extent n).2 ≤ (s.device d).capacity
  free : ∀ lo hi, (∃ f, .fblock f ∈ s.order d ∧ (s.fblock f).offset = lo ∧ lo + (s.fblock f).blockSize = hi) ↔
    IsGap (s.Covered d) (s.device d).capacity lo hi
  consumed : (s.device d).consumed = s.bytes itemTag d + (s.device d).badblock
  total : s.bytes freeTag d + (s.device d).consumed = (s.device d).capacity
  queued : ∀ f, .fblock f ∈ s.order d → ∀ i,
    f ∈ s.queue i ↔ i = (ipbucketIndex (s.fblock f).blockSize false).toNat
  offset : ∀ n ∈ s.order d, (s.extent n).1 < 2 ^ 40

theorem sizeOf_order {capacity : Nat} {order : List Node} {extent : Node → Nat × Nat} {T : List Tile}
    (h : Layout capacity order extent T) {p : Option Node → Bool} (hp : p none = false) :
    sizeOf p T = (order.map fun n => if p (some n) then (extent n).2 else 0).sum := by
  have hext := h.extent
  rw [← h.order]
  clear h
  induction T with
  | nil => rfl
  | cons t T ih =>
    have ih := ih fun u hu => hext u (List.mem_cons_of_mem _ hu)
    rw [sizeOf_cons, ih]
    cases htag : t.tag with
    | none => simp [htag, hp]
    | some n => simp [htag, hext t (by simp) n htag]

/-- The three kinds of pieces are all there is. -/
theorem sizeOf_total {lo hi : Nat} {T : List Tile} (h : Tiles lo hi T) :
    lo + (sizeOf freeTag T + (sizeOf itemTag T + sizeOf Option.isNone T)) = hi := by
  induction T generalizing lo with
  | nil => exact h
  | cons t T ih =>
    have hrest := ih h.2.2
    have hlo := h.1
    obtain ⟨tag, offset, size⟩ := t
    simp only [sizeOf_cons, Seg.stop] at hrest hlo ⊢
    rcases tag with _ | _ | _ <;> simp [freeTag, itemTag] <;> omega

theorem Layout.covered_iff {d : Nat} {T : List Tile} (hT : Layout (s.device d).capacity (s.order d) s.extent T)
    (hr : ∀ x, x ∈ s.retired d ↔ ∃ t ∈ T, t.tag = none ∧ (t.offset, t.size) = x) (x : Nat) :
    TakenAt IsFree T x ↔ s.Covered d x := by
  constructor
  · rintro ⟨t, ht, hfree, h1, h2⟩
    cases htag : t.tag with
    | none => exact .inr ⟨_, (hr _).mpr ⟨t, ht, htag, rfl⟩, h1, h2⟩
    | some n =>
      cases n with
      | fblock f => exact absurd ⟨f, htag⟩ hfree
      | item a =>
        have he := hT.extent t ht _ htag
        simp only [Space.extent, Prod.mk.injEq] at he
        refine .inl ⟨a, ?_, ?_, ?_⟩
        · rw [← hT.order]
          exact List.mem_filterMap.mpr ⟨t, ht, htag⟩
        · rw [he.1]
          exact h1
        · rw [he.1, he.2]
          exact h2
  · rintro (⟨a, ha, h1, h2⟩ | ⟨b, hb, h1, h2⟩)
    · rw [← hT.order] at ha
      obtain ⟨t, ht, htag⟩ := List.mem_filterMap.mp ha
      have he := hT.extent t ht _ htag
      simp only [Space.extent, Prod.mk.injEq] at he
      refine ⟨t, ht, ?_, ?_, ?_⟩
      · rintro ⟨f, hf⟩
        rw [htag] at hf
        cases hf
      · rw [← he.1]
        exact h1
      · rw [Seg.stop, ← he.1, ← he.2]
        exact h2
    · obtain ⟨t, ht, htag, rfl⟩ := (hr b).mp hb
      refine ⟨t, ht, ?_, h1, h2⟩
      rintro ⟨f, hf⟩
      rw [htag] at hf
      cases hf

theorem Layout.disjoint {capacity : Nat} {order : List Node} {extent : Node → Nat × Nat} {T : List Tile}
    (h : Layout capacity order extent T) : order.Pairwise fun m n => (extent m).1 + (extent m).2 ≤ (extent n).1 := by
  rw [← h.order, List.pairwise_filterMap]
  refine h.tiles.sorted.imp_of_mem fun {t u} ht hu hle m hm n hn => ?_
  rw [h.extent t ht m hm, h.extent u hu n hn]
  exact hle

/-- A free block is in the queue of its current size and in no other. -/
theorem QueueInv.mem_iff {live : List Nat} (h : QueueInv s live) {f : Nat} (hf : f ∈ live) (i : Nat) :
    f ∈ s.queue i ↔ i = (ipbucketIndex (s.fblock f).blockSize false).toNat := by
  obtain ⟨j, hj⟩ := (h.owned.covers f).mp hf
  rw [h.size j f hj]
  exact ⟨fun hi => h.owned.unique hi hj, fun hi => hi ▸ hj⟩

/-- What the invariant says of a device that is in use. -/
theorem SpaceInv.allocator (hinv : SpaceInv True s) {d : Nat} (hd : d ∈ s.devices) (hk : (s.device d).kicked = false) :
    AllocatorInv s d := by
  have hall : d ∈ s.allDevices := List.mem_append_left _ hd
  have hcap := hinv.dev.capacity d hall
  obtain ⟨T, hT, htidy⟩ := hinv.order.layout d hall hk
  have htidy := htidy trivial (hinv.dev.active d hd)
  have hmem : ∀ f, .fblock f ∈ s.order d → f ∈ s.fblocks := fun f hf =>
    Space.mem_nodes_fblock.mp ((hinv.order.owned.covers _).mpr ⟨d, hf⟩)
  refine ⟨?_, hT.disjoint, fun n hn => (hT.bounds hn).2.1, fun lo hi => ?_, ?_, ?_,
    fun f hf => hinv.queue.mem_iff (hmem f hf), fun n hn => ?_⟩
  · refine hT.disjoint.imp_of_mem fun {m n} hm _ hle => ?_
    have := (hT.bounds hm).1
    omega
  · rw [← funext fun x => propext (hT.covered_iff htidy.retired x), hT.tiles.gap_iff htidy.coalesced]
    constructor
    · rintro ⟨f, hf, rfl, rfl⟩
      rw [← hT.order] at hf
      obtain ⟨t, ht, htag⟩ := List.mem_filterMap.mp hf
      have he := hT.extent t ht _ htag
      simp only [Space.extent, Prod.mk.injEq] at he
      exact ⟨t, ht, ⟨f, htag⟩, he.1.symm, by rw [Seg.stop, he.1, he.2]⟩
    · rintro ⟨t, ht, ⟨f, hf⟩, rfl, rfl⟩
      have he := hT.extent t ht _ hf
      simp only [Space.extent, Prod.mk.injEq] at he
      refine ⟨f, ?_, he.1, by rw [he.2, Seg.stop]⟩
      rw [← hT.order]
      exact List.mem_filterMap.mpr ⟨t, ht, hf⟩
  · rw [htidy.consumed, htidy.badblock, Space.bytes, sizeOf_order hT rfl]
  · have htotal := sizeOf_total hT.tiles
    rw [Nat.zero_add, sizeOf_order (p := freeTag) hT rfl, ← htidy.consumed] at htotal
    exact htotal
  · have := (hT.bounds hn).1
    have := (hT.bounds hn).2.1
    simp only [capacityLimit] at hcap
    omega

/-- **The allocator's representation invariant.** While memory for free
blocks does not run out and no empty block is asked for, every device that
has been neither deleted nor kicked is in order after each operation. -/
theorem allocator_invariant (hal : ∀ t l, (al.get t l).isSome) (h : (spaceSystem al).Reach GetsNonempty s) {d : Nat}
    (hd : d ∈ s.devices) (hk : (s.device d).kicked = false) : AllocatorInv s d := by
  exact (spaceInv_of_reach (fun _ => hal) h).allocator hd hk

/-- An item of some length, with nothing else set. -/
def Item.ofLength (length : Nat) : Item := ⟨(0, 0), length, 0, 0, false, false, false, 0, 0, 0, 0, 0⟩

/-- Two items are stored on a device of a mebibyte and one is taken back. -/
theorem allocator_invariant_stored : ∃ s, (spaceSystem .unbounded).Reach GetsNonempty s ∧
    s.order 0 = [.fblock 1, .item 2, .fblock 2] ∧ AllocatorInv s 0 := by
  have hrun : ((Space.empty 0).deviceAdd .unbounded 0 0 (2 ^ 20)).bind (fun s₁ =>
      ((s₁.setItem 1 (.ofLength 600)).deviceGetFreeBlock 1).bind fun x₂ =>
      ((x₂.2.setItem 2 (.ofLength 100)).deviceGetFreeBlock 2).bind fun x₃ =>
      (x₃.2.deviceReturnFreeBlock .unbounded 1).map fun x₄ =>
        ((s₁.items, x₂.2.items, x₃.2.items), x₄.2.order 0, x₄.2.devices, (x₄.2.device 0).kicked)) =
      some (([], [1], [2, 1]), [.fblock 1, .item 2, .fblock 2], [0], false) := by decide +kernel
  obtain ⟨s₁, h₁, hrun⟩ := Option.bind_eq_some_iff.mp hrun
  obtain ⟨⟨k₂, s₂⟩, h₂, hrun⟩ := Option.bind_eq_some_iff.mp hrun
  obtain ⟨⟨k₃, s₃⟩, h₃, hrun⟩ := Option.bind_eq_some_iff.mp hrun
  obtain ⟨⟨k₄, s₄⟩, h₄, hview⟩ := Option.map_eq_some_iff.mp hrun
  simp only [Prod.mk.injEq] at hview
  obtain ⟨⟨hi₁, hi₂, hi₃⟩, horder, hdev, hkick⟩ := hview
  have r₀ : (spaceSystem .unbounded).Reach GetsNonempty (.empty 0) := .init ⟨0, rfl⟩
  have r₁ := r₀.step (a := SpaceEvent.add 0 0 (2 ^ 20)) trivial (SpaceStep.add (by decide) (by decide) (by decide) h₁)
  have r₂ := r₁.step (a := SpaceEvent.get 1 (.ofLength 600)) (by decide : 600 ≠ 0) (SpaceStep.get (by simp [hi₁]) (by decide) h₂)
  have r₃ := r₂.step (a := SpaceEvent.get 2 (.ofLength 100)) (by decide : 100 ≠ 0) (SpaceStep.get (by simp [hi₂]) (by decide) h₃)
  have r₄ := r₃.step (a := SpaceEvent.ret 1) trivial (SpaceStep.ret (by simp [hi₃]) h₄)
  exact ⟨_, r₄, horder, allocator_invariant (fun _ _ => rfl) r₄ (by simp [Space.itemFree, hdev]) hkick⟩

/-- Two items without a length get the same offset. -/
theorem allocator_invariant_empty : ∃ s, (spaceSystem .unbounded).Reachable s ∧ 0 ∈ s.devices ∧
    (s.device 0).kicked = false ∧ ¬AllocatorInv s 0 := by
  have hrun : ((Space.empty 0).deviceAdd .unbounded 0 0 (2 ^ 20)).bind (fun s₁ =>
      ((s₁.setItem 1 (.ofLength 0)).deviceGetFreeBlock 1).bind fun x₂ =>
      ((x₂.2.setItem 2 (.ofLength 0)).deviceGetFreeBlock 2).map fun x₃ =>
        ((s₁.items, x₂.2.items), (x₃.2.order 0, (x₃.2.item 1).offset, (x₃.2.item 2).offset), x₃.2.devices,
          (x₃.2.device 0).kicked)) =
      some (([], [1]), ([.fblock 1, .item 2, .item 1], 2 ^ 20, 2 ^ 20), [0], false) := by decide +kernel
  obtain ⟨s₁, h₁, hrun⟩ := Option.bind_eq_some_iff.mp hrun
  obtain ⟨⟨k₂, s₂⟩, h₂, hrun⟩ := Option.bind_eq_some_iff.mp hrun
  obtain ⟨⟨k₃, s₃⟩, h₃, hview⟩ := Option.map_eq_some_iff.mp hrun
  simp only [Prod.mk.injEq] at hview
  obtain ⟨⟨hi₁, hi₂⟩, ⟨horder, ho₁, ho₂⟩, hdev, hkick⟩ := hview
  have r₀ : (spaceSystem .unbounded).Reachable (.empty 0) := .init ⟨0, rfl⟩
  have r₁ := r₀.step (a := SpaceEvent.add 0 0 (2 ^ 20)) (SpaceStep.add (by decide) (by decide) (by decide) h₁)
  have r₂ := r₁.step (a := SpaceEvent.get 1 (.ofLength 0)) (SpaceStep.get (by simp [hi₁]) (by decide) h₂)
  have r₃ := r₂.step (a := SpaceEvent.get 2 (.ofLength 0)) (SpaceStep.get (by simp [hi₂]) (by decide) h₃)
  refine ⟨s₃, r₃, by simp [hdev], hkick, fun hinv => ?_⟩
  have hsorted := hinv.sorted
  rw [horder] at hsorted
  simp [Space.extent, ho₁, ho₂] at hsorted

end OliveHc
