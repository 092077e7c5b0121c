/-
Which free block an item gets (`device_get_free_block`).

A request is rounded up to a size class and looks through the queues from
that class on, taking what is in front. It finds an exact fit when there is
one because the free blocks whose size is that of their class are kept in
front of the others (`ExactFirst`). Blocks of deleted devices may be in the
queues still: they are discarded on the way.
-/
import OliveHc.Device.Allocator

namespace OliveHc

/-! ## Exact fits in front -/

/-- A free block whose size is that of its class. -/
def Space.Exact (s : Space) (f : Nat) : Prop := (s.fblock f).blockSize = ipbucketBlockSize (s.fblock f).blockSize

/-- **In every queue the exact sizes come first.** -/
def ExactFirst (s : Space) : Prop := ∀ i, (s.queue i).Pairwise fun f g => s.Exact g → s.Exact f

section

variable {s s' : Space} {f : Nat}

theorem ExactFirst.congr (h : ExactFirst s) (hq : s'.queue = s.queue) (hf : ∀ i, ∀ f ∈ s.queue i, s'.fblock f = s.fblock f) :
    ExactFirst s' := by
  intro i
  rw [hq]
  refine (h i).imp_of_mem fun {f g} hmf hmg hfg => ?_
  simp only [Space.Exact, hf i f hmf, hf i g hmg]
  exact hfg

theorem ExactFirst.same (h : ExactFirst s) (hq : s'.queue = s.queue) (hf : s'.fblock = s.fblock) : ExactFirst s' :=
  h.congr hq fun _ _ _ => by rw [hf]

theorem ExactFirst.setOrder (h : ExactFirst s) (d : Nat) (l : List Node) : ExactFirst (s.setOrder d l) := h.same rfl rfl

theorem ExactFirst.del (h : ExactFirst s) (f : Nat) : ExactFirst (s.ipbucketDel f) :=
  fun i => (h i).sublist List.erase_sublist

theorem ExactFirst.add (h : ExactFirst s) (f : Nat) : ExactFirst (s.ipbucketAdd f) := by
  intro i
  rw [Space.ipbucketAdd]
  dsimp only
  by_cases hi : i = (ipbucketIndex (s.fblock f).blockSize false).toNat
  · subst hi
    rw [Function.update_self]
    split
    · next hexact => exact List.pairwise_cons.mpr ⟨fun g _ _ => hexact, h _⟩
    · next hexact =>
      refine List.pairwise_append.mpr ⟨h _, List.pairwise_singleton _ _, fun x _ y hy hyx => ?_⟩
      rw [List.mem_singleton.mp hy] at hyx
      exact absurd hyx hexact
  · rw [Function.update_of_ne hi]
    exact h i

/-- A block that is in no queue may change. -/
theorem ExactFirst.setFblock (h : ExactFirst s) (hf : ∀ i, f ∉ s.queue i) (b : FreeBlock) : ExactFirst (s.setFblock f b) := by
  refine h.congr rfl fun i g hg => ?_
  have hne : g ≠ f := fun he => hf i (he ▸ hg)
  exact Function.update_of_ne hne ..

theorem ExactFirst.resize (h : ExactFirst s) (hq : Owned s.queue s.fblocks) (f : Nat) (b : FreeBlock) :
    ExactFirst ((s.setFblock f b).ipbucketUpdate f) := by
  have hdel : ExactFirst ((s.ipbucketDel f).setFblock f b) :=
    (h.del f).setFblock (fun i hi => ((hq.nodup i).mem_erase_iff.mp hi).1 rfl) b
  exact hdel.add f

theorem ExactFirst.fblockDelete (h : ExactFirst s) (hd : s.deviceFblockDelete f = some s') : ExactFirst s' := by
  obtain ⟨d, -, rfl⟩ := Option.map_eq_some_iff.mp hd
  exact (h.del f).same rfl rfl

theorem ExactFirst.insert (h : ExactFirst s) (hq : Owned s.queue s.fblocks) (al : Allocator) (d : Nat) (base : Option Node)
    (offset size : Nat) : ExactFirst (s.deviceFblockInsert al d base offset size).2 := by
  unfold Space.deviceFblockInsert
  split
  · exact h.same rfl rfl
  · next f hf =>
    have hfresh : ∀ i, f ∉ s.queue i := fun i hi => al.fresh hf ((hq.covers f).mpr ⟨i, hi⟩)
    refine ExactFirst.add ?_ f
    exact (h.setFblock hfresh ⟨(s.device d).index, offset % 2 ^ 40, size⟩).same rfl rfl

variable {al : Allocator} {a d k : Nat}

theorem ExactFirst.recycle (h : ExactFirst s) (hq : Owned s.queue s.fblocks) (hr : s.recycle al a d = some s') :
    ExactFirst s' := by
  unfold Space.recycle at hr
  simp only at hr
  split at hr
  · exact (h.resize hq _ _).fblockDelete hr
  · cases hr; exact h.resize hq _ _
  · cases hr; exact h.resize hq _ _
  · cases hr; exact h.insert hq al d _ _ _

theorem ExactFirst.deviceDelete (h : ExactFirst s) (d : Nat) : ExactFirst (s.deviceDelete d) := by
  unfold Space.deviceDelete
  dsimp only
  split
  · exact h.same rfl rfl
  · exact h.same rfl rfl

theorem ExactFirst.deviceKick (h : ExactFirst s) (al : Allocator) (d : Nat) : ExactFirst (s.deviceKick al d) := by
  unfold Space.deviceKick
  split
  · exact h.same rfl rfl
  · refine ExactFirst.deviceDelete ?_ d
    exact h.same rfl rfl

theorem ExactFirst.ret (h : ExactFirst s) (hq : Owned s.queue s.fblocks)
    (hr : s.deviceReturnFreeBlock al a = some (k, s')) : ExactFirst s' := by
  unfold Space.deviceReturnFreeBlock at hr
  obtain ⟨d, -, hr⟩ := Option.bind_eq_some_iff.mp hr
  dsimp only at hr
  split at hr
  · cases hr; exact h.same rfl rfl
  split at hr
  · split at hr
    · cases hr
      refine ExactFirst.setOrder (ExactFirst.deviceKick ?_ al d) d _
      exact h.same rfl rfl
    · cases hr; exact h.same rfl rfl
  · obtain ⟨s₁, h₁, hr⟩ := Option.bind_eq_some_iff.mp hr
    cases hr
    exact (h.recycle hq h₁).same rfl rfl

end

/-! ## The invariant -/

/-- Every device that is listed has an index. -/
def Indexed (s : Space) : Prop := ∀ d ∈ s.allDevices, (s.device d).kicked = false → (s.device d).index ≠ -1

/-- **The representation invariant of the free blocks.** Order lists, queues
and devices agree (blocks of deleted devices may be queued still), every
device that is listed has an index, and exact sizes come first. -/
structure FreeInv (s : Space) : Prop where
  inv : SpaceInv False s
  indexed : Indexed s
  exactFirst : ExactFirst s

section

variable {al : Allocator} {s s' : Space} {a d f k : Nat}

/-- A free block and the device it is on find each other. -/
theorem FreeInv.device (h : FreeInv s) (hf : f ∈ s.fblocks) : ∃ d, .fblock f ∈ s.order d ∧ s.deviceOfFblock f = some d := by
  obtain ⟨d, hn⟩ := (h.inv.order.owned.covers (.fblock f)).mp (Space.mem_nodes_fblock.mpr hf)
  have hd := h.inv.order.mem_allDevices hn
  have hk := h.inv.order.not_kicked hn
  refine ⟨d, hn, ?_⟩
  have hidx : (s.fblock f).deviceIndex = (s.device d).index := h.inv.order.nodeIndex d _ hn
  rw [Space.deviceOfFblock, hidx]
  exact (h.inv.dev.index d hd hk).resolve_left (h.indexed d hd hk)

theorem FreeInv.mem_fblocks (h : FreeInv s) (hn : .fblock f ∈ s.order d) : f ∈ s.fblocks :=
  Space.mem_nodes_fblock.mp ((h.inv.order.owned.covers _).mpr ⟨d, hn⟩)

theorem FreeInv.size (h : FreeInv s) (hf : f ∈ s.fblocks) : 512 ≤ (s.fblock f).blockSize := by
  obtain ⟨d, hn, -⟩ := h.device hf
  obtain ⟨T, hT, -⟩ := h.inv.order.layout d (h.inv.order.mem_allDevices hn) (h.inv.order.not_kicked hn)
  obtain ⟨hpos, -, hdvd⟩ := hT.bounds hn
  exact Nat.le_of_dvd hpos hdvd

theorem FreeInv.queued (h : FreeInv s) (hf : f ∈ s.fblocks) :
    f ∈ s.queue (ipbucketIndex (s.fblock f).blockSize false).toNat := (h.inv.queue.mem_iff hf _).mpr rfl

end

/-! ## The search -/

/-- What is found is in front of the first queue that is not empty. -/
theorem ipbucketGet_some {s s' : Space} {size n f : Nat} (hn : ipbucketIndex size true = n)
    (hg : s.ipbucketGet size = some (f, s')) : s' = s.ipbucketDel f ∧ ∃ i rest, s.queue i = f :: rest ∧ n ≤ i ∧
      ∀ j, n ≤ j → j < i → s.queue j = [] := by
  rw [Space.ipbucketGet, hn] at hg
  rw [if_neg (by omega), Int.toNat_natCast] at hg
  obtain ⟨g, hfind, he⟩ := Option.map_eq_some_iff.mp hg
  cases he
  obtain ⟨before, i, after, hsplit, hhead, hbefore⟩ := List.findSome?_eq_some_iff.mp hfind
  have hi : i ∈ List.range' n (ipbBuckets - n) := by rw [hsplit]; simp
  refine ⟨rfl, i, (s.queue i).tail, ?_, (List.mem_range'_1.mp hi).1, fun j hj hji => ?_⟩
  · exact (List.cons_head?_tail hhead).symm
  · have hjm : j ∈ List.range' n (ipbBuckets - n) := List.mem_range'_1.mpr ⟨hj, by have := (List.mem_range'_1.mp hi).2; omega⟩
    have hsorted : (List.range' n (ipbBuckets - n)).Pairwise (· < ·) := List.pairwise_lt_range'
    rw [hsplit] at hjm hsorted
    rcases List.mem_append.mp hjm with hb | hb
    · exact List.head?_eq_none_iff.mp (hbefore j hb)
    · obtain ⟨-, hsorted, -⟩ := List.pairwise_append.mp hsorted
      rcases List.mem_cons.mp hb with rfl | hb
      · omega
      · have := List.rel_of_pairwise_cons hsorted hb
        omega

theorem ipbucketGet_none {s : Space} {size n : Nat} (hn : ipbucketIndex size true = n) (hg : s.ipbucketGet size = none) :
    ∀ j, n ≤ j → j < ipbBuckets → s.queue j = [] := by
  rw [Space.ipbucketGet, hn] at hg
  rw [if_neg (by omega), Int.toNat_natCast, Option.map_eq_none_iff, List.findSome?_eq_none_iff] at hg
  intro j hj hlt
  exact List.head?_eq_none_iff.mp (hg j (List.mem_range'_1.mpr ⟨hj, by omega⟩))

/-! ## What is promised -/

/-- A free block that items may get. -/
def Space.Usable (s : Space) (f d : Nat) : Prop := .fblock f ∈ s.order d ∧ (s.device d).deleted = false

/-- **Blocks of deleted devices are discarded**, and nothing else is touched. -/
structure Discards (l : List Nat) (s s' : Space) : Prop where
  nodup : l.Nodup
  stale : ∀ g ∈ l, ∃ d, .fblock g ∈ s.order d ∧ (s.device d).deleted = true
  fblocks : ∀ g, g ∈ s'.fblocks ↔ g ∈ s.fblocks ∧ g ∉ l
  order : ∀ d n, n ∈ s'.order d ↔ n ∈ s.order d ∧ ∀ g ∈ l, n ≠ .fblock g
  fblock : s'.fblock = s.fblock
  device : s'.device = s.device
  item : s'.item = s.item
  items : s'.items = s.items

/-- **Item `a` takes the rear** of the free block `f`, or all of it. -/
structure Takes (a f d bsize : Nat) (s s' : Space) : Prop where
  item : s'.item = Function.update s.item a { s.item a with
    offset := (s.fblock f).offset + (s.fblock f).blockSize - bsize, deviceIndex := (s.device d).index }
  items : s'.items = a :: s.items
  fblocks : ∀ g, g ∈ s'.fblocks ↔ g ∈ s.fblocks ∧ (g = f → bsize ≠ (s.fblock f).blockSize)
  fblock : bsize ≠ (s.fblock f).blockSize →
    s'.fblock = Function.update s.fblock f { s.fblock f with blockSize := (s.fblock f).blockSize - bsize }
  other : ∀ g, g ≠ f → s'.fblock g = s.fblock g
  order : ∃ A B, s.order d = A ++ .fblock f :: B ∧ s'.order = Function.update s.order d
    (A ++ (if bsize = (s.fblock f).blockSize then [] else [.fblock f]) ++ .item a :: B)

/-- **What `device_get_free_block` does** for item `a`, trying again `n`
times: its result and the state it leaves. -/
inductive GetSpec (a n : Nat) (s : Space) : Nat → Space → Prop
  | noSpace {l s'} : (∀ g d, s.Usable g d → (s.fblock g).blockSize < ipbucketBlockSize (s.item a).length) →
      Discards l s s' → GetSpec a n s 0 s'
  | exhausted {l s'} : l.length = n + 1 → Discards l s s' → GetSpec a n s 0 s'
  | taken {l s₁ f d s'} : Discards l s s₁ → s.Usable f d →
      ipbucketBlockSize (s.item a).length ≤ (s.fblock f).blockSize →
      -- an exact fit if there is one
      (∀ g e, s.Usable g e → (s.fblock g).blockSize = ipbucketBlockSize (s.item a).length →
        (s.fblock f).blockSize = ipbucketBlockSize (s.item a).length) →
      -- and otherwise a block of the lowest class
      (∀ g e, s.Usable g e → ipbucketBlockSize (s.item a).length ≤ (s.fblock g).blockSize →
        ipbucketIndex (s.fblock f).blockSize false ≤ ipbucketIndex (s.fblock g).blockSize false) →
      Takes a f d (ipbucketBlockSize (s.item a).length) s₁ s' →
      GetSpec a n s (ipbucketBlockSize (s.item a).length) s'

theorem Discards.refl (s : Space) : Discards [] s s :=
  ⟨List.nodup_nil, fun g hg => absurd hg (by simp), fun g => by simp, fun d n => by simp, rfl, rfl, rfl, rfl⟩

theorem Discards.usable {l : List Nat} {s s' : Space} (h : Discards l s s') (hq : Owned s.order s.nodes) {g d : Nat} :
    s'.Usable g d ↔ s.Usable g d := by
  simp only [Space.Usable, h.order, h.device]
  constructor
  · intro ⟨h1, h2⟩
    exact ⟨h1.1, h2⟩
  · intro ⟨h1, h2⟩
    refine ⟨⟨h1, fun x hx he => ?_⟩, h2⟩
    cases he
    obtain ⟨e, he, hdel⟩ := h.stale g hx
    rw [hq.unique he h1, h2] at hdel
    cases hdel

/-- One more is discarded. -/
theorem Discards.cons {l : List Nat} {s s₁ s' : Space} {f d : Nat} (hf : f ∈ s.fblocks)
    (hd : .fblock f ∈ s.order d) (hdel : (s.device d).deleted = true) (h₁ : Discards [f] s s₁) (h : Discards l s₁ s') :
    Discards (f :: l) s s' := by
  refine ⟨List.nodup_cons.mpr ⟨fun hfl => ?_, h.nodup⟩, fun g hg => ?_, fun g => ?_, fun e n => ?_, h.fblock.trans h₁.fblock,
    h.device.trans h₁.device, h.item.trans h₁.item, h.items.trans h₁.items⟩
  · obtain ⟨e, he, -⟩ := h.stale f hfl
    exact ((h₁.order e _).mp he).2 f (by simp) rfl
  · rcases List.mem_cons.mp hg with rfl | hg
    · exact ⟨d, hd, hdel⟩
    · obtain ⟨e, he, hx⟩ := h.stale g hg
      exact ⟨e, ((h₁.order e _).mp he).1, by rw [← h₁.device]; exact hx⟩
  · rw [h.fblocks, h₁.fblocks]
    simp only [List.mem_cons, List.not_mem_nil, or_false, not_or]
    tauto
  · rw [h.order, h₁.order]
    simp only [List.mem_cons, List.not_mem_nil, or_false, forall_eq, forall_eq_or_imp]
    tauto

section

variable {s s₁ s' : Space} {a d f k n : Nat}

/-- What is promised after one block was discarded, it is promised before. -/
theorem GetSpec.discard (hf : f ∈ s.fblocks) (hd : .fblock f ∈ s.order d) (hdel : (s.device d).deleted = true)
    (hq : Owned s.order s.nodes) (h₁ : Discards [f] s s₁) (h : GetSpec a n s₁ k s') : GetSpec a (n + 1) s k s' := by
  have husable : ∀ g e, s₁.Usable g e ↔ s.Usable g e := fun g e => h₁.usable hq
  cases h with
  | noSpace hno hl =>
    simp only [husable, h₁.fblock, h₁.item] at hno
    exact .noSpace hno (.cons hf hd hdel h₁ hl)
  | exhausted hlen hl => exact .exhausted (by rw [List.length_cons, hlen]) (.cons hf hd hdel h₁ hl)
  | taken hl hu hle hexact hlow ht =>
    simp only [husable, h₁.fblock, h₁.item] at hu hle hexact hlow ht ⊢
    exact .taken (.cons hf hd hdel h₁ hl) hu hle hexact hlow ht

/-- **One block is discarded.** -/
theorem FreeInv.discard (h : FreeInv s) (hd : .fblock f ∈ s.order d)
    (hdev : s.deviceOfFblock f = some d) (hdel : (s.device d).deleted = true) :
    ∃ s₁, (s.ipbucketDel f).deviceFblockDelete f = some s₁ ∧ FreeInv s₁ ∧ Discards [f] s s₁ := by
  have hs₁ : (s.ipbucketDel f).deviceFblockDelete f = some { ((s.ipbucketDel f).ipbucketDel f).setOrder d
      ((s.order d).erase (.fblock f)) with fblocks := s.fblocks.filter (· ≠ f) } := by
    rw [Space.deviceFblockDelete, show (s.ipbucketDel f).deviceOfFblock f = some d from hdev]
    rfl
  have hord : OrderInv False (s.ipbucketDel f) := ⟨h.inv.order.owned, h.inv.order.unlisted, h.inv.order.kicked,
    h.inv.order.nodeIndex, h.inv.order.length, h.inv.order.layout⟩
  refine ⟨_, hs₁, ⟨?_, ?_, ?_⟩, ?_⟩
  · exact dropFblock_inv ((ipbucketDel_same f s).dev h.inv.dev) hord (h.inv.queue.del f)
      (fun r hr => by simp [hr, Space.ipbucketDel]) hd hdel hs₁
  · exact h.indexed
  · exact ((h.exactFirst.del f).del f).same rfl rfl
  · refine ⟨List.nodup_singleton f, fun g hg => ?_, fun g => ?_, fun e n => ?_, rfl, rfl, rfl, rfl⟩
    · rw [List.mem_singleton.mp hg]
      exact ⟨d, hd, hdel⟩
    · show g ∈ s.fblocks.filter (· ≠ f) ↔ _
      simp
    · show n ∈ Function.update s.order d ((s.order d).erase (.fblock f)) e ↔ _
      rw [mem_update, (h.inv.order.owned.nodup d).mem_erase_iff]
      by_cases he : e = d
      · subst he
        simp [and_comm]
      · simp only [he, false_and, ne_eq, not_false_eq_true, true_and, false_or, List.mem_singleton, forall_eq, iff_self_and]
        intro hn hnf
        rw [hnf] at hn
        exact he (h.inv.order.owned.unique hn hd)

/-- **The item gets its block**: from a free block that is large enough there is no "oops". -/
theorem FreeInv.take (h : FreeInv s) (hd : .fblock f ∈ s.order d)
    (hdev : s.deviceOfFblock f = some d) (ha : a ∉ s.items)
    (hle : ipbucketBlockSize (s.item a).length ≤ (s.fblock f).blockSize) :
    ∃ s', (s.ipbucketDel f).takeBlock a f d = some (ipbucketBlockSize (s.item a).length, s') ∧
      Takes a f d (ipbucketBlockSize (s.item a).length) s s' ∧ ExactFirst s' := by
  obtain ⟨A, B, hT, -, horder, hfA, hstop⟩ := h.inv.order.split h.inv.dev hd
  simp only [Space.extent] at hstop
  rw [Space.takeBlock]
  dsimp only
  rw [if_neg (show a ∉ (s.ipbucketDel f).items from ha)]
  generalize hbs : ipbucketBlockSize (s.item a).length = bsize at hle
  rcases Nat.lt_or_eq_of_le hle with hlt | heq
  · rw [show ipbucketBlockSize ((s.ipbucketDel f).item a).length = bsize from hbs,
      if_pos (show bsize < ((s.ipbucketDel f).fblock f).blockSize from hlt)]
    refine ⟨_, rfl, ⟨?_, rfl, fun g => ?_, fun _ => rfl, fun g hg => Function.update_of_ne hg .., ?_⟩, ?_⟩
    · show Function.update s.item a { s.item a with offset := _ % 2 ^ 40, deviceIndex := _ } = _
      rw [Nat.mod_eq_of_lt (by
        show (s.fblock f).offset + (s.fblock f).blockSize - bsize < _
        omega)]
      rfl
    · show g ∈ s.fblocks ↔ _
      simp only [iff_self_and]
      intro _ _
      omega
    · refine ⟨A.filterMap Seg.tag, B.filterMap Seg.tag, horder, ?_⟩
      show Function.update s.order d (listAdd _ _ (s.order d)) = _
      rw [horder, listAdd_append hfA, if_neg (by omega)]
      simp
    · refine ExactFirst.add (ExactFirst.setFblock ?_ (fun i hi => ?_) _) f
      · exact (h.exactFirst.del f).same rfl rfl
      · exact ((h.inv.queue.owned.nodup i).mem_erase_iff.mp hi).1 rfl
  · rw [show ipbucketBlockSize ((s.ipbucketDel f).item a).length = bsize from hbs,
      if_neg (show ¬bsize < ((s.ipbucketDel f).fblock f).blockSize from fun hlt => by
        have : bsize < (s.fblock f).blockSize := hlt
        omega),
      if_pos (show ((s.ipbucketDel f).fblock f).blockSize = bsize from heq.symm), Space.deviceFblockDelete,
      show ((s.ipbucketDel f).linkItem a f d ((s.ipbucketDel f).fblock f).offset).deviceOfFblock f = some d from hdev]
    refine ⟨_, rfl, ⟨?_, rfl, fun g => ?_, fun hne => absurd heq hne, fun g hg => rfl, ?_⟩,
      ((h.exactFirst.del f).del f).same rfl rfl⟩
    · show Function.update s.item a { s.item a with offset := _ % 2 ^ 40, deviceIndex := _ } = _
      rw [Nat.mod_eq_of_lt (by show (s.fblock f).offset < _; omega)]
      rw [show (s.fblock f).offset + (s.fblock f).blockSize - bsize = (s.fblock f).offset by omega]
      rfl
    · show g ∈ s.fblocks.filter (· ≠ f) ↔ _
      simp [heq]
    · refine ⟨A.filterMap Seg.tag, B.filterMap Seg.tag, horder, ?_⟩
      show Function.update (Function.update s.order d (listAdd _ _ (s.order d))) d
        ((Function.update s.order d (listAdd _ _ (s.order d)) d).erase (.fblock f)) = _
      rw [Function.update_idem, Function.update_self, horder, listAdd_append hfA, erase_append hfA, if_pos heq]
      simp

/-- The first block that is found is as small as can be. -/
theorem FreeInv.found (h : FreeInv s) {i : Nat} {rest : List Nat} {length : Nat} (h1 : 1 ≤ length) (hlen : length < 2 ^ 32)
    (hn : ipbucketIndex length true = n) (hq : s.queue i = f :: rest) (hi : n ≤ i)
    (hempty : ∀ j, n ≤ j → j < i → s.queue j = []) :
    f ∈ s.fblocks ∧ ipbucketBlockSize length ≤ (s.fblock f).blockSize ∧
      (∀ g ∈ s.fblocks, (s.fblock g).blockSize = ipbucketBlockSize length → (s.fblock f).blockSize = ipbucketBlockSize length) ∧
      ∀ g ∈ s.fblocks, ipbucketBlockSize length ≤ (s.fblock g).blockSize →
        ipbucketIndex (s.fblock f).blockSize false ≤ ipbucketIndex (s.fblock g).blockSize false := by
  have hmem : f ∈ s.queue i := by rw [hq]; simp
  have hf : f ∈ s.fblocks := (h.inv.queue.owned.covers f).mpr ⟨i, hmem⟩
  have hidx : ∀ g ∈ s.fblocks, ∃ j : Nat, ipbucketIndex (s.fblock g).blockSize false = j ∧ g ∈ s.queue j := by
    intro g hg
    obtain ⟨j, hj, -, -⟩ := ipbucketIndex_down (h.size hg)
    have hgq := h.queued hg
    rw [hj, Int.toNat_natCast] at hgq
    exact ⟨j, hj, hgq⟩
  obtain ⟨j, hj, hfj⟩ := hidx f hf
  obtain rfl : j = i := h.inv.queue.owned.unique hfj hmem
  have hbig := le_ipbucketIndex_iff h1 hlen.le (h.size hf)
  rw [hn, hj] at hbig
  -- a block that is large enough is in a queue that has been looked at
  have hlow : ∀ g ∈ s.fblocks, ipbucketBlockSize length ≤ (s.fblock g).blockSize → ∀ x : Nat,
      ipbucketIndex (s.fblock g).blockSize false = x → g ∈ s.queue x → j ≤ x := by
    intro g hg hsize x hx hgx
    have hnx := (le_ipbucketIndex_iff h1 hlen.le (h.size hg)).mpr hsize
    rw [hn, hx] at hnx
    by_contra hlt
    rw [hempty x (by omega) (by omega)] at hgx
    cases hgx
  refine ⟨hf, hbig.mp (by omega), fun g hg hsize => ?_, fun g hg hsize => ?_⟩
  · obtain ⟨m, hm, hmlt, hbs, -⟩ := ipbucketIndex_up h1 hlen.le
    obtain rfl : m = n := by rw [hn] at hm; omega
    have hgm : ipbucketIndex (s.fblock g).blockSize false = m := by rw [hsize, hbs, ipbucketIndex_classSize hmlt]
    obtain ⟨x, hx, hgx⟩ := hidx g hg
    obtain rfl : x = m := by rw [hgm] at hx; omega
    obtain rfl : x = j := Nat.le_antisymm hi (hlow g hg (Nat.le_of_eq hsize.symm) x hgm hgx)
    have hexact : s.Exact f := by
      rw [hq] at hgx
      rcases List.mem_cons.mp hgx with rfl | hrest
      · rw [Space.Exact, hsize, hbs, ipbucketBlockSize_classSize hmlt]
      · have hpair := h.exactFirst x
        rw [hq] at hpair
        refine List.rel_of_pairwise_cons hpair hrest ?_
        rw [Space.Exact, hsize, hbs, ipbucketBlockSize_classSize hmlt]
    rw [hbs]
    exact exact_in_class hmlt (h.size hf) hj hexact
  · obtain ⟨x, hx, hgx⟩ := hidx g hg
    rw [hj, hx, Int.ofNat_le]
    exact hlow g hg hsize x hx hgx

end

/-- **The loop.** -/
theorem getFreeBlock_spec {a : Nat} : ∀ {n : Nat} {s : Space}, FreeInv s → a ∉ s.items → 1 ≤ (s.item a).length →
    (s.item a).length < 2 ^ 32 → ∃ k s', s.getFreeBlock a n = some (k, s') ∧ GetSpec a n s k s' ∧ ExactFirst s' := by
  intro n
  induction n with
  | zero | succ n ih =>
    intro s h ha h1 hlen
    obtain ⟨m, hm, hmlt, -, -⟩ := ipbucketIndex_up h1 hlen.le
    unfold Space.getFreeBlock
    cases hg : s.ipbucketGet (s.item a).length with
    | none =>
      refine ⟨0, s, rfl, .noSpace (fun g d hu => ?_) (Discards.refl s), h.exactFirst⟩
      by_contra hge
      have hgf := h.mem_fblocks hu.1
      obtain ⟨x, hx, hxlt, -⟩ := ipbucketIndex_down (h.size hgf)
      have hnx := (le_ipbucketIndex_iff h1 hlen.le (h.size hgf)).mpr (by omega)
      have hq := h.queued hgf
      rw [hx, Int.toNat_natCast, ipbucketGet_none hm hg x (by omega) hxlt] at hq
      cases hq
    | some x =>
      obtain ⟨f, s₀⟩ := x
      obtain ⟨rfl, i, rest, hq, hi, hempty⟩ := ipbucketGet_some hm hg
      obtain ⟨hf, hle, hexact, hlow⟩ := h.found h1 hlen hm hq hi hempty
      obtain ⟨d, hd, hdev⟩ := h.device hf
      simp only [show (s.ipbucketDel f).deviceOfFblock f = some d from hdev, Option.bind_eq_bind, Option.bind_some]
      by_cases hdel : (s.device d).deleted = true
      · rw [if_pos (show ((s.ipbucketDel f).device d).deleted = true from hdel)]
        obtain ⟨s₁, hs₁, hinv₁, hdis⟩ := h.discard hd hdev hdel
        rw [hs₁, Option.bind_some]
        first
        | exact ⟨0, s₁, rfl, .exhausted rfl hdis, hinv₁.exactFirst⟩
        | have hitem : s₁.item = s.item := hdis.item
          obtain ⟨k, s', hk, hspec, hfirst⟩ := ih hinv₁ (hdis.items ▸ ha) (hitem ▸ h1) (hitem ▸ hlen)
          exact ⟨k, s', hk, hspec.discard hf hd hdel h.inv.order.owned hdis, hfirst⟩
      · rw [if_neg (show ¬((s.ipbucketDel f).device d).deleted = true from hdel)]
        obtain ⟨s', hs', ht, hfirst⟩ := h.take hd hdev ha hle
        have hmem : ∀ g e, s.Usable g e → g ∈ s.fblocks := fun g e hu => h.mem_fblocks hu.1
        exact ⟨_, s', hs', .taken (Discards.refl s) ⟨hd, by simpa using hdel⟩ hle
          (fun g e hu => hexact g (hmem g e hu)) (fun g e hu => hlow g (hmem g e hu)) ht, hfirst⟩

/-! ## The invariant is kept -/

section

variable {al : Allocator} {s s' : Space} {a d f k : Nat}

theorem Indexed.mono (h : Indexed s) (hsub : ∀ d ∈ s'.allDevices, d ∈ s.allDevices)
    (hdev : ∀ d, (s'.device d).index = (s.device d).index ∧ (s'.device d).kicked = (s.device d).kicked) : Indexed s' := by
  intro d hd hk
  rw [(hdev d).2] at hk
  rw [(hdev d).1]
  exact h d (hsub d hd) hk

theorem Indexed.same (h : Indexed s) (hs : SameDevices s s') : Indexed s' := by
  refine h.mono (fun d hd => hs.allDevices ▸ hd) fun d => ?_
  obtain ⟨c, b, hx⟩ := hs.device d
  rw [hx]
  exact ⟨rfl, rfl⟩

theorem Indexed.kept (h : Indexed s) (hk : DevicesKept s s') : Indexed s' := by
  intro d hd hkick
  by_cases hds : d ∈ s.allDevices
  · obtain ⟨x, c, b, hx, -⟩ := hk.device d hds
    rw [hx] at hkick ⊢
    exact h d hds hkick
  · rw [hk.copies d hd hds] at hkick
    cases hkick

theorem setDevice_index {x : Device} (hi : x.index = (s.device d).index) (hk : x.kicked = (s.device d).kicked) (e : Nat) :
    ((s.setDevice d x).device e).index = (s.device e).index ∧ ((s.setDevice d x).device e).kicked = (s.device e).kicked := by
  by_cases he : e = d
  · subst he; simp [Space.setDevice, hi, hk]
  · simp [Space.setDevice, he]

theorem FreeInv.itemDelete (h : FreeInv s) (ha : a ∈ s.items) (hd : s.itemDelete al a = some s') :
    FreeInv s' ∧ ItemGone a s s' := by
  obtain ⟨hinv, hgone⟩ := itemDelete_inv (fun hf => hf.elim) h.inv ha hd
  refine ⟨⟨hinv, ?_, ?_⟩, hgone⟩
  all_goals
    unfold Space.itemDelete at hd
    dsimp only at hd
    split at hd
  · cases hd; exact h.indexed
  · obtain ⟨⟨k, s₁⟩, hr, rfl⟩ := Option.map_eq_some_iff.mp hd
    have hkept := h.indexed.kept (deviceReturnFreeBlock_kept h.inv.links ha hr).2.1
    exact hkept
  · cases hd; exact h.exactFirst.same rfl rfl
  · obtain ⟨⟨k, s₁⟩, hr, rfl⟩ := Option.map_eq_some_iff.mp hd
    exact (h.exactFirst.ret h.inv.queue.owned hr).same rfl rfl

theorem spaceHost_keeps_free : (spaceHost al).Keeps FreeInv where
  space_withSpace _ _ := rfl
  withSpace_space _ := rfl
  withSpace_withSpace _ _ _ := rfl
  inv _ h := h.inv.links
  fblockDelete s f d s' h hd hf hs :=
    ⟨(@spaceHost_keeps False al fun hf => hf.elim).fblockDelete s f d s' h.inv hd hf hs,
      h.indexed.same (deviceFblockDelete_same hs), h.exactFirst.fblockDelete hs⟩
  itemDelete _ _ _ h ha hd := h.itemDelete ha hd
  close s d h hd hu :=
    ⟨(@spaceHost_keeps False al fun hf => hf.elim).close s d h.inv hd hu,
      h.indexed.mono (fun _ hx => hx) (setDevice_index rfl rfl), h.exactFirst.same rfl rfl⟩
  destroy s d t h hd ho ht := by
    refine ⟨(@spaceHost_keeps False al fun hf => hf.elim).destroy s d t h.inv hd ho ht,
      h.indexed.mono (fun x hx => ?_) fun _ => ⟨rfl, rfl⟩, h.exactFirst.same rfl rfl⟩
    rcases List.mem_append.mp hx with hx | hx
    · exact List.mem_append_left _ hx
    · exact List.mem_append_right _ (List.mem_of_mem_erase hx)

theorem FreeInv.get (h : FreeInv s) (ha : a ∉ s.items) (h1 : 1 ≤ (s.item a).length) (hlen : (s.item a).length < 2 ^ 32)
    (hg : s.deviceGetFreeBlock a = some (k, s')) : FreeInv s' := by
  obtain ⟨k', s'', hk, -, hfirst⟩ := @getFreeBlock_spec a loopLimit s h ha h1 hlen
  rw [Space.deviceGetFreeBlock, hk] at hg
  cases hg
  exact ⟨getFreeBlock_inv h.inv h1 hlen hk, h.indexed.same (getFreeBlock_links h.inv.links hk).2.1, hfirst⟩

theorem FreeInv.delete (h : FreeInv s) (hd : d ∈ s.devices) : FreeInv (s.deviceDelete d) := by
  refine ⟨deviceDelete_inv h.inv hd, ?_, h.exactFirst.deviceDelete d⟩
  unfold Space.deviceDelete
  dsimp only
  split
  · exact h.indexed.mono (fun x hx => ((mem_allDevices_leave h.inv.dev hd x).mp hx).1) fun _ => ⟨rfl, rfl⟩
  · refine h.indexed.mono (fun x hx => ?_) (setDevice_index rfl rfl)
    rcases List.mem_append.mp hx with hx | hx
    · exact List.mem_append_left _ (List.mem_of_mem_erase hx)
    · rcases List.mem_cons.mp hx with rfl | hx
      · exact List.mem_append_left _ hd
      · exact List.mem_append_right _ hx

theorem add_index {t t' : IdxPointer} {p : Nat} {i : Int} (ht : t.lowest < iptArraySize) (h : t.add p = some (i, t')) :
    i ≠ -1 := by
  rw [IdxPointer.add, if_neg (by omega)] at h
  obtain ⟨n, -, he⟩ := Option.map_eq_some_iff.mp h
  cases he
  omega

/-- A new device, when there is a slot for it. -/
theorem FreeInv.add {file capacity : Nat} (h : FreeInv s) (hd : d ∉ s.allDevices) (hcap : capacity ≤ capacityLimit)
    (hdvd : 512 ∣ capacity) (hslot : s.deviceIndexs.lowest < iptArraySize)
    (hadd : s.deviceAdd al d file capacity = some s') : FreeInv s' := by
  have hinv := deviceAdd_inv h.inv hd hcap hdvd hadd
  unfold Space.deviceAdd at hadd
  obtain ⟨⟨i, t⟩, ht, hadd⟩ := Option.bind_eq_some_iff.mp hadd
  dsimp only at hadd
  generalize hs₁ : ({ s with
    devices := s.devices ++ [d]
    deviceIndexs := t
    device := Function.update s.device d
      { deleted := false, kicked := false, fdOpen := true, index := i, used := 0, file, capacity, consumed := 0, badblock := 0 }
    order := Function.update s.order d []
    retired := Function.update s.retired d [] } : Space) = s₁ at hadd
  have hidx : Indexed s₁ := by
    subst hs₁
    intro x hx hk
    dsimp only at hk ⊢
    by_cases hxd : x = d
    · rw [hxd, Function.update_self]
      exact add_index hslot ht
    · rw [Function.update_of_ne hxd] at hk ⊢
      refine h.indexed x ?_ hk
      simpa [Space.allDevices, hxd] using hx
  have hfirst : ExactFirst s₁ := by subst hs₁; exact h.exactFirst.same rfl rfl
  have hq : Owned s₁.queue s₁.fblocks := by subst hs₁; exact h.inv.queue.owned
  split at hadd
  · have hsame := hidx.same (deviceFblockInsert_same al d none 0 capacity s₁)
    have hins := hfirst.insert hq al d none 0 capacity
    split at hadd
    · cases hadd; exact ⟨hinv, hsame, hins⟩
    · cases hadd
      refine ⟨hinv, fun x hx hk => ?_, hins.same rfl rfl⟩
      by_cases hxd : x = d
      · subst hxd
        simp [Space.setDevice] at hk
      · simp only [Space.setDevice, Function.update_of_ne hxd] at hk ⊢
        exact hsame x hx hk
  · cases hadd; exact ⟨hinv, hidx, hfirst⟩

/-! ### Loading -/

/-- What holds while device `d` is loaded. -/
structure LoadingFree (d f : Nat) (s : Space) : Prop where
  loading : Loading False d f s
  indexed : Indexed s
  exactFirst : ExactFirst (s.ipbucketDel f)

theorem FreeInv.loading (h : FreeInv s) (hc : s.current d = some f) : LoadingFree d f s :=
  ⟨h.inv.loading hc, h.indexed, h.exactFirst.del f⟩

/-- The gap before a loaded item is queued, if there is memory for it. -/
theorem LoadingFree.insert (h : LoadingFree d f s) (base : Option Node) (offset size : Nat) :
    ExactFirst ((s.deviceFblockInsert al d base offset size).2.ipbucketDel f) ∧
      ∀ i, f ∉ ((s.deviceFblockInsert al d base offset size).2.ipbucketDel f).queue i := by
  have hnot : ∀ i, f ∉ (s.ipbucketDel f).queue i := fun i hi => by
    simpa using (h.loading.queue.owned.covers f).mpr ⟨i, hi⟩
  unfold Space.deviceFblockInsert
  split
  · exact ⟨h.exactFirst.same rfl rfl, hnot⟩
  next g hg =>
  have hgs : g ∉ s.fblocks := al.fresh hg
  have hgf : g ≠ f := fun he => hgs (he ▸ h.loading.live)
  have hgq : ∀ i, g ∉ (s.ipbucketDel f).queue i := fun i hi =>
    hgs (List.mem_of_mem_filter ((h.loading.queue.owned.covers g).mpr ⟨i, hi⟩))
  have hadd := (h.exactFirst.setFblock hgq ⟨(s.device d).index, offset % 2 ^ 40, size⟩).add g
  refine ⟨hadd.same (ipbucketAdd_ipbucketDel hgf) rfl, fun i hi => ?_⟩
  rw [ipbucketAdd_ipbucketDel hgf] at hi
  obtain ⟨l, hperm, hq⟩ := ipbucketAdd_queue ((s.ipbucketDel f).setFblock g ⟨(s.device d).index, offset % 2 ^ 40, size⟩) g
  have hi' : f ∈ (((s.ipbucketDel f).setFblock g ⟨(s.device d).index, offset % 2 ^ 40, size⟩).ipbucketAdd g).queue i := hi
  rw [hq, mem_update] at hi'
  rcases hi' with ⟨-, hl⟩ | ⟨-, hold⟩
  · rcases List.mem_cons.mp (hperm.mem_iff.mp hl) with he | hold
    · exact hgf he.symm
    · exact hnot _ hold
  · exact hnot i hold

theorem LoadingFree.cut (h : LoadingFree d f s) (ha : a ∉ s.items) (hidx : (s.item a).deviceIndex = (s.device d).index)
    (h1 : 1 ≤ (s.item a).length) (hlen : (s.item a).length < 2 ^ 32) (hoff : 512 ∣ (s.item a).offset)
    (hc : s.deviceCutFreeBlock al a = some (k, s')) : LoadingFree d f s' ∧ (k = 0 → s' = s) := by
  obtain ⟨hload, hzero⟩ := deviceCutFreeBlock_loading (fun hf => hf.elim) h.loading ha hidx h1 hlen hoff hc
  suffices hboth : Indexed s' ∧ ExactFirst (s'.ipbucketDel f) from ⟨⟨hload, hboth.1, hboth.2⟩, hzero⟩
  unfold Space.deviceCutFreeBlock at hc
  obtain ⟨e, he, hc⟩ := Option.bind_eq_some_iff.mp hc
  obtain rfl : e = d := by
    rw [Space.deviceOfItem, hidx] at he
    exact Option.some.inj (he.symm.trans ((h.loading.dev.index d h.loading.device h.loading.kicked).resolve_left
      (h.indexed d h.loading.device h.loading.kicked)))
  rw [h.loading.current] at hc
  simp only [Option.bind_eq_bind, Option.bind_some] at hc
  split at hc
  · cases hc; exact ⟨h.indexed, h.exactFirst⟩
  cases hc
  have hnot : ∀ i, f ∉ (s.ipbucketDel f).queue i := fun i hi => by
    simpa using (h.loading.queue.owned.covers f).mpr ⟨i, hi⟩
  split
  · obtain ⟨hfirst, hf⟩ := @LoadingFree.insert al s e f h (some (.fblock f)) (s.fblock f).offset
      ((s.item a).offset - (s.fblock f).offset)
    refine ⟨(h.indexed.same (deviceFblockInsert_same al e _ _ _ s)).same (linkLoaded_same ..), ?_⟩
    exact (hfirst.setFblock hf _).same rfl rfl
  · refine ⟨h.indexed.same (linkLoaded_same ..), ?_⟩
    exact (h.exactFirst.setFblock hnot _).same rfl rfl

theorem LoadingFree.item {x : Nat × Item} (h : LoadingFree d f s) (hx : x.2.WellFormed)
    (hl : s.loadItem al d x = some s') : LoadingFree d f s' := by
  have hload := loadItem_loading (fun hf => hf.elim) h.loading hx hl
  unfold Space.loadItem at hl
  split at hl
  · cases hl
  next hnew =>
  obtain ⟨⟨k, s₁⟩, hc, rfl⟩ := Option.map_eq_some_iff.mp hl
  have hself : (s.setItem x.1 { x.2 with deviceIndex := (s.device d).index }).item x.1 =
      { x.2 with deviceIndex := (s.device d).index } := Function.update_self ..
  have hset : LoadingFree d f (s.setItem x.1 { x.2 with deviceIndex := (s.device d).index }) :=
    ⟨h.loading.setItem fun hmem => absurd hmem hnew, h.indexed, h.exactFirst.same rfl rfl⟩
  obtain ⟨hcut, -⟩ := hset.cut hnew (by rw [hself]; rfl) (by rw [hself]; exact hx.pos) (by rw [hself]; exact hx.length)
    (by rw [hself]; exact hx.aligned) hc
  refine ⟨hload, ?_, ?_⟩
  · dsimp only
    split
    · exact hcut.indexed
    · exact hcut.indexed
  · dsimp only
    split
    · exact hcut.exactFirst.same rfl rfl
    · exact hcut.exactFirst

theorem LoadingFree.items {l : List (Nat × Item)} (h : LoadingFree d f s) (hl : ∀ x ∈ l, x.2.WellFormed)
    (hf : l.foldlM (fun s x => s.loadItem al d x) s = some s') : LoadingFree d f s' := by
  induction l generalizing s with
  | nil => cases hf; exact h
  | cons x l ih =>
    rw [List.foldlM_cons] at hf
    obtain ⟨s₁, h₁, hrest⟩ := Option.bind_eq_some_iff.mp hf
    exact ih (h.item (hl x (by simp)) h₁) (fun y hy => hl y (List.mem_cons_of_mem _ hy)) hrest

theorem LoadingFree.post (h : LoadingFree d f s) (hp : s.deviceLoadPost d = some s') : FreeInv s' := by
  have hinv := deviceLoadPost_inv h.loading hp
  unfold Space.deviceLoadPost at hp
  rw [h.loading.current] at hp
  simp only [Option.bind_eq_bind, Option.bind_some] at hp
  split at hp
  · refine ⟨hinv, h.indexed.same (deviceFblockDelete_same hp), ?_⟩
    obtain ⟨e, -, rfl⟩ := Option.map_eq_some_iff.mp hp
    exact h.exactFirst.same rfl rfl
  · cases hp
    exact ⟨hinv, h.indexed, h.exactFirst.add f⟩

end

/-! ### Runs -/

/-- No block is asked for nothing, and a new device finds a slot. -/
def FreeOk (s : Space) : SpaceEvent → Prop
  | .get _ x => x.length ≠ 0
  | .add _ _ _ => s.deviceIndexs.lowest < iptArraySize
  | _ => True

theorem Space.empty_free (p : Int) : FreeInv (.empty p) :=
  ⟨Space.empty_inv p, fun d hd => absurd hd (by simp [Space.allDevices, Space.empty]), fun i => List.Pairwise.nil⟩

theorem spaceStep_free {al : Allocator} {s s' : Space} {e : SpaceEvent} (h : FreeInv s) (hok : FreeOk s e)
    (hs : SpaceStep al s e s') : FreeInv s' := by
  cases hs with
  | add hd hdvd hcap hadd => exact h.add hd hcap hdvd hok hadd
  | @get a x k _ ha hlen hg =>
    have hx : (s.setItem a x).item a = x := Function.update_self ..
    have hset : FreeInv (s.setItem a x) := ⟨h.inv.setItem x ha, h.indexed, h.exactFirst.same rfl rfl⟩
    exact hset.get ha (by rw [hx]; exact Nat.pos_of_ne_zero hok) (by rw [hx]; exact hlen) hg
  | mark => exact ⟨h.inv.markItem rfl rfl rfl, h.indexed, h.exactFirst.same rfl rfl⟩
  | ret ha hr =>
    have hkept := h.indexed.kept (deviceReturnFreeBlock_kept h.inv.links ha hr).2.1
    exact ⟨deviceReturnFreeBlock_inv (fun hf => hf.elim) h.inv ha hr, hkept,
      (h.exactFirst.ret h.inv.queue.owned hr).same rfl rfl⟩
  | extend he => exact spaceHost_keeps_free.extend h he
  | load hrec hc hl hp =>
    obtain ⟨f, hf⟩ := Option.isSome_iff_exists.mp hc
    exact ((h.loading hf).items hrec hl).post hp
  | delete hd => exact h.delete hd
  | routine hr => exact spaceHost_keeps_free.deviceRoutine h hr

/-- **The representation invariant holds in every state that is reached.** -/
theorem freeInv_of_reach {al : Allocator} {s : Space} (h : (spaceSystem al).Reach FreeOk s) : FreeInv s := by
  refine h.invariant (fun s hi => ?_) fun s e s' _ hinv hok hs => spaceStep_free hinv hok hs
  obtain ⟨p, rfl⟩ := hi
  exact Space.empty_free p

/-! ## The specification -/

/-- **`device_get_free_block` meets its specification** in every state in
which the representation invariant holds. In particular it returns: neither
the "oops" nor a lost pointer ends the process. -/
theorem get_free_block_spec {s : Space} {a : Nat} (h : FreeInv s) (ha : a ∉ s.items) (h1 : 1 ≤ (s.item a).length)
    (hlen : (s.item a).length ≤ 2 ^ 32 - 1) : ∃ k s', s.deviceGetFreeBlock a = some (k, s') ∧ GetSpec a loopLimit s k s' := by
  obtain ⟨k, s', hk, hspec, -⟩ := @getFreeBlock_spec a loopLimit s h ha h1 (by omega)
  exact ⟨k, s', hk, hspec⟩

/-- On a device of a mebibyte that has just been added. -/
theorem get_free_block_spec_added : ∃ s, FreeInv s ∧ s.Usable 1 0 ∧ (s.fblock 1).blockSize = 2 ^ 20 ∧
    ∃ k s', s.deviceGetFreeBlock 5 = some (k, s') ∧ GetSpec 5 loopLimit s k s' := by
  have hrun : ((Space.empty 0).deviceAdd .unbounded 0 0 (2 ^ 20)).map (fun s => (s.order 0, (s.device 0).deleted,
      (s.fblock 1).blockSize, s.items)) = some ([.fblock 1], false, 2 ^ 20, []) := by decide +kernel
  obtain ⟨s, hs, hview⟩ := Option.map_eq_some_iff.mp hrun
  simp only [Prod.mk.injEq] at hview
  obtain ⟨horder, hdel, hsize, hitems⟩ := hview
  have hinv : FreeInv s := (Space.empty_free 0).add (by simp [Space.allDevices, Space.empty]) (by decide) (by decide)
    (by decide) hs
  have ha : 5 ∉ s.items := by simp [hitems]
  have hset : FreeInv (s.setItem 5 (.ofLength 600)) := ⟨hinv.inv.setItem _ ha, hinv.indexed, hinv.exactFirst.same rfl rfl⟩
  have hlen : ((s.setItem 5 (.ofLength 600)).item 5).length = 600 := by simp [Space.setItem, Item.ofLength]
  refine ⟨s.setItem 5 (.ofLength 600), hset, ⟨?_, hdel⟩, hsize, get_free_block_spec hset ha ?_ ?_⟩
  · show .fblock 1 ∈ s.order 0
    simp [horder]
  · rw [hlen]; decide
  · rw [hlen]; decide

/-- **In every run of the device manager** the next block is asked for in
a state in which `device_get_free_block` meets its specification, and it
leaves such a state. -/
theorem get_free_block_run {al : Allocator} {s : Space} (h : (spaceSystem al).Reach FreeOk s) {a : Nat} {x : Item}
    (ha : a ∉ s.items) (h1 : 1 ≤ x.length) (hlen : x.length ≤ 2 ^ 32 - 1) :
    ∃ k s', (s.setItem a x).deviceGetFreeBlock a = some (k, s') ∧ GetSpec a loopLimit (s.setItem a x) k s' ∧ FreeInv s' ∧
      (spaceSystem al).Reach FreeOk s' := by
  have hinv := freeInv_of_reach h
  have hx : (s.setItem a x).item a = x := Function.update_self ..
  have hset : FreeInv (s.setItem a x) := ⟨hinv.inv.setItem x ha, hinv.indexed, hinv.exactFirst.same rfl rfl⟩
  obtain ⟨k, s', hk, hspec, -⟩ := @getFreeBlock_spec a loopLimit _ hset ha (by rw [hx]; exact h1) (by rw [hx]; omega)
  have hok : FreeOk s (.get a x) := Nat.ne_of_gt h1
  have hreach : (spaceSystem al).Reach FreeOk s' := .step h hok (SpaceStep.get ha (by omega) hk)
  exact ⟨k, s', hk, hspec, freeInv_of_reach hreach, hreach⟩

/-- Two blocks one after the other, on a device of a mebibyte. -/
theorem get_free_block_run_twice : ∃ s k s', (spaceSystem .unbounded).Reach FreeOk s ∧ s.items = [5] ∧
    (s.setItem 6 (.ofLength 900)).deviceGetFreeBlock 6 = some (k, s') ∧
      GetSpec 6 loopLimit (s.setItem 6 (.ofLength 900)) k s' ∧ FreeInv s' := by
  have hrun : (((Space.empty 0).deviceAdd .unbounded 0 0 (2 ^ 20)).bind fun s =>
      ((s.setItem 5 (.ofLength 600)).deviceGetFreeBlock 5).map fun x => (s.items, x.2.items)) = some ([], [5]) := by
    decide +kernel
  obtain ⟨s, hadd, hrun⟩ := Option.bind_eq_some_iff.mp hrun
  obtain ⟨⟨k, s'⟩, hget, hview⟩ := Option.map_eq_some_iff.mp hrun
  simp only [Prod.mk.injEq] at hview
  have hslot : FreeOk (.empty 0) (.add 0 0 (2 ^ 20)) := by
    unfold FreeOk
    decide
  have hr : (spaceSystem .unbounded).Reach FreeOk s := .step (.init ⟨0, rfl⟩) hslot
    (SpaceStep.add (by simp [Space.allDevices, Space.empty]) (by decide) (by decide) hadd)
  have hlen : FreeOk s (.get 5 (.ofLength 600)) := by simp [FreeOk, Item.ofLength]
  have hr' : (spaceSystem .unbounded).Reach FreeOk s' := .step hr hlen
    (SpaceStep.get (by rw [hview.1]; decide) (by simp [Item.ofLength]) hget)
  obtain ⟨k', s'', hk, hspec, hinv, -⟩ := get_free_block_run hr' (a := 6) (x := .ofLength 900) (by rw [hview.2]; decide)
    (by simp [Item.ofLength]) (by simp [Item.ofLength])
  exact ⟨s', k', s'', hr', hview.2, hk, hspec, hinv⟩

end OliveHc
