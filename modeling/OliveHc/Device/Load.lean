/-
Items that are loaded from a dump.

While a device is loaded its last free block, the remaining space, keeps
its old place in the queues and may become empty. `Loading` says what
holds then; `device_load_post` ends it.
-/
import OliveHc.Device.Return

namespace OliveHc

variable {strict : Prop} {al : Allocator} {s s' : Space} {a d f k : Nat}

/-- Pieces begin at multiples of 512, too. -/
theorem Layout.dvd_offset {capacity : Nat} {order : List Node} {extent : Node → Nat × Nat} {A B : List Tile} {t : Tile}
    (h : Layout capacity order extent (A ++ [t] ++ B)) : 512 ∣ t.offset := by
  have htiles := h.tiles
  rw [List.append_assoc] at htiles
  obtain ⟨x, hA, ht⟩ := tiles_append.mp htiles
  have hsum := hA.sum_size
  have hdvd : 512 ∣ (A.map Seg.size).sum := by
    refine List.dvd_sum fun n hn => ?_
    obtain ⟨u, hu, rfl⟩ := List.mem_map.mp hn
    exact h.aligned u (by simp [hu])
  rw [ht.1, ← hsum, Nat.zero_add]
  exact hdvd

/-- The state without an empty remaining space. -/
def Space.dropEmpty (d f : Nat) (s : Space) : Space :=
  if (s.fblock f).blockSize = 0 then
    { s.setOrder d ((s.order d).erase (.fblock f)) with fblocks := s.fblocks.filter (· ≠ f) }
  else s

/-- What holds while device `d` is loaded, with the remaining space `f`. -/
structure Loading (strict : Prop) (d f : Nat) (s : Space) : Prop where
  dev : DevInv s
  queue : QueueInv (s.ipbucketDel f) (s.fblocks.filter (· ≠ f))
  order : OrderInv strict (s.dropEmpty d f)
  index : (s.fblock f).deviceIndex = (s.device d).index
  current : s.current d = some f
  live : f ∈ s.fblocks
  device : d ∈ s.allDevices
  kicked : (s.device d).kicked = false

/-- The pieces before a loaded item: the gap, as the free blocks `l`, or lost. -/
inductive GapPiece (strict : Prop) (s s' : Space) (index : Int) (offset gap : Nat) : List Nat → List Tile → Prop
  | nothing (h : gap = 0) : GapPiece strict s s' index offset gap [] []
  | fblock (h : 0 < gap) (g : Nat) (hg : g ∉ s.fblocks) (he : s'.fblock g = ⟨index, offset, gap⟩) :
    GapPiece strict s s' index offset gap [g] [⟨some (.fblock g), offset, gap⟩]
  | lost (h : 0 < gap) (hs : ¬strict) : GapPiece strict s s' index offset gap [] [⟨none, offset, gap⟩]

theorem GapPiece.congr {s₁ : Space} {index : Int} {offset gap : Nat} {gs : List Nat} {G : List Tile}
    (h : GapPiece strict s s₁ index offset gap gs G) (hf : f ∈ s.fblocks)
    (he : ∀ x, x ≠ f → s'.fblock x = s₁.fblock x) : GapPiece strict s s' index offset gap gs G := by
  cases h with
  | nothing h => exact .nothing h
  | fblock h g hg hs => exact .fblock h g hg ((he g fun hgf => hg (hgf ▸ hf)).trans hs)
  | lost h hs => exact .lost h hs

/-- The pieces behind it: the remaining space `f`, unless it is empty. -/
inductive RestPiece (s' : Space) (f : Nat) (index : Int) (offset rest : Nat) : List Nat → List Tile → Prop
  | nothing (h : rest = 0) : RestPiece s' f index offset rest [] []
  | fblock (h : 0 < rest) (he : s'.fblock f = ⟨index, offset, rest⟩) :
    RestPiece s' f index offset rest [f] [⟨some (.fblock f), offset, rest⟩]

/-- An item takes its block out of a free block, at its own offset. -/
theorem OrderInv.cutFront (gap rest : Nat) {A B G C : List Tile} {gs cs : List Nat} {bs : Nat} (h : OrderInv strict s)
    (hf : .fblock f ∈ s.order d) (ha : a ∉ s.items) (hbs : bs = ipbucketBlockSize (s.item a).length) (hpos : 0 < bs)
    (hlen : (s.item a).length < 2 ^ 32) (hidx : (s.item a).deviceIndex = (s.device d).index)
    (hoff : (s.item a).offset = (s.fblock f).offset + gap) (hsize : (s.fblock f).blockSize = gap + bs + rest)
    (halg : 512 ∣ gap) (halb : 512 ∣ bs) (halr : 512 ∣ rest)
    (hT : Layout (s.device d).capacity (s.order d) s.extent (A ++ [s.tile (.fblock f)] ++ B))
    (htidy : strict → (s.device d).deleted = false →
      Tidy (s.device d) (s.retired d) (A ++ [s.tile (.fblock f)] ++ B))
    (hsame : SameDevices s s')
    (hdevice : s'.device = Function.update s.device d { s.device d with consumed := (s.device d).consumed + bs })
    (hretired : s'.retired = s.retired)
    (hord : s'.order = Function.update s.order d
      (A.filterMap Seg.tag ++ (gs.map Node.fblock ++ [.item a] ++ cs.map .fblock) ++ B.filterMap Seg.tag))
    (hitem : s'.item = s.item) (hitems : ∀ x, x ∈ s'.items ↔ x = a ∨ x ∈ s.items)
    (hfblocks : ∀ x, x ∈ s'.fblocks ↔ x ∈ gs ∨ x ∈ cs ∨ x ∈ s.fblocks ∧ x ≠ f)
    (hkeep : ∀ x ∈ s.fblocks, x ≠ f → s'.fblock x = s.fblock x)
    (hG : GapPiece strict s s' (s.device d).index (s.fblock f).offset gap gs G)
    (hC : RestPiece s' f (s.device d).index ((s.fblock f).offset + gap + bs) rest cs C) : OrderInv strict s' := by
  have hff : f ∈ s.fblocks := Space.mem_nodes_fblock.mp ((h.owned.covers _).mpr ⟨d, hf⟩)
  have han : .item a ∉ s.nodes := fun hn => ha (Space.mem_nodes_item.mp hn)
  have htags : (G ++ [s.tile (.item a)] ++ C).filterMap Seg.tag = gs.map Node.fblock ++ [.item a] ++ cs.map .fblock := by
    cases hG <;> cases hC <;> rfl
  refine h.splice (N := G ++ [s.tile (.item a)] ++ C) (h.mem_allDevices hf) (h.not_kicked hf) hT hsame
    (fun x hx => ⟨by rw [hdevice, Function.update_of_ne hx], by rw [hretired]⟩) (by rw [hord, htags]) ?_ ?_ ?_ ?_ ?_ ?_ ?_ ?_
  · intro x y ht
    simp only [Tiles, Seg.stop, Space.extent] at ht
    cases hG <;> cases hC <;>
      simp only [List.nil_append, List.append_nil, List.cons_append, Tiles, Seg.stop, Space.extent, ← hbs] <;> omega
  · have hit : 512 ∣ (s.tile (.item a)).size ∧ ∀ n, (s.tile (.item a)).tag = some n →
        s'.extent n = ((s.tile (.item a)).offset, (s.tile (.item a)).size) ∧ s'.nodeIndex n = (s.device d).index := by
      refine ⟨by rwa [hbs] at halb, fun n hn => ?_⟩
      cases hn
      simp only [Space.extent, Space.nodeIndex, hitem, hidx, and_self]
    intro t ht
    simp only [List.mem_append, List.mem_singleton] at ht
    rcases ht with (ht | rfl) | ht
    · cases hG with
      | nothing => cases ht
      | fblock _ g _ he =>
        obtain rfl := List.mem_singleton.mp ht
        refine ⟨halg, fun n hn => ?_⟩
        cases hn
        simp only [Space.extent, Space.nodeIndex, he, and_self]
      | lost =>
        obtain rfl := List.mem_singleton.mp ht
        exact ⟨halg, fun n hn => by cases hn⟩
    · exact hit
    · cases hC with
      | nothing => cases ht
      | fblock _ he =>
        obtain rfl := List.mem_singleton.mp ht
        refine ⟨halr, fun n hn => ?_⟩
        cases hn
        simp only [Space.extent, Space.nodeIndex, he, and_self]
  · rw [htags]
    cases hG <;> cases hC <;> simp_all [Space.mem_nodes_fblock]
  · rw [htags]
    cases hG with
    | nothing => cases hC <;> simp
    | fblock _ g hg _ =>
      have hgf : g ≠ f := fun he => hg (he ▸ hff)
      cases hC <;> simp [hgf]
    | lost => cases hC <;> simp
  · intro n
    rw [htags]
    cases n with
    | item x => simp [Space.mem_nodes_item, hitems]
    | fblock x =>
      simp [Space.mem_nodes_fblock, hfblocks, or_assoc]
  · intro n hn hnf
    cases n with
    | item x => simp only [Space.extent, Space.nodeIndex, hitem, and_self]
    | fblock x =>
      have hx : x ≠ f := by simpa using hnf
      simp only [Space.extent, Space.nodeIndex, hkeep x (Space.mem_nodes_fblock.mp hn) hx, and_self]
  · intro x hx
    rw [hitem]
    rcases (hitems x).mp hx with rfl | hx
    · exact hlen
    · exact h.length x hx
  · intro hs hdel
    have hdel' : (s.device d).deleted = false := by
      obtain ⟨c, e, hx⟩ := hsame.device d
      rwa [hx] at hdel
    have ht := htidy hs hdel'
    have hnf : ¬IsFree (some (Node.item a)) := by rintro ⟨g, hg⟩; cases hg
    have hl := ht.coalesced.not_free_last (m := []) ⟨f, rfl⟩
    have hr := ht.coalesced.not_free_head (m := []) ⟨f, rfl⟩
    refine ht.splice ?_ (by simp) (fun x => ?_) ?_ ?_
    · refine ht.coalesced.splice ?_ (by simp) ?_ ?_
      · cases hG <;> cases hC <;> simp [Coalesced, hnf]
      · cases hG with
        | nothing => simp [hnf]
        | fblock => simpa using fun _ => hl
        | lost _ hns => exact absurd hs hns
      · cases hC with
        | nothing => simp [hnf]
        | fblock => simpa using fun _ => hr
    · cases hG with
      | lost _ hns => exact absurd hs hns
      | nothing => cases hC <;> simp [hretired]
      | fblock => cases hC <;> simp [hretired]
    · cases hG with
      | lost _ hns => exact absurd hs hns
      | nothing => cases hC <;> simp [hdevice, sizeOf]
      | fblock => cases hC <;> simp [hdevice, sizeOf]
    · cases hG with
      | lost _ hns => exact absurd hs hns
      | nothing => cases hC <;> simp [hdevice, sizeOf, itemTag, Space.extent, hbs]
      | fblock => cases hC <;> simp [hdevice, sizeOf, itemTag, Space.extent, hbs]

/-- Two free blocks are queued and unqueued independently. -/
theorem ipbucketAdd_ipbucketDel {g : Nat} (hne : g ≠ f) :
    ((s.ipbucketAdd g).ipbucketDel f).queue = ((s.ipbucketDel f).ipbucketAdd g).queue := by
  have hcons : ∀ l : List Nat, (g :: l).erase f = g :: l.erase f := fun l => List.erase_cons_tail (by simpa using hne)
  have happend : ∀ l : List Nat, (l ++ [g]).erase f = l.erase f ++ [g] := by
    intro l
    rw [List.erase_append]
    split
    · rfl
    · next hnot => rw [List.erase_of_not_mem (by simpa using hne.symm), List.erase_of_not_mem hnot]
  funext i
  simp only [Space.ipbucketAdd, Space.ipbucketDel]
  by_cases hi : i = (ipbucketIndex (s.fblock g).blockSize false).toNat
  · subst hi
    simp only [Function.update_self]
    split
    · next hs => exact (hcons _).trans (if_pos hs).symm
    · next hs => exact (happend _).trans (if_neg hs).symm
  · simp only [Function.update_of_ne hi]

/-- What the gap block of `device_cut_free_block` adds to the state: the free
blocks `gs`, none or one, before the last node. -/
structure GapDone (s s₁ : Space) (d f : Nat) (L : List Node) (gs : List Nat) : Prop where
  same : SameDevices s s₁
  device : s₁.device = s.device
  retired : s₁.retired = s.retired
  item : s₁.item = s.item
  items : s₁.items = s.items
  order : s₁.order = Function.update s.order d (L ++ gs.map .fblock ++ [.fblock f])
  fblocks : s₁.fblocks = gs ++ s.fblocks
  fblock : ∀ x ∈ s.fblocks, s₁.fblock x = s.fblock x
  queue : QueueInv (s₁.ipbucketDel f) (s₁.fblocks.filter (· ≠ f))

theorem gap_insert (s' : Space) {gap offset : Nat} {L : List Node} (hal : strict → ∀ t l, (al.get t l).isSome)
    (hq : QueueInv (s.ipbucketDel f) (s.fblocks.filter (· ≠ f))) (hord : s.order d = L ++ [.fblock f])
    (hL : .fblock f ∉ L) (hf : f ∈ s.fblocks) (ho : offset < 2 ^ 40)
    (hs' : s' = if gap > 0 then (s.deviceFblockInsert al d (some (.fblock f)) offset gap).2 else s) :
    ∃ gs G, GapPiece strict s s' (s.device d).index offset gap gs G ∧ GapDone s s' d f L gs := by
  have hself : Function.update s.order d (L ++ [.fblock f]) = s.order := by rw [← hord, Function.update_eq_self]
  split at hs'
  · next hgap =>
    have hsame := deviceFblockInsert_same al d (some (.fblock f)) offset gap s
    rw [← hs'] at hsame
    unfold Space.deviceFblockInsert at hs'
    cases hg : al.get s.ticks s.fblocks with
    | none =>
      rw [hg] at hs'
      subst hs'
      refine ⟨[], _, .lost hgap fun hs => ?_, hsame, rfl, rfl, rfl, rfl, ?_, rfl, fun _ _ => rfl, hq.owned, hq.size⟩
      · have := hal hs s.ticks s.fblocks
        simp [hg] at this
      · simp [hself]
    | some g =>
      rw [hg] at hs'
      subst hs'
      have hfresh : g ∉ s.fblocks := al.fresh hg
      have hne : g ≠ f := fun he => hfresh (he ▸ hf)
      refine ⟨[g], _, .fblock hgap g hfresh ?_, hsame, rfl, rfl, rfl, rfl, ?_, rfl, fun x hx => ?_, ?_⟩
      · simp only [Space.ipbucketAdd, Function.update_self, Nat.mod_eq_of_lt ho]
      · simp [Space.ipbucketAdd, hord, listAddTail_append hL]
      · have hxg : x ≠ g := fun he => hfresh (he ▸ hx)
        exact Function.update_of_ne hxg ..
      · have hadd := (hq.setFblock (f := g) (by simp [hfresh]) ⟨(s.device d).index, offset % 2 ^ 40, gap⟩).add (f := g)
          (by simp [hfresh])
        refine ⟨?_, fun i x hx => ?_⟩
        · rw [ipbucketAdd_ipbucketDel hne]
          refine hadd.owned.congr fun r => ?_
          by_cases hr : r = g
          · simp [hr, hne, Space.ipbucketAdd]
          · simp [hr, Space.ipbucketAdd]
        · rw [ipbucketAdd_ipbucketDel hne] at hx
          exact hadd.size i x hx
  · next hgap =>
    subst hs'
    exact ⟨[], [], .nothing (by omega), SameDevices.refl s', rfl, rfl, rfl, rfl, by simp [hself], rfl, fun _ _ => rfl, hq⟩

section LinkLoaded

variable {s₁ : Space} {L : List Node} {gs : List Nat} {step bs : Nat}

theorem linkLoaded_order (a step bs : Nat) (hdone : GapDone s s₁ d f L gs) (hL : .fblock f ∉ L) (hf : f ∉ gs) :
    (s₁.linkLoaded a f d step bs).order = Function.update s.order d (L ++ gs.map .fblock ++ [.item a] ++ [.fblock f]) := by
  have hnot : .fblock f ∉ L ++ gs.map Node.fblock := by simp [hL, hf]
  simp only [Space.linkLoaded, hdone.order, Function.update_idem, Function.update_self, listAddTail_append hnot]
  simp

theorem dropEmpty_same (d f : Nat) (s : Space) : SameDevices s (s.dropEmpty d f) := by
  unfold Space.dropEmpty
  split
  · exact ⟨rfl, rfl, rfl, rfl, fun _ => ⟨_, _, rfl⟩⟩
  · exact SameDevices.refl s

/-- `dropEmpty` changes only the list and what is allocated. -/
theorem dropEmpty_frame (d f : Nat) (s : Space) : (s.dropEmpty d f).fblock = s.fblock ∧ (s.dropEmpty d f).item = s.item ∧
    (s.dropEmpty d f).items = s.items ∧ (s.dropEmpty d f).retired = s.retired ∧ (s.dropEmpty d f).device = s.device := by
  unfold Space.dropEmpty
  split <;> exact ⟨rfl, rfl, rfl, rfl, rfl⟩

/-- The last free block of a list goes if it is empty. -/
theorem dropEmpty_rest {index : Int} {offset rest : Nat} (hL : .fblock f ∉ L)
    (hord : s'.order = Function.update s.order d (L ++ [.fblock f])) (hlive : f ∈ s'.fblocks)
    (hb : s'.fblock f = ⟨index, offset, rest⟩) :
    ∃ (cs : List Nat) (C : List Tile), RestPiece (s'.dropEmpty d f) f index offset rest cs C ∧
      (s'.dropEmpty d f).order = Function.update s.order d (L ++ cs.map Node.fblock) ∧
      ∀ x, x ∈ (s'.dropEmpty d f).fblocks ↔ x ∈ cs ∨ x ∈ s'.fblocks ∧ x ≠ f := by
  have hfb := (dropEmpty_frame d f s').1
  by_cases h0 : rest = 0
  · refine ⟨[], [], .nothing h0, ?_, fun x => ?_⟩
    · simp only [Space.dropEmpty, hb, if_pos h0, Space.setOrder, hord, Function.update_idem, Function.update_self]
      rw [erase_append hL]
      simp
    · simp [Space.dropEmpty, hb, h0]
  · refine ⟨[f], _, .fblock (by omega) (hfb ▸ hb), ?_, fun x => ?_⟩
    · simp [Space.dropEmpty, hb, h0, hord]
    · simp only [Space.dropEmpty, hb, if_neg h0, List.mem_singleton]
      by_cases hx : x = f
      · simp [hx, hlive]
      · simp [hx]

end LinkLoaded

/-- **Loading one item.** An item that does not fit changes nothing. -/
theorem deviceCutFreeBlock_loading (hal : strict → ∀ t l, (al.get t l).isSome) (h : Loading strict d f s)
    (ha : a ∉ s.items) (hidx : (s.item a).deviceIndex = (s.device d).index) (h1 : 1 ≤ (s.item a).length)
    (hlen : (s.item a).length < 2 ^ 32) (hoff : 512 ∣ (s.item a).offset)
    (hc : s.deviceCutFreeBlock al a = some (k, s')) : Loading strict d f s' ∧ (k = 0 → s' = s) := by
  unfold Space.deviceCutFreeBlock at hc
  obtain ⟨e, he, hc⟩ := Option.bind_eq_some_iff.mp hc
  obtain rfl : e = d := by
    rw [Space.deviceOfItem, hidx] at he
    rcases h.dev.index d h.device h.kicked with hi | hi
    · rw [hi, IdxPointer.get_neg_one] at he
      cases he
    · exact Option.some.inj (he.symm.trans hi)
  rw [h.current] at hc
  simp only [Option.bind_eq_bind, Option.bind_some] at hc
  have hpos := ipbucketBlockSize_pos h1 hlen.le
  split at hc
  · cases hc
    exact ⟨h, fun _ => rfl⟩
  next hfit =>
  simp only [not_or, Nat.not_lt] at hfit
  simp only [Option.some.injEq, Prod.mk.injEq] at hc
  obtain ⟨rfl, hs'⟩ := hc
  refine ⟨?_, fun h0 => absurd h0 (by omega)⟩
  -- The remaining space is not empty, so its list is as usual.
  have hord : OrderInv strict s := by
    have := h.order
    rwa [Space.dropEmpty, if_neg (by omega)] at this
  obtain ⟨L, hL⟩ : ∃ L, s.order e = L ++ [.fblock f] := by
    have := h.current
    unfold Space.current at this
    split at this
    · next g hg =>
      cases this
      exact ⟨_, (List.dropLast_append_getLast? _ hg).symm⟩
    · cases this
  have hf : .fblock f ∈ s.order e := by simp [hL]
  obtain ⟨A, B, hT, htidy, horder, hfA, hstop⟩ := hord.split h.dev hf
  have hnd := hord.owned.nodup e
  have hB : B.filterMap Seg.tag = [] := by
    rw [horder] at hnd
    have hfB : .fblock f ∉ B.filterMap Seg.tag := (List.nodup_cons.mp (List.nodup_append.mp hnd).2.1).1
    exact ((List.append_cons_inj_of_notMem hfA hfB).mp (horder.symm.trans hL)).2.2
  rw [hB] at horder
  have hdo := hT.dvd_offset
  have hds := (hT.bounds hf).2.2
  have hda : 512 ∣ ipbucketBlockSize (s.item a).length := dvd_ipbucketBlockSize hlen.le
  simp only [Space.extent] at hstop hdo hds
  obtain ⟨gs, G, hG, hdone⟩ := gap_insert (if (s.item a).offset - (s.fblock f).offset > 0 then
    (s.deviceFblockInsert al e (some (.fblock f)) (s.fblock f).offset ((s.item a).offset - (s.fblock f).offset)).2 else s)
    hal h.queue horder hfA h.live (by omega) rfl
  generalize hs₁ : (if (s.item a).offset - (s.fblock f).offset > 0 then
    (s.deviceFblockInsert al e (some (.fblock f)) (s.fblock f).offset ((s.item a).offset - (s.fblock f).offset)).2 else s) = s₁
    at hs' hG hdone
  have hbf : s₁.fblock f = s.fblock f := hdone.fblock f h.live
  have hfgs : f ∉ gs := by
    cases hG with
    | nothing => simp
    | fblock _ g hg _ => exact fun hm => hg (List.mem_singleton.mp hm ▸ h.live)
    | lost => simp
  have hnot : .fblock f ∉ A.filterMap Seg.tag ++ gs.map Node.fblock ++ [.item a] := by simp [hfA, hfgs]
  have hidf : (s.fblock f).deviceIndex = (s.device e).index := h.index
  have hso := linkLoaded_order a (ipbucketBlockSize (s.item a).length + ((s.item a).offset - (s.fblock f).offset))
    (ipbucketBlockSize (s.item a).length) hdone hfA hfgs
  rw [hs'] at hso
  have hbs' : s'.fblock f = ⟨(s.device e).index,
      (s.fblock f).offset + ((s.item a).offset - (s.fblock f).offset) + ipbucketBlockSize (s.item a).length,
      (s.fblock f).blockSize - (ipbucketBlockSize (s.item a).length + ((s.item a).offset - (s.fblock f).offset))⟩ := by
    rw [← hs', Space.linkLoaded]
    simp only [Function.update_self, hbf, hidf, FreeBlock.mk.injEq, true_and, and_true]
    rw [Nat.mod_eq_of_lt (by omega)]
    omega
  have hlive : f ∈ s'.fblocks := by
    rw [← hs']
    simp [Space.linkLoaded, hdone.fblocks, h.live]
  have hsame : SameDevices s s' := hdone.same.trans (hs' ▸ linkLoaded_same ..)
  obtain ⟨cs, C, hC, horder', hfbs⟩ := dropEmpty_rest hnot hso hlive hbs'
  obtain ⟨e1, e2, e3, e4, e5⟩ := dropEmpty_frame e f s'
  have hother : ∀ x, x ≠ f → s'.fblock x = s₁.fblock x := by
    intro x hx
    rw [← hs']
    exact Function.update_of_ne hx ..
  refine ⟨hsame.dev h.dev, ?_, ?_, ?_, ?_, hlive, hsame.allDevices ▸ h.device, ?_⟩
  · have hq := hdone.queue.setFblock (f := f) (by simp)
    rw [← hs']
    exact ⟨hdone.queue.owned, (hq _).size⟩
  · refine hord.cutFront ((s.item a).offset - (s.fblock f).offset)
      ((s.fblock f).blockSize - (ipbucketBlockSize (s.item a).length + ((s.item a).offset - (s.fblock f).offset)))
      hf ha rfl hpos hlen hidx (by omega) (by omega) (Nat.dvd_sub hoff hdo) hda
      (Nat.dvd_sub hds (Nat.dvd_add hda (Nat.dvd_sub hoff hdo))) hT htidy (hsame.trans (dropEmpty_same ..)) ?_ ?_ ?_ ?_ ?_ ?_ ?_
      (hG.congr h.live fun x hx => by rw [e1, hother x hx]) hC
    · rw [e5, ← hs', Space.linkLoaded, hdone.device]
    · rw [e4, ← hs', Space.linkLoaded, hdone.retired]
    · rw [horder', hB]
      simp
    · rw [e2, ← hs', Space.linkLoaded, hdone.item]
    · intro x
      rw [e3, ← hs', Space.linkLoaded, hdone.items, List.mem_cons]
    · intro x
      rw [hfbs, ← hs']
      simp only [Space.linkLoaded, hdone.fblocks, List.mem_append]
      by_cases hx : x = f
      · simp [hx, hfgs]
      · simp only [hx, not_false_eq_true, ne_eq, and_true]
        exact or_left_comm
    · intro x hx hxf
      rw [e1, hother x hxf, hdone.fblock x hx]
  · obtain ⟨c, b, hx⟩ := hsame.device e
    rw [hbs', hx]
  · rw [Space.current, hso, Function.update_self, List.getLast?_concat]
  · obtain ⟨c, b, hx⟩ := hsame.device e
    rw [hx]
    exact h.kicked

/-- **The end of loading.** -/
theorem deviceLoadPost_inv (h : Loading strict d f s) (hp : s.deviceLoadPost d = some s') : SpaceInv strict s' := by
  unfold Space.deviceLoadPost at hp
  rw [h.current] at hp
  simp only [Option.bind_eq_bind, Option.bind_some] at hp
  have hord := h.order
  unfold Space.dropEmpty at hord
  split at hp
  · next h0 =>
    rw [if_pos h0] at hord
    refine ⟨(deviceFblockDelete_same hp).dev h.dev, ?_, ?_⟩
    all_goals
      obtain ⟨e, he, rfl⟩ := Option.map_eq_some_iff.mp hp
      obtain rfl : e = d := by
        rw [Space.deviceOfFblock, h.index] at he
        rcases h.dev.index d h.device h.kicked with hi | hi
        · rw [hi, IdxPointer.get_neg_one] at he
          cases he
        · exact Option.some.inj (he.symm.trans hi)
    · exact ⟨h.queue.owned, h.queue.size⟩
    · exact ⟨hord.owned, hord.unlisted, hord.kicked, hord.nodeIndex, hord.length, hord.layout⟩
  · next h0 =>
    rw [if_neg h0] at hord
    cases hp
    have hadd := h.queue.add (f := f) (by simp)
    refine ⟨((ipbucketDel_same f s).trans (ipbucketAdd_same f _)).dev h.dev, ⟨?_, hadd.size⟩,
      ⟨hord.owned, hord.unlisted, hord.kicked, hord.nodeIndex, hord.length, hord.layout⟩⟩
    refine hadd.owned.congr fun r => ?_
    by_cases hr : r = f
    · simp [hr, h.live, Space.ipbucketUpdate, Space.ipbucketAdd, Space.ipbucketDel]
    · simp [hr, Space.ipbucketUpdate, Space.ipbucketAdd, Space.ipbucketDel]

/-- Loading begins with the queues in order. -/
theorem SpaceInv.loading (h : SpaceInv strict s) (hc : s.current d = some f) : Loading strict d f s := by
  have hf : .fblock f ∈ s.order d := by
    unfold Space.current at hc
    split at hc
    · next g hg =>
      cases hc
      exact List.mem_of_getLast? hg
    · cases hc
  have hd := h.order.mem_allDevices hf
  obtain ⟨T, hT, -⟩ := h.order.layout d hd (h.order.not_kicked hf)
  have hpos : 0 < (s.fblock f).blockSize := (hT.bounds hf).1
  refine ⟨h.dev, h.queue.del f, ?_, h.order.nodeIndex d _ hf, hc, ?_, hd, h.order.not_kicked hf⟩
  · rw [Space.dropEmpty, if_neg (by omega)]
    exact h.order
  · exact Space.mem_nodes_fblock.mp ((h.order.owned.covers _).mpr ⟨d, hf⟩)

/-- An item is filled in while a device is loaded, or its marks change. -/
theorem Loading.setItem (h : Loading strict d f s) {a : Nat} {x : Item} (hx : a ∈ s.items → x.offset = (s.item a).offset ∧
    x.length = (s.item a).length ∧ x.deviceIndex = (s.item a).deviceIndex) : Loading strict d f (s.setItem a x) := by
  have heq : (s.setItem a x).dropEmpty d f = (s.dropEmpty d f).setItem a x := by
    by_cases h0 : (s.fblock f).blockSize = 0 <;> simp [Space.dropEmpty, Space.setItem, Space.setOrder, h0]
  obtain ⟨-, hitem, hitems, -⟩ := dropEmpty_frame d f s
  have hsame : SameBlocks (s.dropEmpty d f) ((s.dropEmpty d f).setItem a x) :=
    sameBlocks_setItem fun ha => hitem ▸ hx (hitems ▸ ha)
  exact ⟨⟨h.dev.nodup, h.dev.active, h.dev.gone, h.dev.index, h.dev.capacity⟩, ⟨h.queue.owned, h.queue.size⟩,
    heq ▸ h.order.same hsame, h.index, h.current, h.live, h.device, h.kicked⟩

end OliveHc
