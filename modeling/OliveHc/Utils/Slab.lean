/-
Objects of one size (`utils/slab.c`), which items, free blocks, pass-by items
and requests are allocated from.

Addresses are numbers. A block from `malloc` begins with its header; behind
it stand the objects, each with a word before it, its leader, that says
which block it is of. A free object is linked in its block, and the blocks
with a free object are linked in the slab. `live`, the blocks that `malloc`
has given and that were not released, and `mallocs`, the calls so far, are
what the C library knows.
-/
import OliveHc.Lib.LinkedList
import OliveHc.Lib.System
import Mathlib.Data.List.Perm.Subperm

namespace OliveHc

/-- `sizeof(slab_block_t)`. -/
def slabBlockSize : Nat := 40

/-- `sizeof(slab_block_t *)`. -/
def leaderSize : Nat := 8

def slabBuckets (itemSize : Nat) : Nat := (128 * 1024 - slabBlockSize - 100) / itemSize

/-- What is asked of `malloc` for a block. -/
def slabSize (itemSize : Nat) : Nat := slabBlockSize + itemSize * slabBuckets itemSize

/-- What `malloc` may return at its `t`-th call while the blocks `live` are
in use: nothing, or memory that is apart from theirs. -/
structure Malloc (size : Nat) where
  get : Nat → List Nat → Option Nat
  apart : ∀ {t live b}, get t live = some b → ∀ x ∈ live, b + size ≤ x ∨ x + size ≤ b

/-- `slab_block_t`. -/
structure SlabBlock where
  itemHead : List Nat
  frees : Int
deriving DecidableEq, Repr

/-- `ohc_slab_t`, with the memory it has. -/
structure Slab where
  itemSize : Nat
  blockHead : List Nat
  block : Nat → SlabBlock
  leader : Nat → Nat
  live : List Nat
  mallocs : Nat

namespace Slab

variable {size : Nat}

/-- `OHC_SLAB_INIT`. -/
def init (itemSize : Nat) : Slab := ⟨itemSize, [], fun _ => ⟨[], 0⟩, fun _ => 0, [], 0⟩

/-- The loop of `slab_alloc` over the objects of a new block. -/
def carve (sblock : Nat) : Nat → Nat → Slab → Slab
  | 0, _, s => s
  | n + 1, leader, s => carve sblock n (leader + s.itemSize) { s with
      leader := Function.update s.leader leader sblock
      block := Function.update s.block sblock
        { s.block sblock with itemHead := (leader + leaderSize) :: (s.block sblock).itemHead } }

/-- The block for an object: the first of the list or, if there is none, a
new one. -/
def firstBlock (malloc : Malloc size) (s : Slab) : Option Nat × Slab :=
  match s.blockHead with
  | sblock :: _ => (some sblock, s)
  | [] =>
    match malloc.get s.mallocs s.live with
    | none => (none, { s with mallocs := s.mallocs + 1 })
    | some sblock => (some sblock, carve sblock (slabBuckets s.itemSize) (sblock + slabBlockSize) { s with
        blockHead := [sblock]
        block := Function.update s.block sblock ⟨[], slabBuckets s.itemSize⟩
        live := sblock :: s.live
        mallocs := s.mallocs + 1 })

/-- The first free object of a block. -/
def take (sblock : Nat) (s : Slab) : Option (Nat × Slab) :=
  match (s.block sblock).itemHead with
  | [] => none
  | p :: itemHead =>
    let frees := (s.block sblock).frees - 1
    some (p, { s with
      block := Function.update s.block sblock ⟨itemHead, frees⟩
      blockHead := if frees = 0 then s.blockHead.erase sblock else s.blockHead })

/-- `slab_alloc`: an object or `NULL`. No result is an access through a null
pointer. -/
def slabAlloc (malloc : Malloc size) (s : Slab) : Option (Option Nat × Slab) :=
  match s.firstBlock malloc with
  | (none, s) => some (none, s)
  | (some sblock, s) => (s.take sblock).map fun x => (some x.1, x.2)

/-- `slab_free`. -/
def slabFree (p : Nat) (s : Slab) : Slab :=
  let sblock := s.leader (p - leaderSize)
  let x := s.block sblock
  let blockHead := if x.frees = 0 then sblock :: s.blockHead else s.blockHead
  let x : SlabBlock := ⟨p :: x.itemHead, x.frees + 1⟩
  if x.frees = slabBuckets s.itemSize ∧ (listNext sblock blockHead).isSome then
    { s with blockHead := blockHead.erase sblock, live := s.live.erase sblock }
  else { s with blockHead, block := Function.update s.block sblock x }

/-- The objects of a block. -/
def objects (itemSize sblock : Nat) : List Nat :=
  (List.range (slabBuckets itemSize)).map fun i => sblock + slabBlockSize + i * itemSize + leaderSize

end Slab

/-! ## The program around it -/

inductive SlabEvent
  | alloc
  | free (p : Nat)

/-- A call, with the objects that are allocated. Only such an object is freed. -/
def slabStep {size : Nat} (malloc : Malloc size) (x : Slab × List Nat) : SlabEvent → Option (Slab × List Nat)
  | .alloc => (x.1.slabAlloc malloc).map fun y => (y.2, y.1.elim x.2 (· :: x.2))
  | .free p => if p ∈ x.2 then some (x.1.slabFree p, x.2.erase p) else none

def slabSystem (itemSize : Nat) (malloc : Malloc (slabSize itemSize)) : System (Slab × List Nat) SlabEvent where
  init x := x = (.init itemSize, [])
  next x e y := slabStep malloc x e = some y

/-! ## Objects of blocks -/

namespace Slab

variable {itemSize b x p : Nat} {s s' : Slab}

theorem mem_objects : p ∈ objects itemSize b ↔
    ∃ i < slabBuckets itemSize, b + slabBlockSize + i * itemSize + leaderSize = p := by
  simp [objects]

theorem objects_nodup (hpos : 0 < itemSize) (b : Nat) : (objects itemSize b).Nodup := by
  refine List.Nodup.map (fun i j hij => ?_) List.nodup_range
  have hmul : i * itemSize = j * itemSize := by omega
  exact Nat.eq_of_mul_eq_mul_right hpos hmul

/-- The leader of an object is in its block. -/
theorem leader_bounds (hpos : 0 < itemSize) (hp : p ∈ objects itemSize b) :
    b ≤ p - leaderSize ∧ p - leaderSize < b + slabSize itemSize := by
  obtain ⟨i, hi, rfl⟩ := mem_objects.mp hp
  have hlt : i * itemSize < itemSize * slabBuckets itemSize := by
    rw [Nat.mul_comm itemSize]
    exact Nat.mul_lt_mul_of_pos_right hi hpos
  unfold slabSize
  omega

theorem objects_apart (hpos : 0 < itemSize) (h : x + slabSize itemSize ≤ b ∨ b + slabSize itemSize ≤ x)
    (hx : p ∈ objects itemSize x) (hb : p ∈ objects itemSize b) : False := by
  have h₁ := leader_bounds hpos hx
  have h₂ := leader_bounds hpos hb
  omega

/-- What the loop over a new block does: all objects become free, and their
leaders lead to the block. -/
theorem carve_eq (b n leader : Nat) (s : Slab) : ∃ f, carve b n leader s = { s with
      leader := f
      block := Function.update s.block b { s.block b with itemHead :=
        ((List.range n).map fun i => leader + i * s.itemSize + leaderSize).reverse ++ (s.block b).itemHead } } ∧
    (∀ i < n, f (leader + i * s.itemSize) = b) ∧
    ∀ x, (∀ i < n, x ≠ leader + i * s.itemSize) → f x = s.leader x := by
  induction n generalizing leader s with
  | zero =>
    refine ⟨s.leader, ?_, fun i hi => absurd hi (Nat.not_lt_zero i), fun _ _ => rfl⟩
    simp [carve]
  | succ n ih =>
    have hnext : ∀ i, leader + (i + 1) * s.itemSize = leader + s.itemSize + i * s.itemSize := by
      intro i
      rw [Nat.add_mul]
      omega
    obtain ⟨f, hcarve, hin, hout⟩ := ih (leader + s.itemSize) { s with
      leader := Function.update s.leader leader b
      block := Function.update s.block b
        { s.block b with itemHead := (leader + leaderSize) :: (s.block b).itemHead } }
    refine ⟨f, ?_, fun i hi => ?_, fun x hx => ?_⟩
    · rw [carve, hcarve]
      simp [List.range_succ_eq_map, List.map_map, Function.comp_def, hnext]
    · by_cases hi0 : ∃ j < n, leader + i * s.itemSize = leader + s.itemSize + j * s.itemSize
      · obtain ⟨j, hj, he⟩ := hi0
        rw [he]
        exact hin j hj
      · cases i with
        | zero =>
          rw [hout _ fun j hj he => hi0 ⟨j, hj, he⟩]
          simp
        | succ i => exact absurd ⟨i, by omega, hnext i⟩ hi0
    · rw [hout x fun i hi => hnext i ▸ hx (i + 1) (by omega)]
      have hne := hx 0 (Nat.succ_pos n)
      rw [Nat.zero_mul, Nat.add_zero] at hne
      exact Function.update_of_ne hne ..

theorem take_eq {head : List Nat} (h : (s.block b).itemHead = p :: head) : s.take b = some (p, { s with
    block := Function.update s.block b ⟨head, (s.block b).frees - 1⟩
    blockHead := if (s.block b).frees - 1 = 0 then s.blockHead.erase b else s.blockHead }) := by
  unfold take
  rw [h]

end Slab

/-! ## The invariant -/

/-- The lists of a slab, while the objects `l` are allocated. -/
structure SlabInv (itemSize : Nat) (s : Slab) (l : List Nat) : Prop where
  size : s.itemSize = itemSize
  apart : s.live.Pairwise fun x y => x + slabSize itemSize ≤ y ∨ y + slabSize itemSize ≤ x
  leader : ∀ b ∈ s.live, ∀ p ∈ Slab.objects itemSize b, s.leader (p - leaderSize) = b
  nodup : ∀ b ∈ s.live, (s.block b).itemHead.Nodup
  free : ∀ b ∈ s.live, ∀ p, p ∈ (s.block b).itemHead ↔ p ∈ Slab.objects itemSize b ∧ p ∉ l
  frees : ∀ b ∈ s.live, (s.block b).frees = (s.block b).itemHead.length
  listed : ∀ b, b ∈ s.blockHead ↔ b ∈ s.live ∧ (s.block b).itemHead ≠ []
  heads : s.blockHead.Nodup
  allocated : ∀ p ∈ l, ∃ b ∈ s.live, p ∈ Slab.objects itemSize b
  once : l.Nodup

namespace SlabInv

open Slab

variable {itemSize b x p : Nat} {s s' : Slab} {l : List Nat}

theorem live_nodup (h : SlabInv itemSize s l) : s.live.Nodup := by
  refine h.apart.imp fun {x y} hxy he => ?_
  have hpos : 0 < slabSize itemSize := by
    unfold slabSize slabBlockSize
    omega
  omega

/-- An object is of one block. -/
theorem block_eq (h : SlabInv itemSize s l) (hb : b ∈ s.live) (hx : x ∈ s.live) (hpb : p ∈ objects itemSize b)
    (hpx : p ∈ objects itemSize x) : x = b := (h.leader x hx p hpx).symm.trans (h.leader b hb p hpb)

theorem frees_eq_zero (h : SlabInv itemSize s l) (hb : b ∈ s.live) :
    (s.block b).frees = 0 ↔ (s.block b).itemHead = [] := by
  rw [h.frees b hb, Int.natCast_eq_zero, List.length_eq_zero_iff]

/-- One block changes: its free objects, and whether it is in the list. -/
theorem change (h : SlabInv itemSize s l) (hb : b ∈ s.live) {head heads l' : List Nat} (hnd : head.Nodup)
    (hfree : ∀ q, q ∈ head ↔ q ∈ objects itemSize b ∧ q ∉ l') (hl : ∀ q, q ∉ objects itemSize b → (q ∈ l' ↔ q ∈ l))
    (honce : l'.Nodup) (hheads : heads.Nodup) (hother : ∀ x, x ≠ b → (x ∈ heads ↔ x ∈ s.blockHead))
    (hself : b ∈ heads ↔ head ≠ []) :
    SlabInv itemSize { s with blockHead := heads, block := Function.update s.block b ⟨head, head.length⟩ } l' := by
  have hblock : ∀ x, Function.update s.block b ⟨head, head.length⟩ x =
      if x = b then ⟨head, head.length⟩ else s.block x := fun x => Function.update_apply ..
  refine ⟨h.size, h.apart, h.leader, fun x hx => ?_, fun x hx q => ?_, fun x hx => ?_, fun x => ?_, hheads,
    fun q hq => ?_, honce⟩
  all_goals simp only [hblock]
  · split
    · exact hnd
    · exact h.nodup x hx
  · split
    · next hxb =>
      rw [hxb]
      exact hfree q
    · next hxb =>
      rw [h.free x hx q]
      refine and_congr_right fun hqx => not_congr (hl q fun hqb => hxb ?_).symm
      exact h.block_eq hb hx hqb hqx
  · split
    · rfl
    · exact h.frees x hx
  · split
    · next hxb =>
      rw [hxb, hself]
      exact (and_iff_right hb).symm
    · next hxb => rw [hother x hxb, h.listed]
  · by_cases hqb : q ∈ objects itemSize b
    · exact ⟨b, hb, hqb⟩
    · exact h.allocated q ((hl q hqb).mp hq)

/-- A block without an allocated object is released. -/
theorem release (h : SlabInv itemSize s l) (hl : ∀ q ∈ l, q ∉ objects itemSize b) {block : Nat → SlabBlock}
    (hblock : ∀ x, x ≠ b → block x = s.block x) :
    SlabInv itemSize { s with blockHead := s.blockHead.erase b, live := s.live.erase b, block } l := by
  have hmem : ∀ {x}, x ∈ s.live.erase b → x ∈ s.live ∧ x ≠ b := fun hx =>
    (h.live_nodup.mem_erase_iff.mp hx).symm
  refine ⟨h.size, h.apart.sublist List.erase_sublist, fun x hx => h.leader x (hmem hx).1, fun x hx => ?_, fun x hx => ?_,
    fun x hx => ?_, fun x => ?_, h.heads.erase b, fun q hq => ?_, h.once⟩
  all_goals dsimp only
  · rw [hblock x (hmem hx).2]
    exact h.nodup x (hmem hx).1
  · rw [hblock x (hmem hx).2]
    exact h.free x (hmem hx).1
  · rw [hblock x (hmem hx).2]
    exact h.frees x (hmem hx).1
  · rw [h.heads.mem_erase_iff, h.live_nodup.mem_erase_iff, h.listed, and_assoc]
    refine and_congr_right fun hne => ?_
    rw [hblock x hne]
  · obtain ⟨x, hx, hqx⟩ := h.allocated q hq
    exact ⟨x, h.live_nodup.mem_erase_iff.mpr ⟨fun he => hl q hq (he ▸ hqx), hx⟩, hqx⟩

/-- The first free object of a block that is in the list. -/
theorem take (h : SlabInv itemSize s l) (hb : b ∈ s.blockHead) :
    ∃ p s', s.take b = some (p, s') ∧ p ∉ l ∧ SlabInv itemSize s' (p :: l) ∧ s'.live = s.live := by
  obtain ⟨hlive, hne⟩ := (h.listed b).mp hb
  obtain ⟨p, head, hhead⟩ := List.exists_cons_of_ne_nil hne
  have hfrees := h.frees b hlive
  have hnd := h.nodup b hlive
  have hfree := h.free b hlive
  rw [hhead] at hfrees hnd hfree
  obtain ⟨hph, hnd⟩ := List.nodup_cons.mp hnd
  obtain ⟨hpb, hpl⟩ := (hfree p).mp List.mem_cons_self
  have hleft : (s.block b).frees - 1 = head.length := by
    rw [hfrees, List.length_cons]
    omega
  refine ⟨p, _, take_eq hhead, hpl, ?_, rfl⟩
  rw [hleft]
  refine h.change hlive hnd (fun q => ?_) (fun q hq => ?_) (List.nodup_cons.mpr ⟨hpl, h.once⟩) ?_ (fun x hx => ?_) ?_
  · have hq := hfree q
    rw [List.mem_cons] at hq ⊢
    by_cases hqp : q = p
    · simp [hqp, hph]
    · simpa [hqp] using hq
  · rw [List.mem_cons]
    exact or_iff_right fun hqp => hq (hqp ▸ hpb)
  · split
    · exact h.heads.erase b
    · exact h.heads
  · split
    · exact List.mem_erase_of_ne hx
    · exact Iff.rfl
  · cases head with
    | nil => simp [h.heads.not_mem_erase]
    | cons q head =>
      rw [if_neg (by simp only [List.length_cons]; omega)]
      simpa using hb

/-- A block whose objects are all free has no other one. -/
theorem mem_of_full {head : List Nat} (hnd : head.Nodup) (hsub : ∀ q ∈ head, q ∈ objects itemSize b)
    (hlen : head.length = slabBuckets itemSize) (hp : p ∈ objects itemSize b) : p ∈ head := by
  have hperm : head.Perm (objects itemSize b) := by
    refine (hnd.subperm hsub).perm_of_length_le ?_
    simp [hlen, objects]
  exact hperm.mem_iff.mpr hp

/-- A new block, all of whose objects are free, when no other one has any. -/
theorem newBlock (hb : 0 < slabBuckets itemSize) (h : SlabInv itemSize s l) (hheads : s.blockHead = [])
    (hapart : ∀ x ∈ s.live, b + slabSize itemSize ≤ x ∨ x + slabSize itemSize ≤ b) {leader : Nat → Nat} (mallocs : Nat)
    (hin : ∀ p ∈ objects itemSize b, leader (p - leaderSize) = b)
    (hout : ∀ p, p ∉ objects itemSize b → leaderSize ≤ p → leader (p - leaderSize) = s.leader (p - leaderSize)) :
    SlabInv itemSize ⟨itemSize, [b], Function.update s.block b ⟨(objects itemSize b).reverse, slabBuckets itemSize⟩,
      leader, b :: s.live, mallocs⟩ l := by
  have hpos : 0 < itemSize := Nat.pos_of_ne_zero fun he => by simp [he, slabBuckets] at hb
  have hsize : 0 < slabSize itemSize := by
    unfold slabSize slabBlockSize
    omega
  have hlen : (objects itemSize b).length = slabBuckets itemSize := by simp [objects]
  have hsome : objects itemSize b ≠ [] := List.ne_nil_of_length_pos (hlen ▸ hb)
  -- The new block is none of the others, and shares no object with them.
  have hnew : ∀ x ∈ s.live, x ≠ b := fun x hx he => by
    have := hapart x hx
    omega
  have hobjects : ∀ x ∈ s.live, ∀ p ∈ objects itemSize x, p ∉ objects itemSize b := fun x hx p hpx hpb =>
    objects_apart hpos (hapart x hx).symm hpx hpb
  have hblock : ∀ x ∈ s.live, ∀ y : SlabBlock, Function.update s.block b y x = s.block x := fun x hx y =>
    Function.update_of_ne (hnew x hx) ..
  refine ⟨rfl, List.pairwise_cons.mpr ⟨hapart, h.apart⟩, fun x hx p hp => ?_, fun x hx => ?_, fun x hx p => ?_,
    fun x hx => ?_, fun x => ?_, List.nodup_singleton b, fun p hp => ?_, h.once⟩
  all_goals dsimp only at *
  · rcases List.mem_cons.mp hx with rfl | hx
    · exact hin p hp
    · rw [hout p (hobjects x hx p hp)]
      · exact h.leader x hx p hp
      · obtain ⟨i, -, rfl⟩ := mem_objects.mp hp
        omega
  · rcases List.mem_cons.mp hx with rfl | hx
    · rw [Function.update_self]
      exact List.nodup_reverse.mpr (objects_nodup hpos x)
    · rw [hblock x hx]
      exact h.nodup x hx
  · rcases List.mem_cons.mp hx with rfl | hx
    · rw [Function.update_self, List.mem_reverse]
      refine (and_iff_left_of_imp fun hp hpl => ?_).symm
      obtain ⟨y, hy, hpy⟩ := h.allocated p hpl
      exact hobjects y hy p hpy hp
    · rw [hblock x hx]
      exact h.free x hx p
  · rcases List.mem_cons.mp hx with rfl | hx
    · rw [Function.update_self, List.length_reverse, hlen]
    · rw [hblock x hx]
      exact h.frees x hx
  · rw [List.mem_singleton, List.mem_cons]
    constructor
    · rintro rfl
      rw [Function.update_self]
      exact ⟨.inl rfl, by simpa using hsome⟩
    · rintro ⟨hx | hx, hne⟩
      · exact hx
      · rw [hblock x hx] at hne
        have hmem := (h.listed x).mpr ⟨hx, hne⟩
        rw [hheads] at hmem
        cases hmem
  · obtain ⟨x, hx, hpx⟩ := h.allocated p hp
    exact ⟨x, List.mem_cons_of_mem b hx, hpx⟩

/-- The block for an object is in the list, unless there is no memory. -/
theorem firstBlock (hb : 0 < slabBuckets itemSize) {malloc : Malloc (slabSize itemSize)} {o : Option Nat}
    (h : SlabInv itemSize s l) (hf : s.firstBlock malloc = (o, s')) :
    SlabInv itemSize s' l ∧ (∀ x ∈ s.live, x ∈ s'.live) ∧ ∀ b, o = some b → b ∈ s'.blockHead := by
  unfold Slab.firstBlock at hf
  split at hf
  · next b heads hheads =>
    cases hf
    refine ⟨h, fun _ hx => hx, fun b he => ?_⟩
    cases he
    rw [hheads]
    exact List.mem_cons_self
  next hheads =>
  split at hf
  · cases hf
    exact ⟨⟨h.size, h.apart, h.leader, h.nodup, h.free, h.frees, h.listed, h.heads, h.allocated, h.once⟩,
      fun _ hx => hx, nofun⟩
  next b hget =>
  obtain ⟨f, hcarve, hin, hout⟩ := carve_eq b (slabBuckets s.itemSize) (b + slabBlockSize) { s with
    blockHead := [b]
    block := Function.update s.block b ⟨[], slabBuckets s.itemSize⟩
    live := b :: s.live
    mallocs := s.mallocs + 1 }
  rw [hcarve] at hf
  cases hf
  simp only [h.size, Function.update_self, List.append_nil, Function.update_idem] at hin hout ⊢
  refine ⟨h.newBlock hb hheads (malloc.apart hget) (s.mallocs + 1) (fun p hp => ?_) (fun p hp hle => ?_),
    fun x hx => List.mem_cons_of_mem b hx, fun x hx => ?_⟩
  · obtain ⟨i, hi, rfl⟩ := mem_objects.mp hp
    rw [Nat.add_sub_cancel]
    exact hin i hi
  · refine hout _ fun i hi he => hp (mem_objects.mpr ⟨i, hi, ?_⟩)
    omega
  · cases hx
    exact List.mem_cons_self

/-- **`slab_alloc`.** -/
theorem slabAlloc (hb : 0 < slabBuckets itemSize) (malloc : Malloc (slabSize itemSize)) (h : SlabInv itemSize s l) :
    ∃ o s', s.slabAlloc malloc = some (o, s') ∧ SlabInv itemSize s' (o.elim l (· :: l)) ∧ (∀ p, o = some p → p ∉ l) ∧
      ∀ x ∈ s.live, x ∈ s'.live := by
  unfold Slab.slabAlloc
  cases hf : s.firstBlock malloc with
  | mk o s₁ =>
  obtain ⟨h₁, hlive, hhead⟩ := h.firstBlock hb hf
  cases o with
  | none => exact ⟨none, s₁, rfl, h₁, nofun, hlive⟩
  | some b =>
    obtain ⟨p, s₂, htake, hp, h₂, hlive₂⟩ := h₁.take (hhead b rfl)
    refine ⟨some p, s₂, ?_, h₂, fun q hq => ?_, fun x hx => hlive₂ ▸ hlive x hx⟩
    · simp only [htake, Option.map_some]
    · cases hq
      exact hp

/-- **`slab_free`**: a block that is released has no allocated object, and
another one stays in the list. -/
theorem slabFree (h : SlabInv itemSize s l) (hp : p ∈ l) : SlabInv itemSize (s.slabFree p) (l.erase p) ∧
    ∀ x ∈ s.live, x ∉ (s.slabFree p).live →
      (∀ q ∈ l.erase p, q ∉ objects itemSize x) ∧ (s.slabFree p).blockHead ≠ [] := by
  obtain ⟨b, hb, hpb⟩ := h.allocated p hp
  have hzero := h.frees_eq_zero hb
  have hfree : ∀ q, q ∈ p :: (s.block b).itemHead ↔ q ∈ objects itemSize b ∧ q ∉ l.erase p := by
    intro q
    rw [List.mem_cons, h.free b hb, h.once.mem_erase_iff]
    by_cases hqp : q = p
    · simp [hqp, hpb]
    · simp [hqp]
  have hnd : (p :: (s.block b).itemHead).Nodup :=
    List.nodup_cons.mpr ⟨fun hmem => ((h.free b hb p).mp hmem).2 hp, h.nodup b hb⟩
  -- The block is in the list, if it was not before.
  obtain ⟨heads, hheads⟩ : ∃ heads, (if (s.block b).frees = 0 then b :: s.blockHead else s.blockHead) = heads := ⟨_, rfl⟩
  have hin : b ∈ heads ∧ heads.Nodup ∧ ∀ x, x ≠ b → (x ∈ heads ↔ x ∈ s.blockHead) := by
    rw [← hheads]
    split
    · next h0 =>
      have hnot : b ∉ s.blockHead := fun hmem => ((h.listed b).mp hmem).2 (hzero.mp h0)
      exact ⟨List.mem_cons_self, List.nodup_cons.mpr ⟨hnot, h.heads⟩, fun x hx => List.mem_cons.trans (or_iff_right hx)⟩
    · next h0 => exact ⟨(h.listed b).mpr ⟨hb, fun he => h0 (hzero.mpr he)⟩, h.heads, fun _ _ => Iff.rfl⟩
  have hchange := h.change hb hnd hfree (fun q hq => List.mem_erase_of_ne fun he => hq (he ▸ hpb)) (h.once.erase p)
    hin.2.1 hin.2.2 (by simp [hin.1])
  have hfrees : (s.block b).frees + 1 = ((p :: (s.block b).itemHead).length : Int) := by
    rw [h.frees b hb, List.length_cons]
    omega
  unfold Slab.slabFree
  simp only [h.leader b hb p hpb, hheads, hfrees]
  split
  · next hfull =>
    rw [h.size] at hfull
    have hnone : ∀ q ∈ l.erase p, q ∉ objects itemSize b := fun q hq hqb =>
      ((hfree q).mp (mem_of_full hnd (fun q hq => ((hfree q).mp hq).1) (by exact_mod_cast hfull.1) hqb)).2 hq
    refine ⟨hchange.release hnone fun x hx => (Function.update_of_ne hx ..).symm, fun x hx hgone => ?_⟩
    obtain rfl : x = b := by
      by_contra hne
      exact hgone ((List.mem_erase_of_ne hne).mpr hx)
    exact ⟨hnone, erase_ne_nil_of_listNext hfull.2⟩
  · exact ⟨hchange, fun x hx hgone => absurd hx hgone⟩

end SlabInv

/-! ## Every run -/

/-- What the slab promises while the objects `l` are allocated. -/
structure SlabSafe {size : Nat} (malloc : Malloc size) (s : Slab) (l : List Nat) : Prop where
  /-- An object that is returned is not allocated, and no block is released for it. -/
  alloc : ∃ o s', s.slabAlloc malloc = some (o, s') ∧ (∀ p, o = some p → p ∉ l) ∧ ∀ b ∈ s.live, b ∈ s'.live
  frees : ∀ b ∈ s.live, (s.block b).frees = (s.block b).itemHead.length
  listed : ∀ b, b ∈ s.blockHead ↔ b ∈ s.live ∧ (s.block b).itemHead ≠ []
  /-- A block is released when none of its objects is allocated and it is not the last of the list. -/
  release : ∀ p ∈ l, ∀ b ∈ s.live, b ∉ (s.slabFree p).live →
    (∀ q ∈ l.erase p, q ∉ Slab.objects s.itemSize b) ∧ (s.slabFree p).blockHead ≠ []
  /-- The free objects of a block are those that are not allocated. -/
  free : ∀ b ∈ s.live, ∀ p, p ∈ (s.block b).itemHead ↔ p ∈ Slab.objects s.itemSize b ∧ p ∉ l

theorem slabInv_of_reach {itemSize : Nat} {malloc : Malloc (slabSize itemSize)} (hb : 2 ≤ slabBuckets itemSize)
    {x : Slab × List Nat} (h : (slabSystem itemSize malloc).Reachable x) : SlabInv itemSize x.1 x.2 := by
  refine h.invariant (I := fun x => SlabInv itemSize x.1 x.2) (fun x hx => ?_) fun x e y _ hinv _ hn => ?_
  · cases hx
    exact ⟨rfl, .nil, nofun, nofun, nofun, nofun, fun _ => by simp [Slab.init], .nil, nofun, .nil⟩
  cases e with
  | alloc =>
    obtain ⟨o, s', halloc, hinv', -, -⟩ := hinv.slabAlloc (by omega) malloc
    have hn : (x.1.slabAlloc malloc).map (fun y => (y.2, y.1.elim x.2 (· :: x.2))) = some y := hn
    rw [halloc] at hn
    cases hn
    exact hinv'
  | free p =>
    obtain ⟨hp, hn⟩ := Option.ite_none_right_eq_some.mp hn
    cases hn
    exact (hinv.slabFree hp).1

/-- **The slab allocator.** -/
theorem slab_safe {itemSize : Nat} {malloc : Malloc (slabSize itemSize)} (hb : 2 ≤ slabBuckets itemSize) {s : Slab}
    {l : List Nat} (h : (slabSystem itemSize malloc).Reachable (s, l)) : SlabSafe malloc s l := by
  have hinv : SlabInv itemSize s l := slabInv_of_reach hb h
  obtain ⟨o, s', halloc, -, hnew, hlive⟩ := hinv.slabAlloc (by omega) malloc
  refine ⟨⟨o, s', halloc, hnew, hlive⟩, hinv.frees, hinv.listed, fun p hp b hbl hgone => ?_, fun b hbl => ?_⟩
  · rw [hinv.size]
    exact (hinv.slabFree hp).2 b hbl hgone
  · rw [hinv.size]
    exact hinv.free b hbl

/-- A `malloc` that goes on behind all blocks. -/
def Malloc.bump (size : Nat) : Malloc size where
  get _ live := some (live.foldr (fun x y => max (x + size) y) 0)
  apart {_ live _} h x hx := by
    cases h
    refine .inr ?_
    induction live with
    | nil => cases hx
    | cons y live ih =>
      rw [List.foldr_cons]
      rcases List.mem_cons.mp hx with rfl | hx
      · exact Nat.le_max_left ..
      · exact Nat.le_trans (ih hx) (Nat.le_max_right ..)

/-- Two objects fill a block, the third one needs another, and after the first
two are freed their block has gone. -/
theorem slab_safe_released : ∃ s l, (slabSystem 60000 (.bump _)).Reachable (s, l) ∧ s.live = [120040] ∧ l = [180088] ∧
    SlabSafe (.bump (slabSize 60000)) s l := by
  have hrun : (System.run (slabStep (.bump (slabSize 60000))) (.init 60000, [])
      [.alloc, .alloc, .alloc, .free 48, .free 60048]).map (fun x => (x.1.live, x.2)) = some ([120040], [180088]) := by
    decide +kernel
  obtain ⟨⟨s, l⟩, hrun, hview⟩ := Option.map_eq_some_iff.mp hrun
  simp only [Prod.mk.injEq] at hview
  have r : (slabSystem 60000 (.bump _)).Reachable (s, l) := System.Reachable.run (fun _ _ _ h => h) (.init rfl) hrun
  exact ⟨s, l, r, hview.1, hview.2, slab_safe (by decide) r⟩

end OliveHc
