/-
The queues of free blocks: each operation of `ipbucket.h` on them.
-/
import OliveHc.Device.Layout

namespace OliveHc

/-- A free block goes to one end of the queue of its size. -/
theorem ipbucketAdd_queue (s : Space) (f : Nat) : ∃ l,
    l.Perm (f :: s.queue (ipbucketIndex (s.fblock f).blockSize false).toNat) ∧
      (s.ipbucketAdd f).queue = Function.update s.queue (ipbucketIndex (s.fblock f).blockSize false).toNat l := by
  refine ⟨_, ?_, rfl⟩
  split
  · exact List.Perm.refl _
  · exact List.perm_append_singleton f _

/-- A block that is found is in a queue, of its size or of a larger one. -/
theorem ipbucketGet_queue {s s' : Space} {size f : Nat} (hg : s.ipbucketGet size = some (f, s')) :
    ∃ i, f ∈ s.queue i ∧ ipbucketIndex size true ≤ i ∧ s' = s.ipbucketDel f := by
  unfold Space.ipbucketGet at hg
  simp only at hg
  split at hg
  · cases hg
  · obtain ⟨g, hfind, he⟩ := Option.map_eq_some_iff.mp hg
    cases he
    obtain ⟨i, hi, hhead⟩ := List.exists_of_findSome?_eq_some hfind
    have := (List.mem_range'_1.mp hi).1
    exact ⟨i, List.mem_of_mem_head? hhead, by omega, rfl⟩

theorem ipbucketBiggest_queue {s : Space} {f : Nat} (hb : s.ipbucketBiggest = some f) : ∃ i, f ∈ s.queue i := by
  obtain ⟨i, -, hlast⟩ := List.exists_of_findSome?_eq_some hb
  exact ⟨i, List.mem_of_getLast? hlast⟩

namespace QueueInv

variable {s : Space} {live : List Nat} {f : Nat}

theorem congr {live' : List Nat} (h : QueueInv s live) (hl : ∀ r, r ∈ live' ↔ r ∈ live) : QueueInv s live' :=
  ⟨h.owned.congr hl, h.size⟩

theorem add (h : QueueInv s live) (hf : f ∉ live) : QueueInv (s.ipbucketAdd f) (f :: live) := by
  obtain ⟨l, hperm, hq⟩ := ipbucketAdd_queue s f
  refine ⟨hq ▸ h.owned.gain hf hperm, fun j g hg => ?_⟩
  rw [hq] at hg
  rcases mem_update.mp hg with ⟨rfl, hnew⟩ | ⟨-, hold⟩
  · rcases List.mem_cons.mp (hperm.mem_iff.mp hnew) with rfl | hold
    · rfl
    · exact h.size _ g hold
  · exact h.size j g hold

theorem del (h : QueueInv s live) (f : Nat) : QueueInv (s.ipbucketDel f) (live.filter (· ≠ f)) :=
  ⟨h.owned.erase f, fun i g hg => h.size i g (List.mem_of_mem_erase hg)⟩

theorem setFblock (h : QueueInv s live) (hf : f ∉ live) (b : FreeBlock) : QueueInv (s.setFblock f b) live := by
  refine ⟨h.owned, fun i g hg => ?_⟩
  have hne : g ≠ f := fun he => hf ((h.owned.covers f).mpr ⟨i, he ▸ hg⟩)
  show (ipbucketIndex (Function.update s.fblock f b g).blockSize false).toNat = i
  rw [Function.update_of_ne hne]
  exact h.size i g hg

/-- A block that changed its size goes to the queue of the new one. -/
theorem update (h : QueueInv s live) (hf : f ∈ live) (b : FreeBlock) :
    QueueInv ((s.setFblock f b).ipbucketUpdate f) live := by
  have hdel : QueueInv ((s.ipbucketDel f).setFblock f b) (live.filter (· ≠ f)) := (h.del f).setFblock (by simp) b
  refine (hdel.add (f := f) (by simp)).congr fun r => ?_
  by_cases hr : r = f
  · simp [hr, hf]
  · simp [hr]

/-- A block that is found is large enough. -/
theorem get {size : Nat} {s' : Space} (h : QueueInv s live) (hg : s.ipbucketGet size = some (f, s')) :
    f ∈ live ∧ s' = s.ipbucketDel f ∧ ipbucketIndex size true ≤ (ipbucketIndex (s.fblock f).blockSize false).toNat := by
  obtain ⟨i, hmem, hi, rfl⟩ := ipbucketGet_queue hg
  refine ⟨(h.owned.covers f).mpr ⟨i, hmem⟩, rfl, ?_⟩
  rw [h.size i f hmem]
  exact hi

end QueueInv

end OliveHc
