/-
Tables from small indices to pointers (`utils/idx_pointer.h`), and what the
allocators of the program may return.

A pointer is the address of an object, a number. An index is a `short` of
the source and may be -1. Reading outside of the array is not modelled: it
gives no pointer, and a search that runs off the array gives no result.
-/
import Mathlib.Logic.Function.Basic
import Mathlib.Tactic

namespace OliveHc

def iptArraySize : Nat := 4096

structure IdxPointer where
  lowest : Nat
  array : Nat → Option Nat

namespace IdxPointer

def init : IdxPointer := ⟨0, fun _ => none⟩

def get (t : IdxPointer) (index : Int) : Option Nat :=
  if 0 ≤ index ∧ index < iptArraySize then t.array index.toNat else none

/-- The index of the new pointer, -1 if `lowest` has reached the end. -/
def add (t : IdxPointer) (pointer : Nat) : Option (Int × IdxPointer) :=
  if t.lowest ≥ iptArraySize then some (-1, t)
  else
    -- The `while` loop over the slots in use.
    ((List.range' t.lowest (iptArraySize - t.lowest)).find? fun i => (t.array i).isNone).map fun (index : Nat) =>
      ((index : Int), ⟨index + 1, Function.update t.array index (some pointer)⟩)

def delete (t : IdxPointer) (index : Int) : Option IdxPointer :=
  if 0 ≤ index ∧ index < iptArraySize then
    some ⟨if index < t.lowest then index.toNat else t.lowest, Function.update t.array index.toNat none⟩
  else none

/-- What an `add` that returns an index does: it takes a slot that was free. -/
theorem add_cases {t t' : IdxPointer} {p : Nat} {i : Int} (h : t.add p = some (i, t')) :
    (i = -1 ∧ t' = t) ∨ (0 ≤ i ∧ i < iptArraySize ∧ t.get i = none ∧ t'.get i = some p ∧
      ∀ j, j ≠ i → t'.get j = t.get j) := by
  unfold add at h
  split at h
  · cases h
    exact .inl ⟨rfl, rfl⟩
  · obtain ⟨n, hn, he⟩ := Option.map_eq_some_iff.mp h
    cases he
    have hnone : t.array n = none := by simpa using List.find?_some hn
    have hmem := List.mem_range'_1.mp (List.mem_of_find?_eq_some hn)
    have hlt : n < iptArraySize := by omega
    refine .inr ⟨by omega, by omega, ?_, ?_, fun j hj => ?_⟩
    · rw [get, if_pos ⟨by omega, by omega⟩]
      simpa using hnone
    · rw [get, if_pos ⟨by omega, by omega⟩]
      simp
    · simp only [get]
      split
      · rw [Function.update_of_ne (by omega)]
      · rfl

theorem get_delete {t t' : IdxPointer} {i : Int} (h : t.delete i = some t') (j : Int) :
    t'.get j = if j = i then none else t.get j := by
  unfold delete at h
  split at h
  · next hi =>
    cases h
    simp only [get]
    by_cases hj : j = i
    · subst hj
      simp
    · rw [if_neg hj]
      split
      · rw [Function.update_of_ne (by omega)]
      · rfl
  · cases h

/-- Pointers that were in the table stay where they are. -/
def Extends (t t' : IdxPointer) : Prop := ∀ i x, t.get i = some x → t'.get i = some x

theorem Extends.refl (t : IdxPointer) : Extends t t := fun _ _ h => h

theorem Extends.trans {t t' t'' : IdxPointer} (h : Extends t t') (h' : Extends t' t'') : Extends t t'' :=
  fun i x hx => h' i x (h i x hx)

theorem add_extends {t t' : IdxPointer} {p : Nat} {i : Int} (h : t.add p = some (i, t')) : Extends t t' := by
  rcases add_cases h with ⟨-, rfl⟩ | ⟨-, -, hi, -, hother⟩
  · exact .refl _
  · intro j x hj
    rw [hother j fun he => by rw [← he, hj] at hi; cases hi]
    exact hj

theorem get_neg_one (t : IdxPointer) : t.get (-1) = none := rfl

/-- The slot at `lowest` is taken if it is free. -/
theorem add_lowest {t : IdxPointer} (hlt : t.lowest < iptArraySize) (hnone : t.array t.lowest = none) (p : Nat) :
    t.add p = some ((t.lowest : Int), ⟨t.lowest + 1, Function.update t.array t.lowest (some p)⟩) := by
  obtain ⟨k, hk⟩ : ∃ k, iptArraySize - t.lowest = k + 1 := ⟨_, (Nat.succ_pred_eq_of_pos (by omega)).symm⟩
  unfold add
  rw [if_neg (by omega), hk, List.range'_succ, List.find?_cons_of_pos (by simp [hnone])]
  rfl

/-! ## How many slots are left -/

/-- The slots that are in use. -/
def slots (t : IdxPointer) : Finset Nat := (Finset.range iptArraySize).filter fun i => (t.array i).isSome

def occupied (t : IdxPointer) : Nat := t.slots.card

@[simp] theorem occupied_init : init.occupied = 0 := by simp [occupied, slots, init]

theorem mem_slots {t : IdxPointer} {i : Nat} : i ∈ t.slots ↔ i < iptArraySize ∧ (t.array i).isSome := by
  simp [slots]

/-- What makes the search of `add` complete: no free slot is below `lowest`. -/
structure Inv (t : IdxPointer) : Prop where
  le : t.lowest ≤ iptArraySize
  below : ∀ i < t.lowest, (t.array i).isSome

theorem init_inv : init.Inv := ⟨Nat.zero_le _, fun i hi => absurd hi (Nat.not_lt_zero i)⟩

theorem Inv.add {t t' : IdxPointer} {p : Nat} {i : Int} (h : t.Inv) (ha : t.add p = some (i, t')) : t'.Inv := by
  unfold IdxPointer.add at ha
  split at ha
  · cases ha
    exact h
  · obtain ⟨n, hn, he⟩ := Option.map_eq_some_iff.mp ha
    cases he
    obtain ⟨-, A, B, hAB, hA⟩ := List.find?_eq_some_iff_append.mp hn
    have hmem := List.mem_range'_1.mp (List.mem_of_find?_eq_some hn)
    refine ⟨by simp only; omega, fun j hj => ?_⟩
    simp only at hj
    by_cases hjn : j = n
    · subst hjn
      simp
    simp only [Function.update_of_ne hjn]
    by_cases hlow : j < t.lowest
    · exact h.below j hlow
    -- The search has passed over `j`.
    have hjA : j ∈ A := by
      have hj' : j ∈ List.range' t.lowest (iptArraySize - t.lowest) := List.mem_range'_1.mpr ⟨by omega, by omega⟩
      rw [hAB, List.mem_append, List.mem_cons] at hj'
      rcases hj' with hj' | hj' | hj'
      · exact hj'
      · exact absurd hj' hjn
      · have hlt : (A ++ n :: B).Pairwise (· < ·) := hAB ▸ List.pairwise_lt_range'
        have := (List.pairwise_cons.mp (List.pairwise_append.mp hlt).2.1).1 j hj'
        omega
    simpa using hA j hjA

theorem Inv.delete {t t' : IdxPointer} {i : Int} (h : t.Inv) (hd : t.delete i = some t') : t'.Inv := by
  unfold IdxPointer.delete at hd
  split at hd
  · next hi =>
    cases hd
    have hle := h.le
    refine ⟨?_, fun j hj => ?_⟩
    · simp only
      split <;> omega
    · simp only at hj ⊢
      have hj' : j < t.lowest ∧ j ≠ i.toNat := by split at hj <;> omega
      rw [Function.update_of_ne hj'.2]
      exact h.below j hj'.1
  · cases hd

/-- The slot that an `add` takes. -/
theorem occupied_add {t t' : IdxPointer} {p : Nat} {i : Int} (ha : t.add p = some (i, t')) (hi : i ≠ -1) :
    t'.occupied = t.occupied + 1 := by
  unfold IdxPointer.add at ha
  split at ha
  · cases ha
    exact absurd rfl hi
  · obtain ⟨n, hn, he⟩ := Option.map_eq_some_iff.mp ha
    cases he
    have hnone : t.array n = none := by simpa using List.find?_some hn
    have hmem := List.mem_range'_1.mp (List.mem_of_find?_eq_some hn)
    have hnot : n ∉ t.slots := by simp [mem_slots, hnone]
    have hslots : slots ⟨n + 1, Function.update t.array n (some p)⟩ = insert n t.slots := by
      ext j
      by_cases hj : j = n
      · subst hj
        simp only [mem_slots, Function.update_self, Option.isSome_some, Finset.mem_insert, true_or, and_true, iff_true]
        omega
      · simp [mem_slots, hj]
    rw [occupied, hslots, Finset.card_insert_of_notMem hnot, occupied]

/-- **A free slot is found.** -/
theorem Inv.add_succeeds {t : IdxPointer} (h : t.Inv) (hfree : t.occupied < iptArraySize) (p : Nat) :
    ∃ i t', t.add p = some (i, t') ∧ i ≠ -1 := by
  obtain ⟨n, hn, hnone⟩ : ∃ n < iptArraySize, t.array n = none := by
    by_contra hall
    have heq : t.slots = Finset.range iptArraySize := by
      ext j
      simp only [mem_slots, Finset.mem_range, and_iff_left_iff_imp]
      exact fun hj => Option.ne_none_iff_isSome.mp fun hnone => hall ⟨j, hj, hnone⟩
    have hcard : t.occupied = iptArraySize := by rw [occupied, heq, Finset.card_range]
    exact Nat.lt_irrefl _ (hcard ▸ hfree)
  have hlow : t.lowest ≤ n := Nat.le_of_not_lt fun hlt => by
    have := h.below n hlt
    rw [hnone] at this
    cases this
  unfold IdxPointer.add
  rw [if_neg (by omega)]
  have hsome : ((List.range' t.lowest (iptArraySize - t.lowest)).find? fun i => (t.array i).isNone).isSome :=
    List.find?_isSome.mpr ⟨n, List.mem_range'_1.mpr ⟨hlow, by omega⟩, by simp [hnone]⟩
  obtain ⟨k, hk⟩ := Option.isSome_iff_exists.mp hsome
  rw [hk]
  exact ⟨_, _, rfl, by simp only [ne_eq]; omega⟩

end IdxPointer

/-- An allocator: what the `t`-th request gets while `live` is allocated,
NULL or the address of an object that is not. -/
structure Allocator where
  get : Nat → List Nat → Option Nat
  fresh : ∀ {t live a}, get t live = some a → a ∉ live

/-- An allocator that never runs out. -/
def Allocator.unbounded : Allocator where
  get _ live := some (live.foldr max 0 + 1)
  fresh {_ live _} h hmem := by
    cases h
    have hle : ∀ l : List Nat, ∀ x ∈ l, x ≤ l.foldr max 0 := by
      intro l
      induction l with
      | nil => simp
      | cons y l ih =>
        intro x hx
        rcases List.mem_cons.mp hx with rfl | hx
        · exact Nat.le_max_left ..
        · exact (ih x hx).trans (Nat.le_max_right ..)
    have := hle live _ hmem
    omega

end OliveHc
