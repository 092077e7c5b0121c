/-
Operations on doubly linked lists that start from a node of the list.

An intrusive list is unlinked from, or linked to, next to a node that is
known by its address. On the list of the addresses these are operations
around the first occurrence of an element; each has one lemma that says
what it does to `a ++ x :: b`.
-/
import Mathlib.Data.List.Basic
import Mathlib.Data.List.Nodup

namespace OliveHc

variable {α : Type} [DecidableEq α]

/-- `list_add(n, x)`: link `n` behind `x`. -/
def listAdd (n x : α) : List α → List α
  | [] => []
  | y :: l => if y = x then y :: n :: l else y :: listAdd n x l

/-- `list_add_tail(n, x)`: link `n` before `x`. -/
def listAddTail (n x : α) : List α → List α
  | [] => []
  | y :: l => if y = x then n :: y :: l else y :: listAddTail n x l

/-- The node before `x`, or none at the head. -/
def listPrev (x : α) (l : List α) : Option α := (l.takeWhile (· ≠ x)).getLast?

/-- The node behind `x`, or none at the end. -/
def listNext (x : α) : List α → Option α
  | [] => none
  | y :: l => if y = x then l.head? else listNext x l

variable {a b : List α} {x : α}

theorem listAdd_append (h : x ∉ a) (n : α) : listAdd n x (a ++ x :: b) = a ++ x :: n :: b := by
  induction a with
  | nil => simp [listAdd]
  | cons y a ih =>
    rw [List.mem_cons, not_or] at h
    simp only [List.cons_append, listAdd, if_neg (Ne.symm h.1), ih h.2]

theorem listAddTail_append (h : x ∉ a) (n : α) : listAddTail n x (a ++ x :: b) = a ++ n :: x :: b := by
  induction a with
  | nil => simp [listAddTail]
  | cons y a ih =>
    rw [List.mem_cons, not_or] at h
    simp only [List.cons_append, listAddTail, if_neg (Ne.symm h.1), ih h.2]

theorem listNext_append (h : x ∉ a) : listNext x (a ++ x :: b) = b.head? := by
  induction a with
  | nil => simp [listNext]
  | cons y a ih =>
    rw [List.mem_cons, not_or] at h
    simp only [List.cons_append, listNext, if_neg (Ne.symm h.1), ih h.2]

theorem listPrev_append (h : x ∉ a) : listPrev x (a ++ x :: b) = a.getLast? := by
  have ha : ∀ y ∈ a, decide (y ≠ x) = true := fun y hy => decide_eq_true fun he => h (he ▸ hy)
  rw [listPrev, List.takeWhile_append_of_pos ha]
  simp

/-- A node that is not the last one is not the only one. -/
theorem erase_ne_nil_of_listNext {l : List α} (h : (listNext x l).isSome) : l.erase x ≠ [] := by
  cases l with
  | nil => cases h
  | cons y l =>
    by_cases hy : y = x
    · rw [hy, List.erase_cons_head]
      rw [listNext, if_pos hy] at h
      intro hl
      rw [hl] at h
      cases h
    · rw [List.erase_cons_tail (by simpa using hy)]
      exact List.cons_ne_nil _ _

theorem erase_append (h : x ∉ a) : (a ++ x :: b).erase x = a ++ b := by
  rw [List.erase_append_right _ h, List.erase_cons_head]

end OliveHc
