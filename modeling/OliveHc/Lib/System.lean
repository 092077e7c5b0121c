/-
Labelled transition systems: what holds of every state a run reaches.

A run may be restricted by a condition on its steps, read in the state
before the step (`Reach ok`). `Reachable` is the unrestricted case. A
condition is how the exact circumstances of a property are stated: "in
every run whose steps all meet `ok`, the property holds".
-/
import Mathlib.Logic.Relation

namespace OliveHc

universe u v

/-- A transition system with labelled steps. -/
structure System (σ : Type u) (α : Type v) where
  init : σ → Prop
  next : σ → α → σ → Prop

namespace System

variable {σ : Type u} {α : Type v} {S : System σ α} {ok : σ → α → Prop}

/-- The states reached by runs whose steps all meet `ok`. -/
inductive Reach (S : System σ α) (ok : σ → α → Prop) : σ → Prop
  | init {s} : S.init s → Reach S ok s
  | step {s a s'} : Reach S ok s → ok s a → S.next s a s' → Reach S ok s'

/-- The states reached by any run. -/
abbrev Reachable (S : System σ α) : σ → Prop := S.Reach fun _ _ => True

/-- The invariant rule: what holds initially and is kept by every step taken
from a reached state holds of every reached state. -/
theorem Reach.invariant {I : σ → Prop} (hinit : ∀ s, S.init s → I s)
    (hstep : ∀ s a s', S.Reach ok s → I s → ok s a → S.next s a s' → I s') {s} (h : S.Reach ok s) : I s := by
  induction h with
  | init h => exact hinit _ h
  | step hr hok hn ih => exact hstep _ _ _ hr ih hok hn

/-- A weaker condition on the steps reaches more. -/
theorem Reach.mono {ok' : σ → α → Prop} (hok : ∀ s a, ok s a → ok' s a) {s} (h : S.Reach ok s) : S.Reach ok' s := by
  induction h with
  | init h => exact .init h
  | step _ ha hn ih => exact .step ih (hok _ _ ha) hn

theorem Reach.reachable {s} (h : S.Reach ok s) : S.Reachable s := h.mono fun _ _ _ => trivial

/-- The system, taken up in one state. -/
def startAt (S : System σ α) (s : σ) : System σ α := { S with init := (· = s) }

/-- A list of steps of an executable step function, taken one after another. -/
def run (f : σ → α → Option σ) : σ → List α → Option σ
  | s, [] => some s
  | s, a :: l => (f s a).bind (run f · l)

theorem run_append {f : σ → α → Option σ} : ∀ {l l' : List α} {s t : σ}, run f s l = some t →
    run f s (l ++ l') = run f t l'
  | [], _, _, _, h => by
    cases h
    rfl
  | a :: l, l', s, t, h => by
    obtain ⟨u, hu, hr⟩ := Option.bind_eq_some_iff.mp h
    rw [List.cons_append, run, hu]
    exact run_append hr

theorem Reachable.step {s a s'} (h : S.Reachable s) (hn : S.next s a s') : S.Reachable s' :=
  Reach.step h trivial hn

/-- A run of an executable step function whose labels alone meet the condition. -/
theorem Reach.run {f : σ → α → Option σ} (hf : ∀ s a s', f s a = some s' → S.next s a s') {s s'} {l : List α}
    (hok : ∀ a ∈ l, ∀ s, ok s a) (h : S.Reach ok s) (hr : System.run f s l = some s') : S.Reach ok s' := by
  induction l generalizing s with
  | nil => cases hr; exact h
  | cons a l ih =>
    obtain ⟨t, ht, hr⟩ := Option.bind_eq_some_iff.mp hr
    exact ih (fun b hb => hok b (List.mem_cons_of_mem a hb)) (.step h (hok a List.mem_cons_self s) (hf _ _ _ ht)) hr

/-- An executable step function, where a step is only taken if it meets the
condition. -/
def guarded (ok : σ → α → Prop) [∀ s a, Decidable (ok s a)] (f : σ → α → Option σ) (s : σ) (a : α) : Option σ :=
  if ok s a then f s a else none

theorem Reach.guarded {f : σ → α → Option σ} [∀ s a, Decidable (ok s a)] {l : List α}
    (hf : ∀ a ∈ l, ∀ s s', f s a = some s' → S.next s a s') {s s'} (h : S.Reach ok s)
    (hr : System.run (System.guarded ok f) s l = some s') : S.Reach ok s' := by
  induction l generalizing s with
  | nil => cases hr; exact h
  | cons a l ih =>
    obtain ⟨t, ht, hr⟩ := Option.bind_eq_some_iff.mp hr
    obtain ⟨hok, ht⟩ := Option.ite_none_right_eq_some.mp ht
    exact ih (fun b hb => hf b (List.mem_cons_of_mem a hb)) (.step h hok (hf a List.mem_cons_self s t ht)) hr

theorem Reachable.run {f : σ → α → Option σ} (hf : ∀ s a s', f s a = some s' → S.next s a s') {s s'} {l : List α}
    (h : S.Reachable s) (hr : System.run f s l = some s') : S.Reachable s' :=
  Reach.run hf (fun _ _ _ => trivial) h hr

end System

end OliveHc
