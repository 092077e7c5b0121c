/-
Tokens held at places, each live token at exactly one of them.

A step that hands tokens over, takes a new one in, gives one up or only
changes the order at a place keeps `Owned`. Places hold lists up to
permutation, so queues and stacks are served by the same rules.
-/
import Mathlib.Data.List.Perm.Basic
import Mathlib.Data.List.Nodup
import Mathlib.Tactic

namespace OliveHc

variable {P R : Type} [DecidableEq P]

/-- Each live token is at one place, once; nothing else is anywhere. -/
structure Owned (held : P → List R) (live : List R) : Prop where
  nodup : ∀ p, (held p).Nodup
  unique : ∀ {p q r}, r ∈ held p → r ∈ held q → p = q
  covers : ∀ r, r ∈ live ↔ ∃ p, r ∈ held p

omit [DecidableEq P] in
theorem Owned.nil : Owned (fun _ : P => ([] : List R)) [] :=
  ⟨fun _ => List.nodup_nil, fun h => by simp at h, fun r => by simp⟩

omit [DecidableEq P] in
/-- Which list of the live tokens is used does not matter. -/
theorem Owned.congr {held : P → List R} {live live' : List R} (h : Owned held live) (hl : ∀ r, r ∈ live' ↔ r ∈ live) :
    Owned held live' :=
  ⟨h.nodup, h.unique, fun r => (hl r).trans (h.covers r)⟩

theorem mem_update {held : P → List R} {p q : P} {l : List R} {r : R} :
    r ∈ Function.update held p l q ↔ (q = p ∧ r ∈ l) ∨ (q ≠ p ∧ r ∈ held q) := by
  by_cases h : q = p
  · subst h; simp
  · simp [h]

/-- A new order at one place. -/
theorem Owned.reorder {held : P → List R} {live p lp} (h : Owned held live) (hp : lp.Perm (held p)) :
    Owned (Function.update held p lp) live := by
  have hmem : ∀ q r, r ∈ Function.update held p lp q ↔ r ∈ held q := by
    intro q r
    rw [mem_update]
    by_cases hq : q = p
    · subst hq; simp [hp.mem_iff]
    · simp [hq]
  refine ⟨fun q => ?_, fun h1 h2 => ?_, fun r => ?_⟩
  · by_cases hq : q = p
    · subst hq; simpa using hp.nodup_iff.mpr (h.nodup q)
    · simpa [hq] using h.nodup q
  · rw [hmem] at h1 h2; exact h.unique h1 h2
  · simp only [hmem]; exact h.covers r

/-- The tokens `m` go from one place to another. -/
theorem Owned.transfer {held : P → List R} {live p q lp lq} {m : List R} (h : Owned held live) (hpq : p ≠ q)
    (hp : (held p).Perm (m ++ lp)) (hq : lq.Perm (m ++ held q)) :
    Owned (Function.update (Function.update held p lp) q lq) live := by
  have hnd : (m ++ lp).Nodup := hp.nodup_iff.mp (h.nodup p)
  have hxs : ∀ r ∈ m, r ∈ held p := fun r hr => hp.mem_iff.mpr (List.mem_append_left _ hr)
  -- Where a token is after the move.
  have hmem : ∀ a r, r ∈ Function.update (Function.update held p lp) q lq a ↔
      (a = q ∧ r ∈ m) ∨ (r ∈ held a ∧ r ∉ m) := by
    intro a r
    rw [mem_update, mem_update]
    by_cases haq : a = q
    · subst haq
      simp only [true_and, ne_eq, not_true_eq_false, false_and, or_false, hq.mem_iff, List.mem_append]
      constructor
      · rintro (hr | hr)
        · exact .inl hr
        · exact .inr ⟨hr, fun hx => hpq (h.unique (hxs r hx) hr)⟩
      · rintro (hr | hr)
        · exact .inl hr
        · exact .inr hr.1
    · by_cases hap : a = p
      · subst hap
        simp only [haq, false_and, ne_eq, not_false_eq_true, true_and, not_true_eq_false, or_false, false_or,
          hp.mem_iff, List.mem_append]
        constructor
        · intro hr; exact ⟨.inr hr, fun hx => (List.nodup_append.mp hnd).2.2 r hx r hr rfl⟩
        · rintro ⟨hr | hr, hx⟩
          · exact absurd hr hx
          · exact hr
      · simp only [haq, hap, false_and, ne_eq, not_false_eq_true, true_and, false_or]
        exact ⟨fun hr => ⟨hr, fun hx => hap (h.unique hr (hxs r hx))⟩, fun hr => hr.1⟩
  refine ⟨fun a => ?_, fun {a b r} h1 h2 => ?_, fun r => ?_⟩
  · by_cases haq : a = q
    · subst haq
      simp only [Function.update_self]
      rw [hq.nodup_iff, List.nodup_append]
      exact ⟨(List.nodup_append.mp hnd).1, h.nodup a, fun r hr s hs he => hpq (h.unique (hxs r hr) (he ▸ hs))⟩
    · rw [Function.update_of_ne haq]
      by_cases hap : a = p
      · subst hap; simpa using (List.nodup_append.mp hnd).2.1
      · simpa [hap] using h.nodup a
  · rw [hmem] at h1 h2
    rcases h1 with ⟨rfl, h1⟩ | ⟨h1, hx1⟩ <;> rcases h2 with ⟨rfl, h2⟩ | ⟨h2, hx2⟩
    · rfl
    · exact absurd h1 hx2
    · exact absurd h2 hx1
    · exact h.unique h1 h2
  · rw [h.covers]
    simp only [hmem]
    constructor
    · rintro ⟨a, ha⟩
      by_cases hr : r ∈ m
      · exact ⟨q, .inl ⟨rfl, hr⟩⟩
      · exact ⟨a, .inr ⟨ha, hr⟩⟩
    · rintro ⟨a, ⟨-, hr⟩ | ⟨ha, -⟩⟩
      · exact ⟨p, hxs r hr⟩
      · exact ⟨a, ha⟩

/-- At one place the tokens `m` are replaced by `m'`, each of which was among
them or is new. -/
theorem Owned.splice {held : P → List R} {live live' : List R} {p : P} {a b m m' : List R} (h : Owned held live)
    (hp : held p = a ++ m ++ b) (hnd : m'.Nodup) (hm : ∀ r ∈ m', r ∈ m ∨ r ∉ live)
    (hl : ∀ r, r ∈ live' ↔ r ∈ m' ∨ (r ∈ live ∧ r ∉ m)) : Owned (Function.update held p (a ++ m' ++ b)) live' := by
  have hall := h.nodup p
  rw [hp] at hall
  have hin : ∀ r, r ∈ a ∨ r ∈ b → r ∈ held p := by
    intro r hr
    rw [hp]
    simp only [List.mem_append]
    tauto
  have hlive : ∀ {q r}, r ∈ held q → r ∈ live := fun hr => (h.covers _).mpr ⟨_, hr⟩
  obtain ⟨ham, hbn, hab⟩ := List.nodup_append.mp hall
  obtain ⟨han, hmn, ham⟩ := List.nodup_append.mp ham
  -- The new tokens are apart from those that stay.
  have hapart : ∀ r ∈ m', r ∉ a ∧ r ∉ b := by
    intro r hr
    rcases hm r hr with hrm | hrl
    · exact ⟨fun hra => ham r hra r hrm rfl, fun hrb => hab r (by simp [hrm]) r hrb rfl⟩
    · exact ⟨fun hra => hrl (hlive (hin r (.inl hra))), fun hrb => hrl (hlive (hin r (.inr hrb)))⟩
  -- A token at the place, before and after.
  have hmem : ∀ r, r ∈ held p ↔ r ∈ a ∨ r ∈ m ∨ r ∈ b := fun r => by
    rw [hp]
    simp only [List.mem_append, or_assoc]
  refine ⟨fun q => ?_, fun {q q' r} h1 h2 => ?_, fun r => ?_⟩
  · by_cases hq : q = p
    · subst hq
      rw [Function.update_self]
      refine List.nodup_append.mpr ⟨List.nodup_append.mpr ⟨han, hnd, fun r hra r' hr' he => ?_⟩, hbn, fun r hr r' hrb he => ?_⟩
      · exact (hapart r' hr').1 (he ▸ hra)
      · rcases List.mem_append.mp hr with hra | hrm
        · exact hab r (by simp [hra]) r' hrb he
        · exact (hapart r hrm).2 (he ▸ hrb)
    · rw [Function.update_of_ne hq]
      exact h.nodup q
  · -- A token of the place is at no other.
    have hother : ∀ {x r}, x ≠ p → r ∈ held x → r ∉ a ++ m' ++ b := by
      intro x r hx hr hr'
      simp only [List.mem_append] at hr'
      rcases hr' with (hra | hrm) | hrb
      · exact hx (h.unique hr (hin r (.inl hra)))
      · rcases hm r hrm with hrm | hrl
        · exact hx (h.unique hr ((hmem r).mpr (.inr (.inl hrm))))
        · exact hrl (hlive hr)
      · exact hx (h.unique hr (hin r (.inr hrb)))
    rcases mem_update.mp h1 with ⟨rfl, k1⟩ | ⟨hq, k1⟩ <;> rcases mem_update.mp h2 with ⟨rfl, k2⟩ | ⟨hq', k2⟩
    · rfl
    · exact absurd k1 (hother hq' k2)
    · exact absurd k2 (hother hq k1)
    · exact h.unique k1 k2
  · rw [hl, h.covers]
    constructor
    · rintro (hr | ⟨⟨q, hq⟩, hrm⟩)
      · exact ⟨p, by rw [Function.update_self]; simp [hr]⟩
      · refine ⟨q, mem_update.mpr ?_⟩
        by_cases hqp : q = p
        · subst hqp
          rw [hmem] at hq
          refine .inl ⟨rfl, ?_⟩
          simp only [List.mem_append]
          tauto
        · exact .inr ⟨hqp, hq⟩
    · rintro ⟨q, hq⟩
      rcases mem_update.mp hq with ⟨rfl, hin'⟩ | ⟨hqp, hq⟩
      · simp only [List.mem_append] at hin'
        rcases hin' with (hra | hrm) | hrb
        · exact .inr ⟨⟨q, hin r (.inl hra)⟩, fun hrm => ham r hra r hrm rfl⟩
        · exact .inl hrm
        · exact .inr ⟨⟨q, hin r (.inr hrb)⟩, fun hrm => hab r (by simp [hrm]) r hrb rfl⟩
      · exact .inr ⟨⟨q, hq⟩, fun hrm => hqp (h.unique hq ((hmem r).mpr (.inr (.inl hrm))))⟩

/-- A token that was not live arrives at a place. -/
theorem Owned.gain {held : P → List R} {live p l} {r : R} (h : Owned held live) (hr : r ∉ live)
    (hp : l.Perm (r :: held p)) : Owned (Function.update held p l) (r :: live) := by
  have hno : ∀ q, r ∉ held q := fun q hq => hr ((h.covers r).mpr ⟨q, hq⟩)
  have hmem : ∀ a s, s ∈ Function.update held p l a ↔ (a = p ∧ s = r) ∨ s ∈ held a := by
    intro a s
    rw [mem_update]
    by_cases ha : a = p
    · subst ha; simp [hp.mem_iff]
    · simp [ha]
  refine ⟨fun a => ?_, fun {a b s} h1 h2 => ?_, fun s => ?_⟩
  · by_cases ha : a = p
    · subst ha
      simp only [Function.update_self]
      rw [hp.nodup_iff, List.nodup_cons]
      exact ⟨hno a, h.nodup a⟩
    · simpa [ha] using h.nodup a
  · rw [hmem] at h1 h2
    rcases h1 with ⟨rfl, rfl⟩ | h1 <;> rcases h2 with ⟨rfl, h2⟩ | h2
    · rfl
    · exact absurd h2 (hno b)
    · subst h2; exact absurd h1 (hno a)
    · exact h.unique h1 h2
  · simp only [hmem, List.mem_cons, h.covers]
    constructor
    · rintro (rfl | ⟨a, ha⟩)
      · exact ⟨p, .inl ⟨rfl, rfl⟩⟩
      · exact ⟨a, .inr ha⟩
    · rintro ⟨a, ⟨-, hs⟩ | ha⟩
      · exact .inl hs
      · exact .inr ⟨a, ha⟩

/-- A token is given up. -/
theorem Owned.lose [DecidableEq R] {held : P → List R} {live p lp} {r : R} (h : Owned held live)
    (hp : (held p).Perm (r :: lp)) : Owned (Function.update held p lp) (live.filter (· ≠ r)) := by
  have hr : r ∈ held p := hp.mem_iff.mpr (by simp)
  have hnd : r ∉ lp ∧ lp.Nodup := List.nodup_cons.mp (hp.nodup_iff.mp (h.nodup p))
  have hmem : ∀ a s, s ∈ Function.update held p lp a ↔ s ∈ held a ∧ s ≠ r := by
    intro a s
    rw [mem_update]
    by_cases ha : a = p
    · subst ha
      simp only [true_and, ne_eq, not_true_eq_false, false_and, or_false, hp.mem_iff, List.mem_cons]
      constructor
      · intro hs; exact ⟨.inr hs, fun he => hnd.1 (he ▸ hs)⟩
      · rintro ⟨hs | hs, hne⟩
        · exact absurd hs hne
        · exact hs
    · simp only [ha, false_and, ne_eq, not_false_eq_true, true_and, false_or]
      exact ⟨fun hs => ⟨hs, fun he => ha (h.unique (he ▸ hs) hr)⟩, fun hs => hs.1⟩
  refine ⟨fun a => ?_, fun {a b s} h1 h2 => ?_, fun s => ?_⟩
  · by_cases ha : a = p
    · subst ha; simpa using hnd.2
    · simpa [ha] using h.nodup a
  · rw [hmem] at h1 h2; exact h.unique h1.1 h2.1
  · simp only [hmem, List.mem_filter, h.covers, decide_eq_true_eq, ne_eq, exists_and_right]

omit [DecidableEq P] in
/-- A token is taken from wherever it is. -/
theorem Owned.erase [DecidableEq R] {held : P → List R} {live : List R} (h : Owned held live) (r : R) :
    Owned (fun p => (held p).erase r) (live.filter (· ≠ r)) := by
  have hmem : ∀ p s, s ∈ (held p).erase r ↔ s ∈ held p ∧ s ≠ r := fun p s => by
    rw [(h.nodup p).mem_erase_iff, and_comm]
  refine ⟨fun p => (h.nodup p).erase r, fun {p q s} h1 h2 => ?_, fun s => ?_⟩
  · exact h.unique ((hmem p s).mp h1).1 ((hmem q s).mp h2).1
  · simp only [hmem, List.mem_filter, h.covers, decide_eq_true_eq, exists_and_right]

end OliveHc
