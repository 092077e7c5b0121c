/-
Tilings: an interval cut into labelled pieces that follow one another.

The pieces of a tiling have positive sizes, so they are disjoint, in order
and without a gap. An operation that replaces a few neighbouring pieces by
others that cover the same interval keeps a tiling (`Tiles.replace`). Where
no two neighbours are free, the free pieces are exactly the maximal
intervals that the other pieces leave (`Tiles.gap_iff`).
-/
import Mathlib.Data.List.Chain
import Mathlib.Data.List.Basic
import Mathlib.Tactic

namespace OliveHc

universe u

variable {κ : Type u}

/-- A labelled piece of an interval. -/
structure Seg (κ : Type u) where
  tag : κ
  offset : Nat
  size : Nat
deriving DecidableEq

namespace Seg

def stop (s : Seg κ) : Nat := s.offset + s.size

/-- The points of a piece. -/
def Has (s : Seg κ) (x : Nat) : Prop := s.offset ≤ x ∧ x < s.stop

end Seg

/-- The pieces cover `[lo, hi)` one after another. -/
def Tiles : Nat → Nat → List (Seg κ) → Prop
  | lo, hi, [] => lo = hi
  | lo, hi, s :: l => s.offset = lo ∧ 0 < s.size ∧ Tiles s.stop hi l

theorem tiles_append {lo hi : Nat} {a b : List (Seg κ)} :
    Tiles lo hi (a ++ b) ↔ ∃ mid, Tiles lo mid a ∧ Tiles mid hi b := by
  induction a generalizing lo with
  | nil => simp [Tiles]
  | cons s a ih =>
    simp only [List.cons_append, Tiles, ih]
    constructor
    · rintro ⟨h1, h2, mid, h3, h4⟩
      exact ⟨mid, ⟨h1, h2, h3⟩, h4⟩
    · rintro ⟨mid, ⟨h1, h2, h3⟩, h4⟩
      exact ⟨h1, h2, mid, h3, h4⟩

theorem tiles_singleton {lo hi : Nat} {s : Seg κ} :
    Tiles lo hi [s] ↔ s.offset = lo ∧ 0 < s.size ∧ s.stop = hi := Iff.rfl

namespace Tiles

variable {lo hi : Nat} {l : List (Seg κ)}

theorem le (h : Tiles lo hi l) : lo ≤ hi := by
  induction l generalizing lo with
  | nil => exact Nat.le_of_eq h
  | cons s l ih =>
    have := ih h.2.2
    have := h.1
    simp only [Seg.stop] at *
    omega

theorem bounds (h : Tiles lo hi l) {s : Seg κ} (hs : s ∈ l) : lo ≤ s.offset ∧ 0 < s.size ∧ s.stop ≤ hi := by
  obtain ⟨a, b, rfl⟩ := List.append_of_mem hs
  obtain ⟨mid, ha, hm, hp, hb⟩ := tiles_append.mp h
  exact ⟨hm ▸ ha.le, hp, hb.le⟩

/-- The pieces stand in the order of their offsets and do not overlap. -/
theorem sorted (h : Tiles lo hi l) : l.Pairwise fun s t => s.stop ≤ t.offset := by
  induction l generalizing lo with
  | nil => exact .nil
  | cons s l ih => exact .cons (fun t ht => (h.2.2.bounds ht).1) (ih h.2.2)

theorem sum_size (h : Tiles lo hi l) : lo + (l.map Seg.size).sum = hi := by
  induction l generalizing lo with
  | nil => simpa [Tiles] using h
  | cons s l ih =>
    have hs := ih h.2.2
    have ho := h.1
    simp only [List.map_cons, List.sum_cons, Seg.stop] at *
    omega

theorem exists_has (h : Tiles lo hi l) {x : Nat} (hlo : lo ≤ x) (hhi : x < hi) : ∃ s ∈ l, s.Has x := by
  induction l generalizing lo with
  | nil =>
    have : lo = hi := h
    omega
  | cons s l ih =>
    have ho := h.1
    by_cases hx : x < s.stop
    · exact ⟨s, by simp, by omega, hx⟩
    · obtain ⟨t, ht, htx⟩ := ih h.2.2 (by omega)
      exact ⟨t, by simp [ht], htx⟩

/-- No point is in two pieces. -/
theorem has_unique (h : Tiles lo hi l) {s t : Seg κ} {x : Nat} (hs : s ∈ l) (ht : t ∈ l) (hsx : s.Has x)
    (htx : t.Has x) : s = t := by
  obtain ⟨a, b, rfl⟩ := List.append_of_mem hs
  obtain ⟨mid, ha, hmid, -, hb⟩ := tiles_append.mp h
  have h1 := hsx.1
  have h2 := hsx.2
  have h3 := htx.1
  have h4 := htx.2
  rcases List.mem_append.mp ht with hta | hts
  · have := (ha.bounds hta).2.2
    omega
  rcases List.mem_cons.mp hts with rfl | htb
  · rfl
  · have := (hb.bounds htb).1
    omega

/-- Before a piece that does not begin the tiling stands one that ends there. -/
theorem exists_prev {a b : List (Seg κ)} {s : Seg κ} (h : Tiles lo hi (a ++ s :: b)) (hlt : lo < s.offset) :
    ∃ a' t, a = a' ++ [t] ∧ t.stop = s.offset := by
  obtain ⟨mid, ha, hmid, -, -⟩ := tiles_append.mp h
  rcases List.eq_nil_or_concat a with rfl | ⟨a', t, rfl⟩
  · have : lo = mid := ha
    omega
  · rw [List.concat_eq_append] at ha ⊢
    obtain ⟨x, -, ht⟩ := tiles_append.mp ha
    exact ⟨a', t, rfl, (tiles_singleton.mp ht).2.2.trans hmid.symm⟩

/-- Behind a piece that does not end the tiling stands one that begins there. -/
theorem exists_next {a b : List (Seg κ)} {s : Seg κ} (h : Tiles lo hi (a ++ s :: b)) (hlt : s.stop < hi) :
    ∃ t b', b = t :: b' ∧ t.offset = s.stop ∧ 0 < t.size := by
  obtain ⟨mid, -, -, -, hb⟩ := tiles_append.mp h
  cases b with
  | nil =>
    have : s.stop = hi := hb
    omega
  | cons t b' => exact ⟨t, b', rfl, hb.1, hb.2.1⟩

/-- Neighbouring pieces may be replaced by others that cover the same. -/
theorem replace {a b m m' : List (Seg κ)} (h : Tiles lo hi (a ++ m ++ b))
    (hm : ∀ {x y}, Tiles x y m → Tiles x y m') : Tiles lo hi (a ++ m' ++ b) := by
  obtain ⟨y, hxy, hb⟩ := tiles_append.mp h
  obtain ⟨x, ha, hxm⟩ := tiles_append.mp hxy
  exact tiles_append.mpr ⟨y, tiles_append.mpr ⟨x, ha, hm hxm⟩, hb⟩

end Tiles

/-! ## Free pieces -/

section Free

variable {free : κ → Prop} {lo hi : Nat} {l : List (Seg κ)}

/-- No two neighbours are free. -/
def Coalesced (free : κ → Prop) (l : List (Seg κ)) : Prop :=
  l.IsChain fun s t => ¬(free s.tag ∧ free t.tag)

/-- `[lo, hi)` is a maximal interval below `limit` without a covered point. -/
structure IsGap (covered : Nat → Prop) (limit lo hi : Nat) : Prop where
  lt : lo < hi
  le : hi ≤ limit
  bare : ∀ x, lo ≤ x → x < hi → ¬covered x
  left : lo = 0 ∨ covered (lo - 1)
  right : hi = limit ∨ covered hi

theorem Coalesced.pair {a b : List (Seg κ)} {s t : Seg κ} (h : Coalesced free (a ++ s :: t :: b)) :
    ¬(free s.tag ∧ free t.tag) :=
  (List.isChain_cons_cons.mp (List.isChain_append.mp h).2.1).1

namespace Coalesced

variable {a b m m' : List (Seg κ)} {s : Seg κ}

/-- A free piece has no free neighbour on its left. -/
theorem not_free_last (h : Coalesced free (a ++ (s :: m) ++ b)) (hs : free s.tag) : ∀ t ∈ a.getLast?, ¬free t.tag := by
  intro t ht htf
  rw [List.append_assoc] at h
  exact (List.isChain_append.mp h).2.2 t ht s (by simp) ⟨htf, hs⟩

/-- A free piece has no free neighbour on its right. -/
theorem not_free_head (h : Coalesced free (a ++ (m ++ [s]) ++ b)) (hs : free s.tag) : ∀ t ∈ b.head?, ¬free t.tag := by
  intro t ht htf
  exact (List.isChain_append.mp h).2.2 s (by rw [← List.append_assoc]; simp) t ht ⟨hs, htf⟩

/-- Neighbouring pieces are replaced by others; a free one at an end gets no
free neighbour. -/
theorem splice (h : Coalesced free (a ++ m ++ b)) (hm : Coalesced free m') (hne : m' ≠ [])
    (hl : ∀ s ∈ m'.head?, free s.tag → ∀ t ∈ a.getLast?, ¬free t.tag)
    (hr : ∀ s ∈ m'.getLast?, free s.tag → ∀ t ∈ b.head?, ¬free t.tag) : Coalesced free (a ++ m' ++ b) := by
  obtain ⟨ham, hb, -⟩ := List.isChain_append.mp h
  have ha := (List.isChain_append.mp ham).1
  refine List.isChain_append.mpr ⟨List.isChain_append.mpr ⟨ha, hm, ?_⟩, hb, ?_⟩
  · intro t ht x hx hf
    exact hl x hx hf.2 t ht hf.1
  · intro x hx t ht hf
    rw [List.getLast?_append_of_ne_nil _ hne] at hx
    exact hr x hx hf.1 t ht hf.2

/-- Neighbouring pieces are replaced by one; if it is free, its new
neighbours are not. -/
theorem replace (h : Coalesced free (a ++ m ++ b)) (hl : free s.tag → ∀ t ∈ a.getLast?, ¬free t.tag)
    (hr : free s.tag → ∀ t ∈ b.head?, ¬free t.tag) : Coalesced free (a ++ [s] ++ b) :=
  h.splice (List.isChain_singleton s) (by simp) (by simpa using hl) (by simpa using hr)

/-- A piece that is not free may be put behind any. -/
theorem insert (h : Coalesced free (a ++ [s] ++ b)) {x : Seg κ} (hx : ¬free x.tag) :
    Coalesced free (a ++ [s, x] ++ b) := by
  obtain ⟨has, hb, -⟩ := List.isChain_append.mp h
  have hsx : Coalesced free (a ++ [s] ++ [x]) := by
    refine List.isChain_append.mpr ⟨has, List.isChain_singleton x, fun t _ y hy hf => ?_⟩
    obtain rfl : x = y := by simpa using hy
    exact hx hf.2
  rw [List.append_assoc] at hsx
  refine List.isChain_append.mpr ⟨hsx, hb, fun y hy t _ hf => ?_⟩
  obtain rfl : x = y := by simpa using hy
  exact hx hf.1

end Coalesced

/-- The points of the pieces that are not free. -/
def TakenAt (free : κ → Prop) (l : List (Seg κ)) (x : Nat) : Prop := ∃ s ∈ l, ¬free s.tag ∧ s.Has x

/-- A free piece is bounded by pieces that are not. -/
theorem Tiles.gap_of_free (h : Tiles 0 hi l) (hc : Coalesced free l) {s : Seg κ} (hs : s ∈ l) (hf : free s.tag) :
    IsGap (TakenAt free l) hi s.offset s.stop := by
  obtain ⟨-, hpos, hle⟩ := h.bounds hs
  have hlt : s.offset < s.stop := Nat.lt_add_of_pos_right hpos
  refine ⟨hlt, hle, fun x hx hx' ⟨t, ht, htn, htx⟩ => ?_, ?_, ?_⟩
  · exact htn (h.has_unique hs ht ⟨hx, hx'⟩ htx ▸ hf)
  · obtain ⟨a, b, rfl⟩ := List.append_of_mem hs
    rcases Nat.eq_zero_or_pos s.offset with h0 | h0
    · exact .inl h0
    obtain ⟨a', t, rfl, hstop⟩ := h.exists_prev h0
    have htp := (h.bounds (s := t) (by simp)).2.1
    refine .inr ⟨t, by simp, fun htf => ?_, ?_, ?_⟩
    · rw [List.append_assoc] at hc
      exact hc.pair ⟨htf, hf⟩
    · simp only [Seg.stop] at hstop; omega
    · omega
  · obtain ⟨a, b, rfl⟩ := List.append_of_mem hs
    rcases Nat.eq_or_lt_of_le hle with he | hne
    · exact .inl he
    obtain ⟨t, b', rfl, hoff, htp⟩ := h.exists_next hne
    refine .inr ⟨t, by simp, fun htf => hc.pair ⟨hf, htf⟩, ?_, ?_⟩
    · omega
    · simp only [Seg.stop] at hoff ⊢; omega

/-- **Free pieces are maximal gaps.** -/
theorem Tiles.gap_iff (h : Tiles 0 hi l) (hc : Coalesced free l) {a b : Nat} :
    IsGap (TakenAt free l) hi a b ↔ ∃ s ∈ l, free s.tag ∧ s.offset = a ∧ s.stop = b := by
  constructor
  · intro hg
    obtain ⟨s, hs, hsa⟩ := h.exists_has (Nat.zero_le a) (Nat.lt_of_lt_of_le hg.lt hg.le)
    have hsf : free s.tag := by
      by_contra hn
      exact hg.bare a (Nat.le_refl _) hg.lt ⟨s, hs, hn, hsa⟩
    have hgs := h.gap_of_free hc hs hsf
    -- Two gaps with a common point are the same.
    have h1 := hsa.1
    have h2 := hsa.2
    refine ⟨s, hs, hsf, ?_, ?_⟩
    · by_contra hne
      obtain h0 | hcov := hg.left
      · omega
      · exact hgs.bare (a - 1) (by omega) (by omega) hcov
    · rcases Nat.lt_trichotomy s.stop b with hlt | he | hgt
      · obtain hend | hcov := hgs.right
        · have := hg.le
          omega
        · exact absurd hcov (hg.bare _ (by omega) hlt)
      · exact he
      · obtain hend | hcov := hg.right
        · have := hgs.le
          omega
        · exact absurd hcov (hgs.bare _ (by have := hg.lt; omega) hgt)
  · rintro ⟨s, hs, hf, rfl, rfl⟩
    exact h.gap_of_free hc hs hf

end Free

end OliveHc
