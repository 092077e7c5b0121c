/-
Size classes of blocks (`utils/ipbucket.h`).

A block of the cache has one of the sizes 1, 2, 3, 4, 5, 6, 7, 8, 10, 12,
14, 16, 20, ... times 512: four sizes in each doubling. `classSize n` is the
size of class `n`. A free block is queued in the last class it is not
smaller than, and a request looks from the first class on that is not
smaller than itself, so whatever it finds there is large enough.
-/
import Mathlib.Tactic

namespace OliveHc

def ipbBegin : Nat := 9
def ipbEnd : Nat := 32
def ipbBuckets : Nat := (ipbEnd - ipbBegin) * 4 - 4 + 1

def ipb1st : Nat := 1 <<< ipbBegin
def ipb2nd : Nat := ipb1st * 2
def ipb3rd : Nat := ipb1st * 3
def ipb4th : Nat := ipb1st * 4

def bitMask (num : Nat) : Nat := (1 <<< num) - 1

/-- `bsrq` of a number that is not zero. -/
def bitHighest (n : Nat) : Nat := n.log2

/-- `(size + mask) & ~mask` on 64 bits. -/
def ipbucketBlockSize (size : Nat) : Nat :=
  let mask := if size ≤ ipb4th then bitMask ipbBegin else bitMask (bitHighest size - 2)
  (size + mask) &&& (2 ^ 64 - 1 - mask)

def ipbucketIndex (size : Nat) (up : Bool) : Int :=
  if size > 1 <<< ipbEnd then if up then -1 else ipbBuckets - 1
  else if size ≤ ipb4th then
    if up then
      if size ≤ ipb1st then 0 else if size ≤ ipb2nd then 1 else if size ≤ ipb3rd then 2 else 3
    else
      if size < ipb2nd then 0 else if size < ipb3rd then 1 else if size < ipb4th then 2 else 3
  else
    let first := bitHighest size
    let index := ((first : Int) - ipbBegin) * 4 - 5
    let subidx := (size >>> (first - 2)) &&& 3
    let tail := if up then if size &&& bitMask (first - 2) ≠ 0 then 1 else 0 else 0
    index + subidx + tail

/-! ## The sizes -/

/-- Four sizes in each doubling, from `4` units on. -/
def cellSize (m : Nat) : Nat := 2 ^ (m / 4) * (m % 4 + 4)

/-- The size of class `n`. -/
def classSize (n : Nat) : Nat := if n < 3 then 512 * (n + 1) else cellSize (n + 33)

theorem cellSize_eq (k : Nat) {j : Nat} (hj : j ≤ 4) : cellSize (4 * k + j) = 2 ^ k * (j + 4) := by
  unfold cellSize
  rcases Nat.lt_or_eq_of_le hj with hlt | rfl
  · rw [show (4 * k + j) / 4 = k by omega, show (4 * k + j) % 4 = j by omega]
  · rw [show (4 * k + 4) / 4 = k + 1 by omega, show (4 * k + 4) % 4 = 0 by omega, pow_succ]
    ring

theorem cellSize_lt_succ (m : Nat) : cellSize m < cellSize (m + 1) := by
  obtain ⟨k, j, hj, rfl⟩ : ∃ k j, j < 4 ∧ m = 4 * k + j := ⟨m / 4, m % 4, Nat.mod_lt _ (by omega), by omega⟩
  rw [cellSize_eq k (by omega), show 4 * k + j + 1 = 4 * k + (j + 1) by omega, cellSize_eq k (by omega)]
  exact Nat.mul_lt_mul_of_pos_left (by omega) (Nat.two_pow_pos k)

theorem classSize_strictMono : StrictMono classSize := by
  refine strictMono_nat_of_lt_succ fun n => ?_
  unfold classSize
  rcases Nat.lt_trichotomy n 2 with h | rfl | h
  · rw [if_pos (by omega), if_pos (by omega)]
    omega
  · decide
  · rw [if_neg (by omega), if_neg (by omega)]
    exact cellSize_lt_succ (n + 33)

theorem classSize_small {n : Nat} (hn : n ≤ 3) : classSize n = 512 * (n + 1) := by
  interval_cases n <;> rfl

theorem dvd_classSize (n : Nat) : 512 ∣ classSize n := by
  unfold classSize
  split
  · exact Nat.dvd_mul_right 512 (n + 1)
  · rw [cellSize]
    exact Dvd.dvd.mul_right (pow_dvd_pow 2 (show 9 ≤ (n + 33) / 4 by omega)) _

theorem classSize_pos (n : Nat) : 0 < classSize n := by
  have := classSize_strictMono.monotone (Nat.zero_le n)
  have h0 : classSize 0 = 512 := rfl
  omega

/-- A class whose size is not above the largest request is not the last one. -/
theorem lt_ipbBuckets_of_classSize {n : Nat} (h : classSize n ≤ 2 ^ 32) : n + 1 < ipbBuckets := by
  have h87 : classSize 87 = 2 ^ 32 := by decide
  have hn : n ≤ 87 := classSize_strictMono.le_iff_le.mp (Nat.le_trans h (Nat.le_of_eq h87.symm))
  simp only [ipbBuckets, ipbEnd, ipbBegin]
  omega

/-- A size above the small ones as `2 ^ k` times four to eight, and a rest. -/
theorem size_split {s : Nat} (hs : ipb4th < s) : ∃ k q rest, bitHighest s = k + 2 ∧ 9 ≤ k ∧ 4 ≤ q ∧ q < 8 ∧
    rest < 2 ^ k ∧ s = 2 ^ k * q + rest := by
  have hne : s ≠ 0 := by simp only [ipb4th] at hs; omega
  have hlo : 2 ^ s.log2 ≤ s := Nat.log2_self_le hne
  have hhi : s < 2 ^ (s.log2 + 1) := Nat.lt_log2_self
  have h11 : 11 ≤ s.log2 := (Nat.le_log2 hne).mpr (by simp [ipb4th, ipb1st, ipbBegin] at hs; omega)
  obtain ⟨k, hk⟩ : ∃ k, s.log2 = k + 2 := ⟨s.log2 - 2, by omega⟩
  have hpos : 0 < 2 ^ k := Nat.two_pow_pos k
  rw [hk] at hlo hhi
  refine ⟨k, s / 2 ^ k, s % 2 ^ k, hk, by omega, ?_, ?_, Nat.mod_lt _ hpos, (Nat.div_add_mod s (2 ^ k)).symm⟩
  · rw [Nat.le_div_iff_mul_le hpos]
    calc 4 * 2 ^ k = 2 ^ (k + 2) := by ring
      _ ≤ s := hlo
  · rw [Nat.div_lt_iff_lt_mul hpos]
    calc s < 2 ^ (k + 2 + 1) := hhi
      _ = 8 * 2 ^ k := by ring

/-- Clearing the low `k` bits of a 64-bit number. -/
theorem and_not_mask {x k : Nat} (hx : x < 2 ^ 64) (hk : k ≤ 64) :
    x &&& (2 ^ 64 - 1 - bitMask k) = 2 ^ k * (x / 2 ^ k) := by
  have hmask : 2 ^ 64 - 1 - bitMask k = 2 ^ 64 - (2 ^ k - 1 + 1) := by
    rw [bitMask, Nat.one_shiftLeft]
    omega
  have hlt : 2 ^ k - 1 < 2 ^ 64 := by
    have := Nat.pow_le_pow_right (n := 2) (by omega) hk
    have := Nat.two_pow_pos k
    omega
  refine Nat.eq_of_testBit_eq fun i => ?_
  rw [Nat.testBit_and, hmask, Nat.testBit_two_pow_sub_succ hlt, Nat.testBit_two_pow_sub_one,
    ← Nat.shiftRight_eq_div_pow, Nat.testBit_two_pow_mul, Nat.testBit_shiftRight]
  by_cases hik : i < k
  · simp [hik, Nat.not_le.mpr hik]
  · rw [Nat.add_sub_cancel' (Nat.not_lt.mp hik)]
    by_cases hi : i < 64
    · simp [hik, hi, Nat.not_lt.mp hik]
    · have : x.testBit i = false := Nat.testBit_lt_two_pow (Nat.lt_of_lt_of_le hx (Nat.pow_le_pow_right (by omega) (by omega)))
      simp [this]

theorem ipbucketIndex_split {s k q rest : Nat} (hs : ipb4th < s) (hle : s ≤ 2 ^ 32) (hk : bitHighest s = k + 2)
    (hq : 4 ≤ q) (hq' : q < 8) (hr : rest < 2 ^ k) (he : s = 2 ^ k * q + rest) (up : Bool) :
    ipbucketIndex s up + 33 = 4 * k + (q - 4) + (if up = true ∧ rest ≠ 0 then 1 else 0) := by
  have hdiv : s >>> k = q := by
    rw [Nat.shiftRight_eq_div_pow, he, Nat.mul_add_div (Nat.two_pow_pos k), Nat.div_eq_of_lt hr, Nat.add_zero]
  have hmod : s &&& bitMask k = rest := by
    rw [bitMask, Nat.one_shiftLeft, Nat.and_two_pow_sub_one_eq_mod, he, Nat.mul_add_mod, Nat.mod_eq_of_lt hr]
  have hsub : q &&& 3 = q - 4 := by
    interval_cases q <;> rfl
  unfold ipbucketIndex
  rw [if_neg (by rw [ipbEnd, Nat.one_shiftLeft]; omega), if_neg (by omega)]
  simp only [hk, Nat.add_sub_cancel, hdiv, hmod, hsub, ipbBegin]
  cases up
  · simp
    omega
  · by_cases h0 : rest = 0 <;> simp [h0] <;> omega

theorem ipbucketBlockSize_split {s k q rest : Nat} (hs : ipb4th < s) (hle : s ≤ 2 ^ 32) (hk : bitHighest s = k + 2)
    (hr : rest < 2 ^ k) (he : s = 2 ^ k * q + rest) :
    ipbucketBlockSize s = 2 ^ k * (q + if rest ≠ 0 then 1 else 0) := by
  have hpos := Nat.two_pow_pos k
  have hk64 : k ≤ 32 := by
    have h1 : 2 ^ (k + 2) ≤ 2 ^ 32 := Nat.le_trans (hk ▸ Nat.log2_self_le (by simp only [ipb4th] at hs; omega)) hle
    have := (Nat.pow_le_pow_iff_right (a := 2) (by omega)).mp h1
    omega
  have hlt : s + bitMask k < 2 ^ 64 := by
    have := Nat.pow_le_pow_right (n := 2) (by omega) hk64
    rw [bitMask, Nat.one_shiftLeft]
    omega
  simp only [ipbucketBlockSize, if_neg (Nat.not_le.mpr hs), hk, Nat.add_sub_cancel]
  rw [and_not_mask hlt (by omega)]
  congr 1
  rw [bitMask, Nat.one_shiftLeft, he, Nat.add_assoc, Nat.mul_add_div hpos]
  congr 1
  by_cases h0 : rest = 0
  · simp [h0, Nat.div_eq_of_lt (Nat.sub_lt hpos Nat.one_pos)]
  · rw [if_pos h0, show rest + (2 ^ k - 1) = (rest - 1) + 2 ^ k by omega, Nat.add_div_right _ hpos,
      Nat.div_eq_of_lt (by omega)]

/-! ## The two roundings -/

/-- Small sizes are multiples of the unit. -/
theorem ipbucketBlockSize_small {s : Nat} (hs : s ≤ ipb4th) : ipbucketBlockSize s = 512 * ((s + 511) / 512) := by
  simp only [ipbucketBlockSize, if_pos hs]
  rw [and_not_mask (by simp [ipb4th, ipb1st, ipbBegin, bitMask] at *; omega) (by decide)]
  rfl

/-- Rounding up: the first class that is not smaller, and its size. -/
theorem ipbucketIndex_up {s : Nat} (h1 : 1 ≤ s) (hle : s ≤ 2 ^ 32) : ∃ n : Nat, ipbucketIndex s true = n ∧
    n + 1 < ipbBuckets ∧ ipbucketBlockSize s = classSize n ∧ ∀ m, n ≤ m ↔ s ≤ classSize m := by
  -- It is enough to place `s` between two classes.
  suffices ∃ n : Nat, ipbucketIndex s true = n ∧ ipbucketBlockSize s = classSize n ∧ s ≤ classSize n ∧
      (n = 0 ∨ classSize (n - 1) < s) by
    obtain ⟨n, hidx, hbs, hsn, hns⟩ := this
    have hiff : ∀ m, n ≤ m ↔ s ≤ classSize m := by
      intro m
      refine ⟨fun hnm => Nat.le_trans hsn (classSize_strictMono.monotone hnm), fun hsm => ?_⟩
      by_contra hlt
      rcases hns with rfl | hns
      · omega
      · have := classSize_strictMono.monotone (show m ≤ n - 1 by omega)
        omega
    have h87 : n ≤ 87 := (hiff 87).mpr (Nat.le_trans hle (by decide))
    exact ⟨n, hidx, by simp only [ipbBuckets, ipbEnd, ipbBegin]; omega, hbs, hiff⟩
  rcases Nat.lt_or_ge ipb4th s with hs | hs
  · obtain ⟨k, q, rest, hk, hk9, hq, hq', hr, he⟩ := size_split hs
    have hidx := ipbucketIndex_split hs hle hk hq hq' hr he true
    have hbs := ipbucketBlockSize_split hs hle hk hr he
    have hpos := Nat.two_pow_pos k
    by_cases h0 : rest = 0
    · subst h0
      simp only [ne_eq, not_true_eq_false, and_false, if_false, Nat.add_zero, Int.add_zero] at hidx hbs
      have hn : classSize (4 * k + (q - 4) - 33) = 2 ^ k * q := by
        rw [classSize, if_neg (by omega), show 4 * k + (q - 4) - 33 + 33 = 4 * k + (q - 4) by omega,
          cellSize_eq k (by omega), Nat.sub_add_cancel hq]
      refine ⟨4 * k + (q - 4) - 33, by omega, by rw [hbs, hn], by omega, .inr ?_⟩
      have := classSize_strictMono (show 4 * k + (q - 4) - 33 - 1 < 4 * k + (q - 4) - 33 by omega)
      omega
    · rw [if_pos ⟨rfl, h0⟩] at hidx
      rw [if_pos h0] at hbs
      have hn : classSize (4 * k + (q - 4) + 1 - 33) = 2 ^ k * (q + 1) := by
        rw [classSize, if_neg (by omega), show 4 * k + (q - 4) + 1 - 33 + 33 = 4 * k + (q - 3) by omega,
          cellSize_eq k (by omega), show q - 3 + 4 = q + 1 by omega]
      have hn' : classSize (4 * k + (q - 4) + 1 - 33 - 1) = 2 ^ k * q := by
        rw [classSize, if_neg (by omega), show 4 * k + (q - 4) + 1 - 33 - 1 + 33 = 4 * k + (q - 4) by omega,
          cellSize_eq k (by omega), Nat.sub_add_cancel hq]
      refine ⟨4 * k + (q - 4) + 1 - 33, by omega, by rw [hbs, hn], ?_, .inr ?_⟩
      · rw [hn, Nat.mul_add]; omega
      · omega
  · have hbs := ipbucketBlockSize_small hs
    have h4 : ipb4th = 2048 := rfl
    have hidx : ipbucketIndex s true = ((s + 511) / 512 - 1 : Nat) := by
      unfold ipbucketIndex
      rw [if_neg (by rw [ipbEnd, Nat.one_shiftLeft]; omega), if_pos hs]
      simp only [ipb1st, ipb2nd, ipb3rd, ipbBegin, Nat.one_shiftLeft, if_true]
      split_ifs <;> omega
    have hn := classSize_small (n := (s + 511) / 512 - 1) (by omega)
    refine ⟨(s + 511) / 512 - 1, hidx, by omega, by omega, ?_⟩
    rcases Nat.eq_zero_or_pos ((s + 511) / 512 - 1) with h0 | h0
    · exact .inl h0
    · have hn' := classSize_small (n := (s + 511) / 512 - 1 - 1) (by omega)
      exact .inr (by omega)

/-- The class a block is queued in, and the next one. -/
theorem ipbucketIndex_between {b : Nat} (hb : 512 ≤ b) (hle : b ≤ 2 ^ 32) :
    ∃ n : Nat, ipbucketIndex b false = n ∧ classSize n ≤ b ∧ b < classSize (n + 1) := by
  rcases Nat.lt_or_ge ipb4th b with hs | hs
  · obtain ⟨k, q, rest, hk, hk9, hq, hq', hr, he⟩ := size_split hs
    have hidx := ipbucketIndex_split hs hle hk hq hq' hr he false
    simp only [Bool.false_eq_true, false_and, if_false, Int.add_zero] at hidx
    have hn : classSize (4 * k + (q - 4) - 33) = 2 ^ k * q := by
      rw [classSize, if_neg (by omega), show 4 * k + (q - 4) - 33 + 33 = 4 * k + (q - 4) by omega,
        cellSize_eq k (by omega), Nat.sub_add_cancel hq]
    have hn' : classSize (4 * k + (q - 4) - 33 + 1) = 2 ^ k * (q + 1) := by
      rw [classSize, if_neg (by omega), show 4 * k + (q - 4) - 33 + 1 + 33 = 4 * k + (q - 3) by omega,
        cellSize_eq k (by omega), show q - 3 + 4 = q + 1 by omega]
    refine ⟨4 * k + (q - 4) - 33, by omega, by omega, ?_⟩
    rw [hn', Nat.mul_add]
    omega
  · have h4 : ipb4th = 2048 := rfl
    have hidx : ipbucketIndex b false = (b / 512 - 1 : Nat) := by
      unfold ipbucketIndex
      rw [if_neg (by rw [ipbEnd, Nat.one_shiftLeft]; omega), if_pos hs]
      simp only [ipb1st, ipb2nd, ipb3rd, ipb4th, ipbBegin, Nat.one_shiftLeft, Bool.false_eq_true, if_false]
      split_ifs <;> omega
    have hn := classSize_small (n := b / 512 - 1) (by omega)
    have hn' : 512 * (b / 512 - 1 + 2) ≤ classSize (b / 512 - 1 + 1) := by
      rcases Nat.lt_or_ge (b / 512 - 1) 3 with h3 | h3
      · rw [classSize_small (by omega)]
      · obtain h3 : b / 512 - 1 = 3 := by omega
        rw [h3]
        decide
    exact ⟨b / 512 - 1, hidx, by omega, by omega⟩

/-- Rounding down: the last class that is not larger. -/
theorem ipbucketIndex_down {b : Nat} (hb : 512 ≤ b) : ∃ n : Nat, ipbucketIndex b false = n ∧ n < ipbBuckets ∧
    ∀ m, m + 1 < ipbBuckets → (m ≤ n ↔ classSize m ≤ b) := by
  rcases Nat.lt_or_ge (2 ^ 32) b with hbig | hle
  · refine ⟨ipbBuckets - 1, ?_, by decide, fun m hm => ?_⟩
    · unfold ipbucketIndex
      rw [if_pos (by rw [ipbEnd, Nat.one_shiftLeft]; exact hbig)]
      rfl
    · have h87 : classSize 87 = 2 ^ 32 := by decide
      simp only [ipbBuckets, ipbEnd, ipbBegin] at hm ⊢
      have := classSize_strictMono.monotone (show m ≤ 87 by omega)
      omega
  · obtain ⟨n, hidx, hnb, hbn⟩ := ipbucketIndex_between hb hle
    have hlast := lt_ipbBuckets_of_classSize (Nat.le_trans hnb hle)
    refine ⟨n, hidx, by omega, fun m _ => ?_⟩
    refine ⟨fun hmn => Nat.le_trans (classSize_strictMono.monotone hmn) hnb, fun hmb => ?_⟩
    exact Nat.lt_succ_iff.mp (classSize_strictMono.lt_iff_lt.mp (Nat.lt_of_le_of_lt hmb hbn))

/-- **A block found from a request's class on is large enough**, and every
block that is large enough is found there. -/
theorem le_ipbucketIndex_iff {s b : Nat} (h1 : 1 ≤ s) (hle : s ≤ 2 ^ 32) (hb : 512 ≤ b) :
    ipbucketIndex s true ≤ ipbucketIndex b false ↔ ipbucketBlockSize s ≤ b := by
  obtain ⟨n, hn, hlt, hbs, -⟩ := ipbucketIndex_up h1 hle
  obtain ⟨m, hm, -, hiff⟩ := ipbucketIndex_down hb
  rw [hn, hm, hbs, Int.ofNat_le]
  exact hiff n hlt

theorem ipbucketBlockSize_zero : ipbucketBlockSize 0 = 0 := by decide

theorem dvd_ipbucketBlockSize {s : Nat} (hle : s ≤ 2 ^ 32) : 512 ∣ ipbucketBlockSize s := by
  rcases Nat.eq_zero_or_pos s with rfl | h1
  · simp [ipbucketBlockSize_zero]
  · obtain ⟨n, -, -, hbs, -⟩ := ipbucketIndex_up h1 hle
    rw [hbs]
    exact dvd_classSize n

theorem ipbucketBlockSize_pos {s : Nat} (h1 : 1 ≤ s) (hle : s ≤ 2 ^ 32) : 0 < ipbucketBlockSize s := by
  obtain ⟨n, -, -, hbs, -⟩ := ipbucketIndex_up h1 hle
  rw [hbs]
  exact classSize_pos n

theorem le_ipbucketBlockSize {s : Nat} (hle : s ≤ 2 ^ 32) : s ≤ ipbucketBlockSize s := by
  rcases Nat.eq_zero_or_pos s with rfl | h1
  · exact Nat.zero_le _
  · obtain ⟨n, -, -, hbs, hiff⟩ := ipbucketIndex_up h1 hle
    rw [hbs]
    exact (hiff n).mp (Nat.le_refl n)

/-! ## Classes and exact sizes -/

theorem ipbucketIndex_classSize {n : Nat} (hn : n + 1 < ipbBuckets) :
    ipbucketIndex (classSize n) false = n := by
  have h0 := classSize_strictMono.monotone (Nat.zero_le n)
  obtain ⟨m, hm, -, hiff⟩ := ipbucketIndex_down (show 512 ≤ classSize n from h0)
  have hle : n ≤ m := (hiff n hn).mpr (Nat.le_refl _)
  rcases Nat.lt_or_ge (n + 2) ipbBuckets with hlt | hge
  · have hnot : ¬n + 1 ≤ m := by
      intro h
      have hsize := (hiff (n + 1) hlt).mp h
      exact absurd hsize (Nat.not_le.mpr (classSize_strictMono (Nat.lt_succ_self n)))
    rw [hm]
    omega
  · -- the last class that has a size
    obtain rfl : n = 87 := by simp only [ipbBuckets, ipbEnd, ipbBegin] at hn hge; omega
    decide

theorem ipbucketBlockSize_classSize {n : Nat} (hn : n + 1 < ipbBuckets) :
    ipbucketBlockSize (classSize n) = classSize n := by
  have h87 : n ≤ 87 := by simp only [ipbBuckets, ipbEnd, ipbBegin] at hn; omega
  have hle : classSize n ≤ 2 ^ 32 := Nat.le_trans (classSize_strictMono.monotone h87) (by decide)
  obtain ⟨m, -, -, hbs, hiff⟩ := ipbucketIndex_up (classSize_pos n) hle
  have h1 : m ≤ n := (hiff n).mpr (Nat.le_refl _)
  have h2 : n ≤ m := classSize_strictMono.le_iff_le.mp ((hiff m).mp (Nat.le_refl m))
  rw [hbs, Nat.le_antisymm h1 h2]

/-- A block in the class of a request is an exact fit if its size is that of a class. -/
theorem exact_in_class {n b : Nat} (hn : n + 1 < ipbBuckets) (hb : 512 ≤ b) (hidx : ipbucketIndex b false = n)
    (hexact : b = ipbucketBlockSize b) : b = classSize n := by
  rcases Nat.lt_or_ge (2 ^ 32) b with hbig | hle
  · have hlast : ipbucketIndex b false = (ipbBuckets : Int) - 1 := by
      rw [ipbucketIndex, if_pos (by rw [ipbEnd, Nat.one_shiftLeft]; exact hbig)]
      rfl
    omega
  · obtain ⟨m, -, hm, hbs, -⟩ := ipbucketIndex_up (show 1 ≤ b by omega) hle
    rw [← hexact] at hbs
    rw [hbs, ipbucketIndex_classSize hm] at hidx
    rw [hbs, Int.ofNat_inj.mp hidx]

/-- **A block has the size of a class if and only if no smaller block is
queued with it.** Blocks are of at least one unit. -/
theorem exact_iff_least {b : Nat} (hb : 0 < b) (hdvd : 512 ∣ b) (hle : b ≤ 2 ^ 32) : b = ipbucketBlockSize b ↔
    ∀ c, 0 < c → 512 ∣ c → ipbucketIndex c false = ipbucketIndex b false → b ≤ c := by
  have hb' : 512 ≤ b := Nat.le_of_dvd hb hdvd
  obtain ⟨n, hn, hown, -⟩ := ipbucketIndex_between hb' hle
  have hlast : n + 1 < ipbBuckets := lt_ipbBuckets_of_classSize (Nat.le_trans hown hle)
  constructor
  · intro hexact c hc hcd hidx
    rw [exact_in_class hlast hb' hn hexact]
    obtain ⟨m, hm, -, hciff⟩ := ipbucketIndex_down (Nat.le_of_dvd hc hcd)
    have hmn : m = n := by
      rw [hm, hn] at hidx
      exact Int.ofNat_inj.mp hidx
    exact (hciff n hlast).mp (Nat.le_of_eq hmn.symm)
  · intro hleast
    have hbn : b ≤ classSize n :=
      hleast _ (classSize_pos n) (dvd_classSize n) (by rw [ipbucketIndex_classSize hlast, hn])
    have heq : b = classSize n := Nat.le_antisymm hbn hown
    rw [heq, ipbucketBlockSize_classSize hlast]

/-! ## The law of the size classes -/

theorem ipbucketBlockSize_mono {s t : Nat} (h1 : 1 ≤ s) (hst : s ≤ t) (hle : t ≤ 2 ^ 32) :
    ipbucketBlockSize s ≤ ipbucketBlockSize t := by
  obtain ⟨n, -, -, hbs, hn⟩ := ipbucketIndex_up h1 (Nat.le_trans hst hle)
  obtain ⟨m, -, -, hbt, hm⟩ := ipbucketIndex_up (Nat.le_trans h1 hst) hle
  have htm : t ≤ classSize m := (hm m).mp (Nat.le_refl m)
  rw [hbs, hbt]
  exact classSize_strictMono.monotone ((hn m).mpr (Nat.le_trans hst htm))

theorem ipbucketBlockSize_idem {s : Nat} (h1 : 1 ≤ s) (hle : s ≤ 2 ^ 32) :
    ipbucketBlockSize (ipbucketBlockSize s) = ipbucketBlockSize s := by
  obtain ⟨n, -, hlt, hbs, -⟩ := ipbucketIndex_up h1 hle
  rw [hbs, ipbucketBlockSize_classSize hlt]

/-- Rounding a size above the small ones adds less than a quarter of it. -/
theorem ipbucketBlockSize_lt {s : Nat} (hs : ipb4th < s) (hle : s ≤ 2 ^ 32) :
    ipbucketBlockSize s < s + s / 4 + 1 := by
  obtain ⟨k, q, rest, hk, -, hq, -, hr, he⟩ := size_split hs
  have hquarter : 2 ^ k ≤ s / 4 := by
    rw [Nat.le_div_iff_mul_le (by decide)]
    calc 2 ^ k * 4 ≤ 2 ^ k * q := Nat.mul_le_mul_left _ hq
      _ ≤ s := by omega
  have hround : 2 ^ k * (q + if rest ≠ 0 then 1 else 0) ≤ 2 ^ k * q + 2 ^ k := by
    calc 2 ^ k * (q + if rest ≠ 0 then 1 else 0) ≤ 2 ^ k * (q + 1) := by
          refine Nat.mul_le_mul_left _ (Nat.add_le_add_left ?_ q)
          split_ifs <;> decide
      _ = 2 ^ k * q + 2 ^ k := Nat.mul_succ _ q
  rw [ipbucketBlockSize_split hs hle hk hr he]
  omega

/-- What the three formulas owe to each other, for a request of `s` bytes
and a block of `b` bytes. -/
structure SizeLaw : Prop where
  found : ∀ s b, 1 ≤ s → s ≤ 2 ^ 32 → 0 < b → 512 ∣ b →
    (ipbucketIndex b false ≥ ipbucketIndex s true ↔ b ≥ ipbucketBlockSize s)
  upBounds : ∀ s, 1 ≤ s → s ≤ 2 ^ 32 → 0 ≤ ipbucketIndex s true ∧ ipbucketIndex s true < ipbBuckets
  downBounds : ∀ b, 0 < b → 512 ∣ b → 0 ≤ ipbucketIndex b false ∧ ipbucketIndex b false < ipbBuckets
  exact : ∀ b, 0 < b → 512 ∣ b → b ≤ 2 ^ 32 → (b = ipbucketBlockSize b ↔
    ∀ c, 0 < c → 512 ∣ c → ipbucketIndex c false = ipbucketIndex b false → b ≤ c)
  mono : ∀ s t, 1 ≤ s → s ≤ t → t ≤ 2 ^ 32 → ipbucketBlockSize s ≤ ipbucketBlockSize t
  idem : ∀ s, 1 ≤ s → s ≤ 2 ^ 32 → ipbucketBlockSize (ipbucketBlockSize s) = ipbucketBlockSize s
  holds : ∀ s, 1 ≤ s → s ≤ 2 ^ 32 → s ≤ ipbucketBlockSize s
  units : ∀ s, 1 ≤ s → s ≤ 2 ^ 32 → 512 ∣ ipbucketBlockSize s
  waste : ∀ s, 1 ≤ s → s ≤ 2048 → ipbucketBlockSize s < s + 512
  wasteLarge : ∀ s, 2048 < s → s ≤ 2 ^ 32 → ipbucketBlockSize s < s + s / 4 + 1

/-- **The two roundings and the sizes agree at every size.** -/
theorem size_class_law : SizeLaw where
  found s b h1 hle hb hdvd := le_ipbucketIndex_iff h1 hle (Nat.le_of_dvd hb hdvd)
  upBounds s h1 hle := by
    obtain ⟨n, hn, hlt, -, -⟩ := ipbucketIndex_up h1 hle
    omega
  downBounds b hb hdvd := by
    obtain ⟨n, hn, hlt, -⟩ := ipbucketIndex_down (Nat.le_of_dvd hb hdvd)
    omega
  exact b hb hdvd hle := exact_iff_least hb hdvd hle
  mono s t h1 hst hle := ipbucketBlockSize_mono h1 hst hle
  idem s h1 hle := ipbucketBlockSize_idem h1 hle
  holds s _ hle := le_ipbucketBlockSize hle
  units s _ hle := dvd_ipbucketBlockSize hle
  waste s _ hle := by
    rw [ipbucketBlockSize_small hle]
    omega
  wasteLarge s hs hle := ipbucketBlockSize_lt hs hle

end OliveHc
