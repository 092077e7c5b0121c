/-
C strings in a buffer: the functions of `string.h` and `stdlib.h` over a
list of bytes, and what they see of a buffer that has been cut short.

A pointer is an offset, the string it points at the rest of the list, and
every byte past the list is the terminating NUL. The second half compares
each function on a list with the same function on its first `n` bytes: a
search finds what it found, if that is below `n`; a comparison succeeds if
it did and its text is inside; and a scan that stops at a byte it does not
accept is the same as long as that byte is still there.
-/
import Mathlib.Data.List.TakeWhile
import Mathlib.Tactic

namespace OliveHc

/-- The bytes of a string literal. -/
def lit (s : String) : List UInt8 := s.toList.map fun c => c.toNat.toUInt8

/-- `p[i]`. -/
def byteAt (l : List UInt8) (i : Nat) : UInt8 := l.getD i 0

/-- `strchr(p, x)` of a non-zero `x`, as an offset from `p`. -/
def strchr (x : UInt8) : List UInt8 → Option Nat
  | [] => none
  | y :: l => if y = x then some 0 else if y = 0 then none else (strchr x l).map (· + 1)

/-- How far `while(*p == x) p++` goes. -/
def skip (x : UInt8) (l : List UInt8) : Nat := (l.takeWhile (· == x)).length

def toLower (x : UInt8) : UInt8 := if 65 ≤ x ∧ x ≤ 90 then x + 32 else x

/-- `strncmp(p, pat, strlen(pat)) == 0`. -/
def strncmp (pat l : List UInt8) : Bool := pat.isPrefixOf l

/-- `strncasecmp(p, pat, strlen(pat)) == 0`. -/
def strncasecmp (pat l : List UInt8) : Bool := (pat.map toLower).isPrefixOf (l.map toLower)

/-- Whether `strstr(p, pat)` finds anything. -/
def strstr (pat : List UInt8) : List UInt8 → Bool
  | [] => pat.isEmpty
  | y :: l => pat.isPrefixOf (y :: l) || (y != 0 && strstr pat l)

def isSpace (x : UInt8) : Bool := x == 32 || (9 ≤ x && x ≤ 13)
def isDigit (x : UInt8) : Bool := 48 ≤ x && x ≤ 57

/-- 2 ^ 64, as a literal that evaluates. -/
def modulus64 : Nat := 18446744073709551616

/-- A 64-bit signed integer, wrapped. -/
def toI64 (n : Int) : Int := n.bmod modulus64

theorem toI64_of_lt {n : Int} (h0 : 0 ≤ n) (h : n < 2 ^ 63) : toI64 n = n := by
  unfold toI64 modulus64
  rw [Int.bmod_def]
  omega

/-- The decimal number of a run of digits. -/
def decimal (ds : List UInt8) : Nat := ds.foldl (fun a d => a * 10 + (d.toNat - 48)) 0

/-- The white space, the sign and the digits at the head of a string. -/
structure NumberScan where
  white : Nat
  sign : Nat
  negative : Bool
  digits : List UInt8

def scanNumber (l : List UInt8) : NumberScan :=
  let white := (l.takeWhile isSpace).length
  let c := byteAt l white
  let sign := if c = 43 ∨ c = 45 then 1 else 0
  { white, sign, negative := c == 45, digits := (l.drop (white + sign)).takeWhile isDigit }

/-- Where the scan of a number stops. -/
def NumberScan.stop (s : NumberScan) : Nat := s.white + s.sign + s.digits.length

/-- `strtoul(p, &endp, 10)`: the value, and `endp - p`. -/
def strtoul (l : List UInt8) : Nat × Nat :=
  let s := scanNumber l
  if s.digits = [] then (0, 0)
  else if modulus64 ≤ decimal s.digits then (modulus64 - 1, s.stop)
  else (if s.negative then (modulus64 - decimal s.digits) % modulus64 else decimal s.digits, s.stop)

/-! ## Cut buffers -/

theorem byteAt_take {l : List UInt8} {n i : Nat} : byteAt (l.take n) i = if i < n then byteAt l i else 0 := by
  simp only [byteAt, List.getD_eq_getElem?_getD, List.getElem?_take]
  split <;> rfl

theorem byteAt_drop {l : List UInt8} {p i : Nat} : byteAt (l.drop p) i = byteAt l (p + i) := by
  simp [byteAt]

theorem byteAt_append (pre l : List UInt8) (i : Nat) : byteAt (pre ++ l) (pre.length + i) = byteAt l i := by
  rw [← byteAt_drop, List.drop_left]

theorem byteAt_eq_zero {l : List UInt8} {i : Nat} (h : l.length ≤ i) : byteAt l i = 0 := by
  simp [byteAt, List.getElem?_eq_none h]

theorem lt_of_byteAt_ne_zero {l : List UInt8} {i : Nat} (h : byteAt l i ≠ 0) : i < l.length :=
  Nat.lt_of_not_le fun hle => h (byteAt_eq_zero hle)

/-- **A search in a cut buffer** finds what it found before, if that is left. -/
theorem strchr_take {x : UInt8} {l : List UInt8} {n : Nat} :
    strchr x (l.take n) = (strchr x l).filter (· < n) := by
  induction l generalizing n with
  | nil => simp [strchr]
  | cons y l ih =>
    cases n with
    | zero => cases h : strchr x (y :: l) <;> simp [strchr]
    | succ n =>
      simp only [List.take_succ_cons, strchr, ih]
      split
      · simp [Option.filter_some]
      split
      · rfl
      cases strchr x l with
      | none => rfl
      | some i => by_cases hi : i < n <;> simp [Option.filter_some, hi]

theorem strchr_take_some {x : UInt8} {l : List UInt8} {n i : Nat} (h : strchr x l = some i) (hn : i < n) :
    strchr x (l.take n) = some i := by
  simp [strchr_take, h, Option.filter_some, hn]

theorem strchr_take_none {x : UInt8} {l : List UInt8} {n : Nat} (h : ∀ i, strchr x l = some i → n ≤ i) :
    strchr x (l.take n) = none := by
  rw [strchr_take]
  cases hs : strchr x l with
  | none => rfl
  | some i => simpa [Option.filter_some] using h i hs

/-- What is found is there, with no earlier one and no NUL before it. -/
theorem strchr_eq_some {x : UInt8} {l : List UInt8} {i : Nat} (h : strchr x l = some i) :
    i < l.length ∧ byteAt l i = x ∧ ∀ j < i, byteAt l j ≠ x ∧ byteAt l j ≠ 0 := by
  induction l generalizing i with
  | nil => cases h
  | cons y l ih =>
    simp only [strchr] at h
    split at h
    · next hy => cases h; exact ⟨by simp, hy, fun j hj => absurd hj (by omega)⟩
    split at h
    · cases h
    next hx h0 =>
    obtain ⟨k, hk, rfl⟩ := Option.map_eq_some_iff.mp h
    obtain ⟨h1, h2, h3⟩ := ih hk
    refine ⟨by simpa using h1, h2, fun j hj => ?_⟩
    cases j with
    | zero => exact ⟨hx, h0⟩
    | succ j => exact h3 j (by omega)

theorem strchr_append {x : UInt8} {l l' : List UInt8} (hl : ∀ y ∈ l, y ≠ 0 ∧ y ≠ x) :
    strchr x (l ++ x :: l') = some l.length := by
  induction l with
  | nil => simp [strchr]
  | cons y l ih =>
    obtain ⟨⟨h0, hx⟩, hl⟩ := List.forall_mem_cons.mp hl
    rw [List.cons_append, strchr, if_neg hx, if_neg h0, ih hl]
    rfl

theorem strchr_append_none {x : UInt8} {l l' : List UInt8} (h : x ∉ l) (h' : strchr x l' = none) :
    strchr x (l ++ l') = none := by
  induction l with
  | nil => exact h'
  | cons y l ih =>
    simp only [List.mem_cons, not_or] at h
    simp [strchr, Ne.symm h.1, ih h.2]

theorem takeWhile_take {f : UInt8 → Bool} {l : List UInt8} {n : Nat} :
    (l.take n).takeWhile f = (l.takeWhile f).take n := by
  induction l generalizing n with
  | nil => simp
  | cons y l ih =>
    cases n with
    | zero => simp
    | succ n =>
      simp only [List.take_succ_cons, List.takeWhile_cons, ih]
      split <;> simp

theorem skip_take {x : UInt8} {l : List UInt8} {n : Nat} : skip x (l.take n) = min n (skip x l) := by
  rw [skip, takeWhile_take, List.length_take, skip]

theorem isPrefixOf_take {pat l : List UInt8} {n : Nat} :
    pat.isPrefixOf (l.take n) = (pat.isPrefixOf l && decide (pat.length ≤ n)) := by
  induction pat generalizing l n with
  | nil => simp
  | cons x pat ih =>
    cases l with
    | nil => simp
    | cons y l =>
      cases n with
      | zero => simp
      | succ n =>
        simp only [List.take_succ_cons, List.isPrefixOf, ih, List.length_cons, Nat.add_le_add_iff_right, Bool.and_assoc]

theorem strncmp_take {pat l : List UInt8} {n : Nat} :
    strncmp pat (l.take n) = (strncmp pat l && decide (pat.length ≤ n)) := isPrefixOf_take

theorem strncasecmp_take {pat l : List UInt8} {n : Nat} :
    strncasecmp pat (l.take n) = (strncasecmp pat l && decide (pat.length ≤ n)) := by
  simp [strncasecmp, List.map_take, isPrefixOf_take]

theorem strstr_of_take {pat l : List UInt8} {n : Nat} (h : strstr pat (l.take n)) (hp : pat ≠ []) : strstr pat l := by
  induction l generalizing n with
  | nil => simpa [strstr] using h
  | cons y l ih =>
    cases n with
    | zero => simp [strstr, hp] at h
    | succ n =>
      simp only [List.take_succ_cons, strstr, Bool.or_eq_true, Bool.and_eq_true] at h ⊢
      rcases h with h | ⟨h0, h⟩
      · rw [← List.take_succ_cons, isPrefixOf_take] at h
        exact .inl (Bool.and_eq_true_iff.mp h).1
      · exact .inr ⟨h0, ih h⟩

theorem strstr_eq_false_of_length {pat l : List UInt8} (h : l.length < pat.length) : strstr pat l = false := by
  have hno : ∀ l : List UInt8, l.length < pat.length → pat.isPrefixOf l = false := by
    intro l h
    rw [Bool.eq_false_iff]
    exact fun hp => absurd (List.isPrefixOf_iff_prefix.mp hp).length_le (by omega)
  induction l with
  | nil => cases pat <;> simp_all [strstr]
  | cons y l ih => simp only [strstr, hno _ h, ih (by simp at h; omega), Bool.and_false, Bool.or_self]

/-- No occurrence of a text without an occurrence of its first byte. -/
theorem strstr_eq_false_of_strchr {x : UInt8} {pat l : List UInt8} (h : strchr x l = none) :
    strstr (x :: pat) l = false := by
  induction l with
  | nil => rfl
  | cons y l ih =>
    simp only [strchr] at h
    split at h
    · cases h
    next hy =>
    have hyx : (x == y) = false := by simpa using Ne.symm hy
    split at h
    · next h0 => subst h0; simp [strstr, List.isPrefixOf, hyx]
    · simp [strstr, List.isPrefixOf, hyx, ih (by simpa using h)]

/-- The first byte is the last one of the string. -/
theorem strstr_eq_false_of_last {x y : UInt8} {pat l : List UInt8} {i : Nat} (h : strchr x l = some i) (hy : y ≠ 0)
    (h0 : byteAt l (i + 1) = 0) : strstr (x :: y :: pat) l = false := by
  induction l generalizing i with
  | nil => rfl
  | cons z l ih =>
    simp only [strchr] at h
    split at h
    · next hz =>
      cases h
      rw [show byteAt (z :: l) (0 + 1) = byteAt l 0 by simp [byteAt]] at h0
      cases l with
      | nil => simp [strstr, List.isPrefixOf]
      | cons w l =>
        have hw : w = 0 := by simpa [byteAt] using h0
        have hyw : (y == 0) = false := by simpa using hy
        have hx0 : (x == 0) = false ∨ x = 0 := by by_cases hx : x = 0 <;> simp [hx]
        rcases hx0 with hx0 | hx0 <;> simp [strstr, List.isPrefixOf, hw, hyw, hx0, hz]
    split at h
    · cases h
    next hz h0' =>
    obtain ⟨k, hk, rfl⟩ := Option.map_eq_some_iff.mp h
    have hxz : (x == z) = false := by simpa using Ne.symm hz
    rw [show byteAt (z :: l) (k + 1 + 1) = byteAt l (k + 1) by simp [byteAt]] at h0
    simp [strstr, List.isPrefixOf, hxz, ih hk h0]

/-- The scan of a number that is inside the cut. -/
theorem scanNumber_take {l : List UInt8} {n : Nat} (h : (scanNumber l).stop ≤ n) :
    scanNumber (l.take n) = scanNumber l := by
  simp only [NumberScan.stop, scanNumber] at h
  have hw : ((l.take n).takeWhile isSpace).length = (l.takeWhile isSpace).length := by
    rw [takeWhile_take, List.length_take]; omega
  simp only [scanNumber, hw]
  generalize (l.takeWhile isSpace).length = w at h ⊢
  by_cases hn : w < n
  · have hd : ∀ i, w + i + ((l.drop (w + i)).takeWhile isDigit).length ≤ n →
        ((l.take n).drop (w + i)).takeWhile isDigit = (l.drop (w + i)).takeWhile isDigit := by
      intro i hi
      rw [List.drop_take, takeWhile_take, List.take_of_length_le (by omega)]
    rw [byteAt_take, if_pos hn, hd _ h]
  · -- The cut is right behind the white space, so there is neither sign nor digit.
    have hs : ¬(byteAt l w = 43 ∨ byteAt l w = 45) := by
      intro hs; rw [if_pos hs] at h; omega
    rw [if_neg hs] at h ⊢
    have hds : (l.drop (w + 0)).takeWhile isDigit = [] := List.length_eq_zero_iff.mp (by omega)
    have h45 : byteAt l w ≠ 45 := fun h => hs (.inr h)
    simp only [byteAt_take, if_neg hn, List.drop_take, takeWhile_take, hds]
    simp [h45, show n - w = 0 by omega]

/-- A number whose scan ended inside the cut would have ended there anyway. -/
theorem scanNumber_of_take {l : List UInt8} {n : Nat} (h : (scanNumber (l.take n)).stop < n) :
    (scanNumber l).stop ≤ n := by
  simp only [NumberScan.stop, scanNumber] at h ⊢
  have hw : ((l.take n).takeWhile isSpace).length = (l.takeWhile isSpace).length := by
    rw [takeWhile_take, List.length_take] at h ⊢; omega
  simp only [hw] at h
  generalize (l.takeWhile isSpace).length = w at h ⊢
  have hn : w < n := by omega
  simp only [byteAt_take, if_pos hn, List.drop_take, takeWhile_take, List.length_take] at h
  generalize (if byteAt l w = 43 ∨ byteAt l w = 45 then 1 else 0) = k at h ⊢
  omega

/-- The byte `x` is among the first `n`. -/
def Within (x : UInt8) (l : List UInt8) (n : Nat) : Prop := ∃ i, i < n ∧ l[i]? = some x

namespace Within

variable {x : UInt8} {l : List UInt8} {n : Nat}

theorem byteAt_zero (h : Within x l n) : byteAt (l.take n) 0 = byteAt l 0 := by
  obtain ⟨i, hi, -⟩ := h
  rw [byteAt_take, if_pos (by omega)]

theorem drop (h : Within x l n) {k : Nat} (hk : ∀ i < k, l[i]? ≠ some x) : Within x (l.drop k) (n - k) := by
  obtain ⟨i, hi, hx⟩ := h
  have hki : k ≤ i := Nat.le_of_not_lt fun hlt => hk i hlt hx
  exact ⟨i - k, by omega, by rw [List.getElem?_drop, Nat.add_sub_cancel' hki, hx]⟩

theorem drop_one (h : Within x l n) (h0 : byteAt l 0 ≠ x) : Within x (l.drop 1) (n - 1) := by
  refine h.drop fun i hi hx => h0 ?_
  rw [show i = 0 by omega] at hx
  simp [byteAt, hx]

theorem takeWhile (h : Within x l n) {f : UInt8 → Bool} (hf : f x = false) :
    (l.take n).takeWhile f = l.takeWhile f ∧
      Within x (l.drop (l.takeWhile f).length) (n - (l.takeWhile f).length) := by
  have hpre : ∀ i < (l.takeWhile f).length, l[i]? ≠ some x := by
    intro i hi hx
    have hm : (l.takeWhile f)[i]? = some x := by
      rw [← hx, List.getElem?_eq_getElem hi, (List.takeWhile_prefix f).getElem hi,
        List.getElem?_eq_getElem (Nat.lt_of_lt_of_le hi (List.takeWhile_prefix f).length_le)]
    have := List.mem_takeWhile_imp (List.mem_of_getElem? hm)
    rw [hf] at this
    cases this
  refine ⟨?_, h.drop hpre⟩
  obtain ⟨i, hi, hx⟩ := h
  have hle : (l.takeWhile f).length ≤ i := Nat.le_of_not_lt fun hlt => hpre i hlt hx
  rw [takeWhile_take, List.take_of_length_le (by omega)]

theorem isPrefixOf (h : Within x l n) {pat : List UInt8} (hx : x ∉ pat) :
    pat.isPrefixOf (l.take n) = pat.isPrefixOf l ∧
      (pat.isPrefixOf l → Within x (l.drop pat.length) (n - pat.length)) := by
  rw [isPrefixOf_take]
  by_cases hp : pat.isPrefixOf l
  · have hpre : ∀ i < pat.length, l[i]? ≠ some x := by
      intro i hi hxi
      obtain ⟨rest, rfl⟩ := List.isPrefixOf_iff_prefix.mp hp
      rw [List.getElem?_append_left hi] at hxi
      exact hx (List.mem_of_getElem? hxi)
    refine ⟨?_, fun _ => h.drop hpre⟩
    obtain ⟨i, hi, hxi⟩ := h
    have hle : pat.length ≤ i := Nat.le_of_not_lt fun hlt => hpre i hlt hxi
    simp only [hp, Bool.true_and, decide_eq_true_eq]
    omega
  · simp [hp]

theorem map (h : Within x l n) (f : UInt8 → UInt8) : Within (f x) (l.map f) n := by
  obtain ⟨i, hi, hx⟩ := h
  exact ⟨i, hi, by simp [hx]⟩

end Within

/-! ## Terminated strings -/

/-- A string ends at its NUL: what is behind it is not searched. -/
theorem strchr_nul {x : UInt8} (hx : x ≠ 0) {l : List UInt8} {n : Nat} (h0 : byteAt l n = 0) :
    strchr x l = strchr x (l.take n) := by
  cases hs : strchr x l with
  | none => exact (strchr_take_none fun i hi => by rw [hs] at hi; cases hi).symm
  | some i =>
    obtain ⟨-, hi, hpre⟩ := strchr_eq_some hs
    refine (strchr_take_some hs ?_).symm
    rcases Nat.lt_trichotomy i n with h | h | h
    · exact h
    · rw [← h, hi] at h0; exact absurd h0 hx
    · exact absurd h0 (hpre n h).2

theorem skip_nul {x : UInt8} (hx : x ≠ 0) {l : List UInt8} {n : Nat} (h0 : byteAt l n = 0) :
    skip x l = skip x (l.take n) := by
  have hall : ∀ (l : List UInt8) i, i < skip x l → byteAt l i = x := by
    intro l
    induction l with
    | nil => intro i hi; simp [skip] at hi
    | cons y l ih =>
      intro i hi
      simp only [skip, List.takeWhile_cons] at hi
      split at hi
      · next hy =>
        cases i with
        | zero => simpa [byteAt] using hy
        | succ i => exact ih i (by simpa [skip] using hi)
      · simp at hi
  rw [skip_take]
  have hle : skip x l ≤ n := Nat.le_of_not_lt fun h => hx ((hall l n h).symm.trans h0)
  omega

theorem isPrefixOf_nul {pat : List UInt8} (hp : 0 ∉ pat) {l : List UInt8} {n : Nat} (h0 : byteAt l n = 0) :
    pat.isPrefixOf l = pat.isPrefixOf (l.take n) := by
  rw [isPrefixOf_take]
  by_cases h : pat.isPrefixOf l
  · obtain ⟨rest, rfl⟩ := List.isPrefixOf_iff_prefix.mp h
    have hle : pat.length ≤ n := by
      by_contra hlt
      refine hp ?_
      rw [byteAt, List.getD_eq_getElem?_getD, List.getElem?_append_left (by omega),
        List.getElem?_eq_getElem (by omega)] at h0
      rw [← h0]
      exact List.getElem_mem _
    simp [h, hle]
  · simp [h]

/-! ## Names before a colon -/

theorem toLower_eq_colon {x : UInt8} (h : toLower x = 58) : x = 58 := by
  unfold toLower at h
  split at h
  · next hx =>
    have h1 := UInt8.le_iff_toNat_le.mp hx.1
    have h2 := UInt8.le_iff_toNat_le.mp hx.2
    have h3 := congrArg UInt8.toNat h
    rw [UInt8.toNat_add] at h3
    simp at h1 h2 h3
    omega
  · exact h

/-- What stands before the first colon. -/
theorem append_colon_inj {l l' m m' : List UInt8} (hl : 58 ∉ l) (hl' : 58 ∉ l') (h : l ++ ([58] ++ m) = l' ++ 58 :: m') :
    l = l' := by
  induction l generalizing l' with
  | nil =>
    cases l' with
    | nil => rfl
    | cons y l' => exact absurd (List.cons.inj h).1 (fun he => hl' (he ▸ List.mem_cons_self))
  | cons x l ih =>
    cases l' with
    | nil => exact absurd (List.cons.inj h).1 (fun he => hl (he ▸ List.mem_cons_self))
    | cons y l' =>
      obtain ⟨he, ht⟩ := List.cons.inj h
      rw [he, ih (fun hm => hl (List.mem_cons_of_mem _ hm)) (fun hm => hl' (List.mem_cons_of_mem _ hm)) ht]

end OliveHc
