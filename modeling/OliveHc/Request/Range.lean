/-
What a `Range` header asks for and what a 206 sends of it
(`http_parse_get_range`, `request_get_write_response_206_header_mem`).

The parser reads both numbers in wrapping 64-bit arithmetic, and -1 stands
for a number that is not there. Both are right as long as the numbers are
numbers of 63 bits.
-/
import OliveHc.Request

namespace OliveHc

/-- The decimal number of a run of digits, if there is one. -/
def numberOf (ds : List UInt8) : Option Nat := if ds = [] then none else some (decimal ds)

/-- The two runs of digits of a range, behind `bytes=`. -/
def rangeDigits (l : List UInt8) : List UInt8 × List UInt8 :=
  let ds := (l.drop 6).takeWhile isDigit
  (ds, (((l.drop 6).drop ds.length).drop 1).takeWhile isDigit)

/-- The numbers of a range, of whatever length: `first-last`, `first-` or
`-n`. -/
def rangeFirst (l : List UInt8) : Option Nat := numberOf (rangeDigits l).1
def rangeLast (l : List UInt8) : Option Nat := numberOf (rangeDigits l).2

/-- The first and the last byte that HTTP prescribes for a range of a body of
`n` bytes; none if the range does not meet the body. -/
def prescribedRange (n : Nat) : Option Nat → Option Nat → Option (Nat × Nat)
  | some a, some b => if a < n then some (a, min b (n - 1)) else none
  | some a, none => if a < n then some (a, n - 1) else none
  | none, some k => if 0 < k ∧ 0 < n then some (n - min k n, n - 1) else none
  | none, none => none

/-- The answer to a range request is right: for a range that meets the body
its prescribed part is sent, for any other the code is 416. -/
def RangeRight (l : List UInt8) (item : ItemView) : Prop :=
  ∀ (env : ParseEnv) (p len : Nat) (r r' : Request) (c c' : Conn) (send page : Bool),
    httpParseGetRange env l p len r = (.ok, r') → r.rangeSet = false → r'.rangeSet = true →
    c.r = { r' with httpCode := 206 } → c.header206 send page item = some c' →
    match prescribedRange (Conn.bodyLen item).toNat (rangeFirst l) (rangeLast l) with
    | some (a, b) => c'.r.httpCode = 206 ∧ c'.r.rangeStart = a ∧ c'.r.rangeEnd = b ∧ a ≤ b ∧ b < Conn.bodyLen item
    | none => c'.r.httpCode = 416

/-! ## Reading the numbers -/

theorem le_foldl_decimal (ds : List UInt8) (a : Nat) : a ≤ ds.foldl (fun a d => a * 10 + (d.toNat - 48)) a := by
  induction ds generalizing a with
  | nil => exact Nat.le_refl a
  | cons d ds ih =>
    have := ih (a * 10 + (d.toNat - 48))
    rw [List.foldl_cons]
    omega

/-- No wrap while the number is below 2^63. -/
theorem foldl_rangeNumber {ds : List UInt8} (hd : ∀ d ∈ ds, isDigit d) (a : Nat)
    (h : ds.foldl (fun a d => a * 10 + (d.toNat - 48)) a < 2 ^ 63) :
    ds.foldl (fun (a : Int) d => toI64 (a * 10 + d.toNat - 48)) a =
      (ds.foldl (fun a d => a * 10 + (d.toNat - 48)) a : Nat) := by
  induction ds generalizing a with
  | nil => rfl
  | cons d ds ih =>
    rw [List.foldl_cons] at h ⊢
    have hle := le_foldl_decimal ds (a * 10 + (d.toNat - 48))
    have hdigit : 48 ≤ d.toNat := by
      have := hd d (by simp)
      simp only [isDigit, Bool.and_eq_true, decide_eq_true_eq, UInt8.le_iff_toNat_le] at this
      exact this.1
    have hstep : toI64 ((a : Int) * 10 + d.toNat - 48) = (a * 10 + (d.toNat - 48) : Nat) := by
      rw [toI64_of_lt] <;> omega
    rw [hstep, ih (fun d hd' => hd d (by simp [hd'])) _ h, List.foldl_cons]

theorem isDigit_of_mem_takeWhile {l : List UInt8} : ∀ d ∈ l.takeWhile isDigit, isDigit d := fun _ hd =>
  List.mem_takeWhile_imp hd

/-- What the parser makes of a number that does not wrap. -/
theorem rangeNumber_eq {l : List UInt8} (h : ∀ n ∈ numberOf (l.takeWhile isDigit), n < 2 ^ 63) :
    rangeNumber (l.takeWhile isDigit) = match numberOf (l.takeWhile isDigit) with
      | none => -1
      | some n => (n : Int) := by
  unfold rangeNumber
  by_cases hnil : l.takeWhile isDigit = []
  · rw [if_pos hnil, numberOf, if_pos hnil]
    rfl
  · have hn : numberOf (l.takeWhile isDigit) = some (decimal (l.takeWhile isDigit)) := if_neg hnil
    rw [if_neg hnil, hn]
    exact foldl_rangeNumber isDigit_of_mem_takeWhile 0 (h _ hn)

/-- What an accepted range leaves in the request. -/
theorem httpParseGetRange_ok {env : ParseEnv} {l : List UInt8} {p len : Nat} {r r' : Request}
    (h : httpParseGetRange env l p len r = (.ok, r')) (h0 : r.rangeSet = false) (hset : r'.rangeSet = true) :
    r'.rangeStart = rangeNumber (rangeDigits l).1 ∧ r'.rangeEnd = rangeNumber (rangeDigits l).2 ∧
      ¬(r'.rangeStart = -1 ∧ r'.rangeEnd = -1) ∧ ¬(r'.rangeStart ≠ -1 ∧ r'.rangeEnd ≠ -1 ∧ r'.rangeStart > r'.rangeEnd) := by
  unfold httpParseGetRange at h
  simp only at h
  split at h
  · cases h
  split at h
  · cases h
  split at h
  · cases h
  next hset' =>
  split at h
  · cases h
  next hle =>
  split at h
  · cases h
    rw [h0] at hset
    cases hset
  split at h
  · cases h
  · cases h
    exact ⟨rfl, rfl, hset', hle⟩

/-! ## The answer -/

theorem requestFinalize_r {send : Bool} {c c' : Conn} (h : c.requestFinalize send = some c') :
    ∃ e, c'.r = { c.r with errorReason := e } := by
  unfold Conn.requestFinalize at h
  split at h
  · obtain ⟨page, -, rfl⟩ := Option.map_eq_some_iff.mp h
    split
    · exact ⟨_, rfl⟩
    · exact ⟨_, rfl⟩
  · cases h
    exact ⟨_, rfl⟩

theorem header206_range {send page : Bool} {item : ItemView} {c c' : Conn} (h : c.header206 send page item = some c') :
    let r := Conn.resolveRange (Conn.bodyLen item) c.r
    c'.r.rangeStart = r.rangeStart ∧ c'.r.rangeEnd = r.rangeEnd ∧
      c'.r.httpCode = if r.rangeStart ≥ Conn.bodyLen item then 416 else c.r.httpCode := by
  obtain ⟨s, e, he⟩ := resolveRange_eq (Conn.bodyLen item) c.r
  simp only [Conn.header206, he] at h ⊢
  split at h
  · next hge =>
    obtain ⟨x, hx⟩ := requestFinalize_r h
    rw [hx, if_pos hge]
    exact ⟨rfl, rfl, rfl⟩
  next hlt =>
  rw [if_neg hlt]
  split at h
  · cases h
    exact ⟨rfl, rfl, rfl⟩
  · obtain ⟨x, hx⟩ := requestFinalize_r h
    rw [hx]
    exact ⟨rfl, rfl, rfl⟩

/-- The resolved range of numbers that were read right. -/
theorem resolveRange_prescribed {n : Nat} (hn : n < 2 ^ 32) (first last : Option Nat) {r : Request}
    (hfirst : r.rangeStart = match first with | none => -1 | some a => (a : Int))
    (hlast : r.rangeEnd = match last with | none => -1 | some b => (b : Int))
    (hset : ¬(r.rangeStart = -1 ∧ r.rangeEnd = -1))
    (hle : ¬(r.rangeStart ≠ -1 ∧ r.rangeEnd ≠ -1 ∧ r.rangeStart > r.rangeEnd)) :
    match prescribedRange n first last with
    | some (a, b) => (Conn.resolveRange n r).rangeStart = a ∧ (Conn.resolveRange n r).rangeEnd = b ∧ a ≤ b ∧ b < n
    | none => (Conn.resolveRange n r).rangeStart ≥ n := by
  cases first with
  | none =>
    cases last with
    | none => exact absurd ⟨hfirst, hlast⟩ hset
    | some k =>
      simp only at hfirst hlast
      simp only [prescribedRange, Conn.resolveRange, hfirst, hlast, rangeNoSet, if_true]
      by_cases hk : (k : Int) > n
      · rw [if_pos hk]
        split
        · next hsome => simp only [Option.ite_none_right_eq_some, Option.some.injEq, Prod.mk.injEq] at hsome; omega
        · next hnone => simp only [ite_eq_right_iff, reduceCtorEq, imp_false] at hnone; omega
      · rw [if_neg hk, toI64_of_lt (by omega) (by omega)]
        split
        · next hsome => simp only [Option.ite_none_right_eq_some, Option.some.injEq, Prod.mk.injEq] at hsome; omega
        · next hnone => simp only [ite_eq_right_iff, reduceCtorEq, imp_false] at hnone; omega
  | some a =>
    cases last with
    | none =>
      simp only at hfirst hlast
      have ha : ¬(a : Int) = -1 := by omega
      simp only [prescribedRange, Conn.resolveRange, hfirst, hlast, rangeNoSet, if_neg ha, if_true]
      split
      · next hsome => simp only [Option.ite_none_right_eq_some, Option.some.injEq, Prod.mk.injEq] at hsome; omega
      · next hnone => simp only [ite_eq_right_iff, reduceCtorEq, imp_false] at hnone; omega
    | some b =>
      simp only at hfirst hlast
      have ha : ¬(a : Int) = -1 := by omega
      have hb : ¬(b : Int) = -1 := by omega
      rw [hfirst, hlast] at hle
      simp only [prescribedRange, Conn.resolveRange, hfirst, hlast, rangeNoSet, if_neg ha, if_neg hb]
      split
      · next hsome =>
        simp only [Option.ite_none_right_eq_some, Option.some.injEq, Prod.mk.injEq] at hsome
        split <;> simp only [hfirst, hlast] <;> omega
      · next hnone =>
        simp only [ite_eq_right_iff, reduceCtorEq, imp_false] at hnone
        split <;> simp only [hfirst] <;> omega

theorem bodyLen_lt (item : ItemView) : 0 ≤ Conn.bodyLen item ∧ Conn.bodyLen item < 2 ^ 32 := by
  unfold Conn.bodyLen
  omega

/-- Numbers that do not wrap are answered right. -/
theorem rangeRight_of_lt {l : List UInt8} {item : ItemView} (hfirst : ∀ n ∈ rangeFirst l, n < 2 ^ 63)
    (hlast : ∀ n ∈ rangeLast l, n < 2 ^ 63) : RangeRight l item := by
  intro env p len r r' c c' send page hparse h0 hset hr hc
  obtain ⟨hstart, hend, hsome, hle⟩ := httpParseGetRange_ok hparse h0 hset
  obtain ⟨hlo, hhi⟩ := bodyLen_lt item
  obtain ⟨n, hn⟩ := Int.eq_ofNat_of_zero_le hlo
  have hres := resolveRange_prescribed (n := n) (by omega) (rangeFirst l) (rangeLast l) (hstart.trans (rangeNumber_eq hfirst))
    (hend.trans (rangeNumber_eq hlast)) hsome hle
  obtain ⟨h1, h2, h3⟩ := header206_range hc
  rw [hn] at h1 h2 h3 ⊢
  rw [Int.toNat_natCast]
  have hsame : (Conn.resolveRange n c.r).rangeStart = (Conn.resolveRange n r').rangeStart ∧
      (Conn.resolveRange n c.r).rangeEnd = (Conn.resolveRange n r').rangeEnd := by
    rw [hr]
    unfold Conn.resolveRange
    split_ifs <;> exact ⟨rfl, rfl⟩
  rw [hsame.1] at h1 h3
  rw [hsame.2] at h2
  rw [show c.r.httpCode = 206 by rw [hr]] at h3
  cases hp : prescribedRange n (rangeFirst l) (rangeLast l) with
  | none =>
    rw [hp] at hres
    rw [h3, if_pos hres]
  | some ab =>
    rw [hp] at hres
    obtain ⟨ha, hb, hab, hbn⟩ := hres
    refine ⟨?_, h1.trans ha, h2.trans hb, hab, by exact_mod_cast hbn⟩
    rw [h3, if_neg]
    simp only [ha, ge_iff_le, Nat.cast_le, not_le]
    omega

/-- A range that is read as a negative start is sent as a 206. -/
theorem not_rangeRight (l : List UInt8) (item : ItemView) {start : Int} (hneg : start < 0) (h1 : start ≠ -1)
    (hstart : rangeNumber (rangeDigits l).1 = start) (hend : rangeNumber (rangeDigits l).2 = -1)
    (hok : (httpParseGetRange ⟨0, 0, fun _ => -1⟩ l 0 0 (Conn.accepted []).r).1 = .ok ∧
      (httpParseGetRange ⟨0, 0, fun _ => -1⟩ l 0 0 (Conn.accepted []).r).2.rangeSet = true) : ¬RangeRight l item := by
  intro h
  obtain ⟨hok, hset⟩ := hok
  generalize hx : httpParseGetRange ⟨0, 0, fun _ => -1⟩ l 0 0 (Conn.accepted []).r = x at hok hset
  obtain ⟨rc, r'⟩ := x
  simp only at hok hset
  subst hok
  obtain ⟨hs, he, -, -⟩ := httpParseGetRange_ok hx rfl hset
  obtain ⟨hlo, -⟩ := bodyLen_lt item
  have hres : Conn.resolveRange (Conn.bodyLen item) { r' with httpCode := 206 } =
      { r' with httpCode := 206, rangeEnd := Conn.bodyLen item - 1 } := by
    simp only [Conn.resolveRange, hs, he, hstart, hend, rangeNoSet]
    rw [if_neg h1, if_pos trivial]
  have hlt : ¬r'.rangeStart ≥ Conn.bodyLen item := by
    rw [hs, hstart]
    omega
  have := h _ 0 0 _ r' { Conn.accepted [] with r := { r' with httpCode := 206 } } _ true true hx rfl hset rfl
    (by simp only [Conn.header206, hres]; rw [if_neg hlt, if_pos trivial])
  split at this
  · obtain ⟨-, ha, -⟩ := this
    simp only [hs, hstart] at ha
    omega
  · cases this

/-- **Ranges.** The ranges with numbers up to a bound are all answered right,
for every body, exactly when the bound is below 2^63. -/
theorem range_right_iff (bound : Nat) : (∀ (l : List UInt8) (item : ItemView), (∀ n ∈ rangeFirst l, n ≤ bound) →
    (∀ n ∈ rangeLast l, n ≤ bound) → RangeRight l item) ↔ bound < 2 ^ 63 := by
  constructor
  · intro h
    by_contra hb
    have hneg : rangeNumber (rangeDigits (lit "bytes=9223372036854775808-\r")).1 = -9223372036854775808 := by decide +kernel
    refine not_rangeRight (lit "bytes=9223372036854775808-\r") ⟨60, 40⟩ (by decide) (by decide) hneg (by decide +kernel)
      (by decide +kernel) (h _ _ (fun n hn => ?_) fun n hn => ?_)
    · have hfirst : rangeFirst (lit "bytes=9223372036854775808-\r") = some 9223372036854775808 := by decide +kernel
      rw [hfirst] at hn
      cases hn
      omega
    · have hlast : rangeLast (lit "bytes=9223372036854775808-\r") = none := by decide +kernel
      rw [hlast] at hn
      cases hn
  · intro hb l item hfirst hlast
    exact rangeRight_of_lt (fun n hn => (hfirst n hn).trans_lt hb) fun n hn => (hlast n hn).trans_lt hb

/-- `2^64 - 6` is read as -6: a range that no body meets is answered with the
last six bytes of the item's head in front of its body. -/
theorem range_right_wraps : ¬RangeRight (lit "bytes=18446744073709551610-\r") ⟨60, 40⟩ ∧
    prescribedRange 20 (rangeFirst (lit "bytes=18446744073709551610-\r")) (rangeLast (lit "bytes=18446744073709551610-\r")) =
      none := by
  have hneg : rangeNumber (rangeDigits (lit "bytes=18446744073709551610-\r")).1 = -6 := by decide +kernel
  exact ⟨not_rangeRight _ _ (by decide) (by decide) hneg (by decide +kernel) (by decide +kernel), by decide +kernel⟩

end OliveHc
