/-
Little-endian numbers, and byte images that are read and written in pieces.

A number is laid out in a given count of bytes, the low one first, and read
back modulo 256 to that count. An image is a byte for every position; a
write replaces a run of them.
-/
import Mathlib.Algebra.Order.Ring.Nat
import Mathlib.Tactic

namespace OliveHc

/-! ## Numbers -/

/-- The low `n` bytes of a number. -/
def leBytes : Nat → Nat → List UInt8
  | 0, _ => []
  | n + 1, v => UInt8.ofNat (v % 256) :: leBytes n (v / 256)

def leNat : List UInt8 → Nat
  | [] => 0
  | b :: l => b.toNat + 256 * leNat l

@[simp] theorem length_leBytes (n v : Nat) : (leBytes n v).length = n := by
  induction n generalizing v with
  | zero => rfl
  | succ n ih => simp [leBytes, ih]

theorem leNat_leBytes (n v : Nat) : leNat (leBytes n v) = v % 256 ^ n := by
  induction n generalizing v with
  | zero => simp [leBytes, leNat, Nat.mod_one]
  | succ n ih =>
    have hb : (UInt8.ofNat (v % 256)).toNat = v % 256 := by
      rw [UInt8.toNat_ofNat']
      omega
    rw [leBytes, leNat, ih, hb, Nat.pow_succ', Nat.mod_mul]

theorem leNat_leBytes_of_lt {n v : Nat} (h : v < 256 ^ n) : leNat (leBytes n v) = v := by
  rw [leNat_leBytes, Nat.mod_eq_of_lt h]

theorem leNat_lt (l : List UInt8) : leNat l < 256 ^ l.length := by
  induction l with
  | nil => simp [leNat]
  | cons b l ih =>
    have hb := b.toNat_lt
    rw [leNat, List.length_cons, Nat.pow_succ]
    omega

/-- A signed number of `n` bytes. -/
def leInt (l : List UInt8) : Int := (leNat l : Int).bmod (256 ^ l.length)

theorem leInt_leBytes (n : Nat) (v : Int) : leInt (leBytes n (v % (256 ^ n : Nat)).toNat) = v.bmod (256 ^ n) := by
  have hpos : (0 : Int) < (256 ^ n : Nat) := by positivity
  have hnn := Int.emod_nonneg v hpos.ne'
  have hlt := Int.emod_lt_of_pos v hpos
  rw [leInt, leNat_leBytes_of_lt (by omega), length_leBytes, Int.toNat_of_nonneg hnn, Int.emod_bmod]

theorem drop_leBytes_append {n v k : Nat} {l : List UInt8} (h : n ≤ k) : (leBytes n v ++ l).drop k = l.drop (k - n) := by
  rw [List.drop_append, length_leBytes, List.drop_eq_nil_of_le (by simpa using h), List.nil_append]

theorem take_leBytes_append (n v : Nat) (l : List UInt8) : (leBytes n v ++ l).take n = leBytes n v :=
  List.take_left' (length_leBytes n v)

/-- A piece of pieces that all have the same length. -/
theorem take_drop_flatMap {α : Type} {f : α → List UInt8} {k : Nat} {l : List α} (hf : ∀ x ∈ l, (f x).length = k)
    {i : Nat} (hi : i < l.length) : ((l.flatMap f).drop (i * k)).take k = f l[i] := by
  induction l generalizing i with
  | nil => cases hi
  | cons x l ih =>
    have hx := hf x List.mem_cons_self
    rw [List.flatMap_cons]
    cases i with
    | zero => rw [Nat.zero_mul, List.drop_zero, List.take_left' hx, List.getElem_cons_zero]
    | succ i =>
      rw [List.drop_append, hx, List.drop_eq_nil_of_le (by rw [hx, Nat.succ_mul]; omega), List.nil_append, Nat.succ_mul,
        Nat.add_sub_cancel, List.getElem_cons_succ]
      exact ih (fun y hy => hf y (List.mem_cons_of_mem x hy)) (Nat.lt_of_succ_lt_succ hi)

theorem length_flatMap_chunks {α : Type} {f : α → List UInt8} {k : Nat} {l : List α} (hf : ∀ x ∈ l, (f x).length = k) :
    (l.flatMap f).length = l.length * k := by
  rw [List.length_flatMap, List.map_congr_left hf]
  simp

/-! ## Images -/

/-- The `n` bytes from a position on. -/
def imageRead (image : Nat → UInt8) (pos n : Nat) : List UInt8 := (List.range' pos n).map image

def imageWrite (pos : Nat) (bytes : List UInt8) (image : Nat → UInt8) : Nat → UInt8 := fun i =>
  if pos ≤ i then (bytes[i - pos]?).getD (image i) else image i

@[simp] theorem length_imageRead (image : Nat → UInt8) (pos n : Nat) : (imageRead image pos n).length = n := by
  simp [imageRead]

theorem imageWrite_of_outside {pos i : Nat} {bytes : List UInt8} {image : Nat → UInt8}
    (h : i < pos ∨ pos + bytes.length ≤ i) : imageWrite pos bytes image i = image i := by
  unfold imageWrite
  split
  · rw [List.getElem?_eq_none (by omega), Option.getD_none]
  · rfl

theorem imageRead_congr {image image' : Nat → UInt8} {pos n : Nat} (h : ∀ i, pos ≤ i → i < pos + n → image' i = image i) :
    imageRead image' pos n = imageRead image pos n :=
  List.map_congr_left fun i hi => h i (List.mem_range'_1.mp hi).1 (List.mem_range'_1.mp hi).2

/-- A read sees the write it is inside of. -/
theorem imageRead_imageWrite {pos off n : Nat} {bytes : List UInt8} (image : Nat → UInt8) (h : off + n ≤ bytes.length) :
    imageRead (imageWrite pos bytes image) (pos + off) n = (bytes.drop off).take n := by
  refine List.ext_getElem (by simp; omega) fun i h1 _ => ?_
  rw [length_imageRead] at h1
  have hi : off + i < bytes.length := by omega
  simp only [imageRead, List.getElem_map, List.getElem_range', List.getElem_take, List.getElem_drop, imageWrite]
  rw [if_pos (by omega), show pos + off + 1 * i - pos = off + i by omega, List.getElem?_eq_getElem hi, Option.getD_some]

theorem imageRead_imageWrite_all {pos n : Nat} {bytes : List UInt8} (image : Nat → UInt8) (h : n = bytes.length) :
    imageRead (imageWrite pos bytes image) pos n = bytes := by
  have hread : imageRead (imageWrite pos bytes image) (pos + 0) n = (bytes.drop 0).take n :=
    imageRead_imageWrite image (by omega)
  rwa [Nat.add_zero, List.drop_zero, List.take_of_length_le (by omega)] at hread

/-- A read beside a write. -/
theorem imageRead_of_outside {pos off n : Nat} {bytes : List UInt8} (image : Nat → UInt8)
    (h : off + n ≤ pos ∨ pos + bytes.length ≤ off) :
    imageRead (imageWrite pos bytes image) off n = imageRead image off n :=
  imageRead_congr fun i h1 h2 => imageWrite_of_outside (by omega)

theorem imageRead_add (image : Nat → UInt8) (pos n k : Nat) :
    imageRead image pos (n + k) = imageRead image pos n ++ imageRead image (pos + n) k := by
  rw [imageRead, ← List.range'_append, List.map_append, Nat.one_mul]
  rfl

/-! ## Checksums -/

/-- The exclusive or of some words. -/
def xorAll (l : List UInt64) : UInt64 := l.foldr (· ^^^ ·) 0

@[simp] theorem xorAll_nil : xorAll [] = 0 := rfl

@[simp] theorem xorAll_cons (x : UInt64) (l : List UInt64) : xorAll (x :: l) = x ^^^ xorAll l := rfl

theorem xorAll_append (l l' : List UInt64) : xorAll (l ++ l') = xorAll l ^^^ xorAll l' := by
  induction l with
  | nil => simp
  | cons x l ih => simp [ih, UInt64.xor_assoc]

/-- The words of whole groups of eight bytes. -/
def wordsOf : List UInt8 → List UInt64
  | b₀ :: b₁ :: b₂ :: b₃ :: b₄ :: b₅ :: b₆ :: b₇ :: l =>
    UInt64.ofNat (leNat [b₀, b₁, b₂, b₃, b₄, b₅, b₆, b₇]) :: wordsOf l
  | _ => []

theorem wordsOf_append {l : List UInt8} (l' : List UInt8) (h : 8 ∣ l.length) : wordsOf (l ++ l') = wordsOf l ++ wordsOf l' := by
  induction l using wordsOf.induct with
  | case1 b₀ b₁ b₂ b₃ b₄ b₅ b₆ b₇ l ih =>
    have hl : 8 ∣ l.length := by
      simp only [List.length_cons] at h
      omega
    simp only [List.cons_append, wordsOf, ih hl]
  | case2 l hne =>
    have hnil : l = [] := by
      rcases l with _ | ⟨a, _ | ⟨b, _ | ⟨c, _ | ⟨d, _ | ⟨e, _ | ⟨f, _ | ⟨g, _ | ⟨i, l⟩⟩⟩⟩⟩⟩⟩⟩
      all_goals first | rfl | (simp only [List.length_cons, List.length_nil] at h; omega) |
        exact absurd rfl (hne _ _ _ _ _ _ _ _ _)
    simp [hnil, wordsOf]

theorem wordsOf_eight {l : List UInt8} (h : l.length = 8) : wordsOf l = [UInt64.ofNat (leNat l)] := by
  rcases l with _ | ⟨a, _ | ⟨b, _ | ⟨c, _ | ⟨d, _ | ⟨e, _ | ⟨f, _ | ⟨g, _ | ⟨i, _ | ⟨j, l⟩⟩⟩⟩⟩⟩⟩⟩⟩
  all_goals first | (simp only [List.length_cons, List.length_nil] at h; omega) | simp only [wordsOf]

end OliveHc
