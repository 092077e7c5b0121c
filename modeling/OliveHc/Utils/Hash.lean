/-
The linear hash table (`utils/hash.c`) refines a finite map.

The table doubles without stopping: an expansion keeps the old chains as
`prev_buckets` and every later `hash_get` and `hash_add` moves one of them,
the one at `split`, to the new array. So at any moment a node is reached
through one of two index functions, and `HashRep` says which: the new one
for what was moved or added since, the old one for the chains from `split`
on. MD5 is any function to ids, and each expansion's `calloc` may fail.
-/
import OliveHc.Lib.System
import Mathlib.Data.List.Nodup
import Mathlib.Data.Nat.Bitwise
import Mathlib.Tactic

namespace OliveHc

/-- A 16-byte id, as the two words `md5_equal` and `hash_index` read it. -/
abbrev HashId := UInt64 × UInt64

/-- An `ohc_hash_node_t`: its id, and the object it is embedded in. -/
structure HashNode (α : Type) where
  id : HashId
  node : α
deriving DecidableEq

def hashBucketSizeBegin : Nat := 2 ^ 4
def hashBucketSizeMax : Nat := 2 ^ 28
def hashCollisions : Int := 10

/-- `struct ohc_hash_s`. A chain is the list of its nodes from `first` on;
only the chains below `bucketSize` (`bucketSize / 2` for `prevBuckets`) are
in the arrays. -/
structure Hash (α : Type) where
  buckets : Nat → List (HashNode α)
  bucketSize : Nat
  items : Int
  prevBuckets : Option (Nat → List (HashNode α))
  split : Nat

variable {α : Type}

def hashIndex (bucketSize : Nat) (id : HashId) : Nat :=
  (id.1 ^^^ id.2).toNat &&& (bucketSize - 1)

def hashInit (mallocOk callocOk : Bool) : Option (Hash α) :=
  if mallocOk && callocOk then
    some { buckets := fun _ => [], bucketSize := hashBucketSizeBegin, items := 0, prevBuckets := none, split := 0 }
  else none

def hlistAddHead (b : Nat → List (HashNode α)) (i : Nat) (n : HashNode α) : Nat → List (HashNode α) :=
  Function.update b i (n :: b i)

/-- The second half of `hash_expansion`: move the chain at `split`. -/
def hashSplit (h : Hash α) : Hash α :=
  match h.prevBuckets with
  | none => h
  | some prev =>
    { h with
      buckets := (prev h.split).foldl (fun b n => hlistAddHead b (hashIndex h.bucketSize n.id) n) h.buckets
      prevBuckets :=
        if h.split + 1 = h.bucketSize / 2 then none else some (Function.update prev h.split [])
      split := h.split + 1 }

def hashExpansion (callocOk : Bool) (h : Hash α) : Hash α :=
  if h.items.tdiv h.bucketSize ≥ hashCollisions ∧ h.prevBuckets.isNone ∧ h.bucketSize < hashBucketSizeMax then
    if callocOk then
      hashSplit { h with
        bucketSize := h.bucketSize * 2
        prevBuckets := some h.buckets
        buckets := fun _ => []
        split := 0 }
    else h
  else hashSplit h

/-- `hash_add` of a node whose id is set (every caller passes a NULL `str`). -/
def hashAdd (callocOk : Bool) (h : Hash α) (n : HashNode α) : Hash α :=
  hashExpansion callocOk { h with
    buckets := hlistAddHead h.buckets (hashIndex h.bucketSize n.id) n
    items := h.items + 1 }

def hashSearch (slot : List (HashNode α)) (id : HashId) : Option (HashNode α) :=
  slot.find? fun n => n.id == id

/-- `hash_get`: the node found, and the table after its expansion step. -/
def hashGet (md5 : List UInt8 → HashId) (callocOk : Bool) (h : Hash α) (str : List UInt8) :
    Option (HashNode α) × Hash α :=
  let h := hashExpansion callocOk h
  let id := md5 str
  let index := hashIndex h.bucketSize id
  match hashSearch (h.buckets index) id with
  | some n => (some n, h)
  | none =>
    match h.prevBuckets with
    | some prev =>
      let pbsize := h.bucketSize / 2
      (hashSearch (prev (if index ≥ pbsize then index - pbsize else index)) id, h)
    | none => (none, h)

variable [DecidableEq α]

/-- `hash_del` unlinks the node from whichever chain it is in. -/
def hashDel (h : Hash α) (n : HashNode α) : Hash α :=
  { h with
    buckets := fun i => (h.buckets i).filter (· ≠ n)
    prevBuckets := h.prevBuckets.map fun prev i => (prev i).filter (· ≠ n)
    items := h.items - 1 }

/-! ## Which chain a node is in -/

/-- The table `h` holds exactly the nodes `l`. -/
structure HashHolds (h : Hash α) (l : List (HashNode α)) : Prop where
  nodup : l.Nodup
  size : ∃ k, 4 ≤ k ∧ k ≤ 28 ∧ h.bucketSize = 2 ^ k
  items : h.items = l.length
  split : h.prevBuckets.isSome → h.split < h.bucketSize / 2
  cur : ∀ i n, n ∈ h.buckets i → n ∈ l ∧ hashIndex h.bucketSize n.id = i
  prev : ∀ p, h.prevBuckets = some p → ∀ i n, n ∈ p i →
    n ∈ l ∧ hashIndex h.bucketSize n.id % (h.bucketSize / 2) = i ∧ h.split ≤ i
  cover : ∀ n ∈ l, n ∈ h.buckets (hashIndex h.bucketSize n.id) ∨
    ∃ p, h.prevBuckets = some p ∧ n ∈ p (hashIndex h.bucketSize n.id % (h.bucketSize / 2))
  apart : ∀ p, h.prevBuckets = some p → ∀ i j n, n ∈ h.buckets i → n ∉ p j
  nodupCur : ∀ i, (h.buckets i).Nodup
  nodupPrev : ∀ p, h.prevBuckets = some p → ∀ i, (p i).Nodup

omit [DecidableEq α] in
/-- In whatever order the nodes are listed. -/
theorem HashHolds.congr {h : Hash α} {l l' : List (HashNode α)} (hr : HashHolds h l) (hnd : l'.Nodup)
    (hmem : ∀ n, n ∈ l' ↔ n ∈ l) : HashHolds h l' where
  nodup := hnd
  size := hr.size
  items := by
    rw [hr.items, ((List.perm_ext_iff_of_nodup hnd hr.nodup).mpr hmem).length_eq]
  split := hr.split
  cur i n hn := ⟨(hmem n).mpr (hr.cur i n hn).1, (hr.cur i n hn).2⟩
  prev p hp i n hn := ⟨(hmem n).mpr (hr.prev p hp i n hn).1, (hr.prev p hp i n hn).2⟩
  cover n hn := hr.cover n ((hmem n).mp hn)
  apart := hr.apart
  nodupCur := hr.nodupCur
  nodupPrev := hr.nodupPrev

/-- The table `h` holds exactly the nodes `l`, with distinct ids. -/
structure HashRep (h : Hash α) (l : List (HashNode α)) : Prop extends HashHolds h l where
  ids : (l.map (·.id)).Nodup

omit [DecidableEq α] in
theorem hashIndex_eq_mod {k : Nat} (id : HashId) : hashIndex (2 ^ k) id = (id.1 ^^^ id.2).toNat % 2 ^ k :=
  Nat.and_two_pow_sub_one_eq_mod _ _

omit [DecidableEq α] in
theorem hashIndex_lt {b : Nat} (h : ∃ k, 4 ≤ k ∧ k ≤ 28 ∧ b = 2 ^ k) (id : HashId) : hashIndex b id < b := by
  obtain ⟨k, -, -, rfl⟩ := h
  rw [hashIndex_eq_mod]
  exact Nat.mod_lt _ (Nat.two_pow_pos k)

omit [DecidableEq α] in
/-- After a doubling, a node's old chain is its new index modulo the old size. -/
theorem hashIndex_double {k : Nat} (id : HashId) :
    hashIndex (2 ^ k * 2) id % (2 ^ k * 2 / 2) = hashIndex (2 ^ k) id := by
  rw [← pow_succ, hashIndex_eq_mod, hashIndex_eq_mod, pow_succ, Nat.mul_div_cancel _ (by norm_num)]
  exact Nat.mod_mul_right_mod _ _ _

omit [DecidableEq α] in
theorem mem_hlistAddHead {b : Nat → List (HashNode α)} {i j : Nat} {m n : HashNode α} :
    m ∈ hlistAddHead b i n j ↔ (j = i ∧ m = n) ∨ m ∈ b j := by
  by_cases h : j = i
  · subst h; simp [hlistAddHead]
  · simp [hlistAddHead, h]

omit [DecidableEq α] in
/-- Moving a chain adds its nodes to the chains of their own indices. -/
theorem mem_foldl_addHead {idx : HashNode α → Nat} (c : List (HashNode α)) (b : Nat → List (HashNode α)) (j : Nat)
    (m : HashNode α) :
    m ∈ c.foldl (fun b n => hlistAddHead b (idx n) n) b j ↔ (m ∈ c ∧ idx m = j) ∨ m ∈ b j := by
  induction c generalizing b with
  | nil => simp
  | cons n c ih =>
    rw [List.foldl_cons, ih, mem_hlistAddHead, List.mem_cons]
    constructor
    · rintro (⟨hm, hj⟩ | ⟨rfl, rfl⟩ | hb)
      · exact .inl ⟨.inr hm, hj⟩
      · exact .inl ⟨.inl rfl, rfl⟩
      · exact .inr hb
    · rintro (⟨rfl | hm, hj⟩ | hb)
      · exact .inr (.inl ⟨hj.symm, rfl⟩)
      · exact .inl ⟨hm, hj⟩
      · exact .inr (.inr hb)

omit [DecidableEq α] in
theorem nodup_foldl_addHead {idx : HashNode α → Nat} (c : List (HashNode α)) (b : Nat → List (HashNode α))
    (hc : c.Nodup) (hb : ∀ j, (b j).Nodup) (hd : ∀ m ∈ c, ∀ j, m ∉ b j) (j : Nat) :
    (c.foldl (fun b n => hlistAddHead b (idx n) n) b j).Nodup := by
  induction c generalizing b with
  | nil => exact hb j
  | cons n c ih =>
    rw [List.nodup_cons] at hc
    refine ih _ hc.2 (fun j => ?_) fun m hm j hmem => ?_
    · by_cases h : j = idx n
      · subst h
        simp only [hlistAddHead, Function.update_self, List.nodup_cons]
        exact ⟨hd n (by simp) _, hb _⟩
      · simp only [hlistAddHead, Function.update_of_ne h]
        exact hb j
    · rcases mem_hlistAddHead.mp hmem with ⟨-, rfl⟩ | hmem
      · exact hc.1 hm
      · exact hd m (by simp [hm]) j hmem

/-! ## Each operation keeps the representation -/

omit [DecidableEq α] in
theorem HashHolds.hashSplit {h : Hash α} {l} (hr : HashHolds h l) : HashHolds (hashSplit h) l := by
  unfold OliveHc.hashSplit
  cases hp : h.prevBuckets with
  | none => exact hr
  | some prev =>
    have hlt : h.split < h.bucketSize / 2 := hr.split (by simp [hp])
    -- The chains still to move, whether or not this was the last one.
    have hrest : ∀ p, (if h.split + 1 = h.bucketSize / 2 then none else some (Function.update prev h.split [])) = some p →
        p = Function.update prev h.split [] := by
      intro p hq
      split at hq
      · cases hq
      · exact (Option.some.inj hq).symm
    have hmemRest : ∀ i n, n ∈ Function.update prev h.split [] i → i ≠ h.split ∧ n ∈ prev i := by
      intro i n hn
      by_cases hi : i = h.split
      · subst hi; simp at hn
      · rw [Function.update_of_ne hi] at hn; exact ⟨hi, hn⟩
    refine ⟨hr.nodup, hr.size, hr.items, fun hs => ?_, fun i n hn => ?_, fun p hq i n hn => ?_, fun n hn => ?_,
      fun p hq i j n hn hm => ?_, fun i => ?_, fun p hq i => ?_⟩
    · simp only at hs ⊢
      split at hs
      · simp at hs
      · omega
    · simp only [mem_foldl_addHead] at hn
      rcases hn with ⟨hn, hi⟩ | hn
      · exact ⟨(hr.prev prev hp _ n hn).1, hi⟩
      · exact hr.cur i n hn
    · obtain rfl := hrest p hq
      obtain ⟨hi, hn⟩ := hmemRest i n hn
      obtain ⟨h1, h2, h3⟩ := hr.prev prev hp i n hn
      exact ⟨h1, h2, by simp only; omega⟩
    · simp only [mem_foldl_addHead]
      rcases hr.cover n hn with hc | ⟨p, hq, hc⟩
      · exact .inl (.inr hc)
      · obtain rfl : prev = p := by rw [hp] at hq; exact Option.some.inj hq
        have hle := (hr.prev prev hp _ n hc).2.2
        rcases Nat.eq_or_lt_of_le hle with he | hgt
        · rw [← he] at hc
          exact .inl (.inl ⟨hc, trivial⟩)
        · have hidx : hashIndex h.bucketSize n.id % (h.bucketSize / 2) < h.bucketSize / 2 := Nat.mod_lt _ (by omega)
          refine .inr ⟨Function.update prev h.split [], if_neg (by omega), ?_⟩
          rw [Function.update_of_ne (by omega)]
          exact hc
    · obtain rfl := hrest p hq
      obtain ⟨hj, hm⟩ := hmemRest j n hm
      simp only [mem_foldl_addHead] at hn
      rcases hn with ⟨hn, -⟩ | hn
      · have h1 := (hr.prev prev hp _ n hn).2.1
        have h2 := (hr.prev prev hp _ n hm).2.1
        omega
      · exact hr.apart prev hp i j n hn hm
    · exact nodup_foldl_addHead _ _ (hr.nodupPrev prev hp _) hr.nodupCur
        (fun m hm j hmj => hr.apart prev hp j _ m hmj hm) i
    · obtain rfl := hrest p hq
      by_cases hi : i = h.split
      · subst hi; simp
      · rw [Function.update_of_ne hi]; exact hr.nodupPrev prev hp i

omit [DecidableEq α] in
theorem HashHolds.hashExpansion {h : Hash α} {l} (hr : HashHolds h l) (callocOk : Bool) :
    HashHolds (hashExpansion callocOk h) l := by
  unfold OliveHc.hashExpansion
  split
  · next hgrow =>
    obtain ⟨-, hnone, hmax⟩ := hgrow
    split
    · refine HashHolds.hashSplit ?_
      obtain ⟨k, hk4, hk28, hk⟩ := hr.size
      have hlt : k < 28 := by
        rw [hk, hashBucketSizeMax] at hmax
        exact (Nat.pow_lt_pow_iff_right (by norm_num)).mp hmax
      have hnone' : h.prevBuckets = none := by simpa using hnone
      refine ⟨hr.nodup, ⟨k + 1, by omega, by omega, by simp only [hk, pow_succ]⟩, hr.items, fun _ => ?_,
        fun i n hn => ?_, fun p hp i n hn => ?_, fun n hn => ?_, fun p hp i j n hn => ?_, fun i => ?_, fun p hp i => ?_⟩
      · simp only [hk]
        rw [Nat.mul_div_cancel _ (by norm_num)]
        exact Nat.two_pow_pos k
      · simp at hn
      · simp only [Option.some.injEq] at hp
        subst hp
        obtain ⟨h1, h2⟩ := hr.cur i n hn
        refine ⟨h1, ?_, Nat.zero_le _⟩
        simp only [hk, hashIndex_double]
        rw [← h2, hk]
      · refine .inr ⟨h.buckets, rfl, ?_⟩
        simp only [hk, hashIndex_double]
        rcases hr.cover n hn with hc | ⟨p, hp, -⟩
        · rwa [hk] at hc
        · rw [hnone'] at hp; cases hp
      · simp at hn
      · simp
      · simp only [Option.some.injEq] at hp
        subst hp
        exact hr.nodupCur i
    · exact hr
  · exact hr.hashSplit

omit [DecidableEq α] in
theorem HashHolds.hashAdd {h : Hash α} {l} (hr : HashHolds h l) (callocOk : Bool) {n : HashNode α} (hfresh : n ∉ l) :
    HashHolds (hashAdd callocOk h n) (n :: l) := by
  apply HashHolds.hashExpansion
  refine ⟨List.nodup_cons.mpr ⟨hfresh, hr.nodup⟩, hr.size, ?_, hr.split, fun i m hm => ?_, fun p hp i m hm => ?_,
    fun m hm => ?_, fun p hp i j m hm hmj => ?_, fun i => ?_, hr.nodupPrev⟩
  · simp [hr.items]
  · rcases mem_hlistAddHead.mp hm with ⟨rfl, rfl⟩ | hm
    · exact ⟨by simp, rfl⟩
    · obtain ⟨h1, h2⟩ := hr.cur i m hm
      exact ⟨by simp [h1], h2⟩
  · obtain ⟨h1, h2⟩ := hr.prev p hp i m hm
    exact ⟨by simp [h1], h2⟩
  · simp only [mem_hlistAddHead]
    rcases List.mem_cons.mp hm with rfl | hm
    · exact .inl (.inl ⟨rfl, rfl⟩)
    · rcases hr.cover m hm with hc | hc
      · exact .inl (.inr hc)
      · exact .inr hc
  · rcases mem_hlistAddHead.mp hm with ⟨-, rfl⟩ | hm
    · exact hfresh (hr.prev p hp j m hmj).1
    · exact hr.apart p hp i j m hm hmj
  · by_cases hi : i = hashIndex h.bucketSize n.id
    · subst hi
      simp only [hlistAddHead, Function.update_self, List.nodup_cons]
      exact ⟨fun hm => hfresh (hr.cur _ n hm).1, hr.nodupCur _⟩
    · simp only [hlistAddHead, Function.update_of_ne hi]
      exact hr.nodupCur i

omit [DecidableEq α] in
theorem HashRep.hashAdd {h : Hash α} {l} (hr : HashRep h l) (callocOk : Bool) {n : HashNode α}
    (hn : ∀ m ∈ l, m.id ≠ n.id) : HashRep (hashAdd callocOk h n) (n :: l) := by
  refine ⟨hr.toHashHolds.hashAdd callocOk fun hm => hn n hm rfl, ?_⟩
  rw [List.map_cons, List.nodup_cons]
  refine ⟨fun hmem => ?_, hr.ids⟩
  obtain ⟨m, hm, he⟩ := List.mem_map.mp hmem
  exact hn m hm he

theorem HashHolds.hashDel {h : Hash α} {l} (hr : HashHolds h l) {n : HashNode α} (hn : n ∈ l) :
    HashHolds (hashDel h n) (l.filter (· ≠ n)) := by
  refine ⟨hr.nodup.filter _, hr.size, ?_, ?_, fun i m hm => ?_, fun p hp i m hm => ?_, fun m hm => ?_, fun p hp i j m hm hmj => ?_,
    fun i => ?_, fun p hp i => ?_⟩
  · have he : l.filter (· ≠ n) = l.erase n := by
      rw [hr.nodup.erase_eq_filter]
      exact List.filter_congr fun x _ => by rw [Bool.eq_iff_iff]; simp
    rw [he, List.length_erase_of_mem hn]
    have := List.length_pos_of_mem hn
    simp only [OliveHc.hashDel, hr.items]
    omega
  · simp only [OliveHc.hashDel, Option.isSome_map]
    exact hr.split
  · simp only [OliveHc.hashDel, List.mem_filter] at hm ⊢
    obtain ⟨h1, h2⟩ := hr.cur i m hm.1
    exact ⟨⟨h1, hm.2⟩, h2⟩
  · simp only [OliveHc.hashDel, Option.map_eq_some_iff] at hp
    obtain ⟨p, hp, rfl⟩ := hp
    simp only [List.mem_filter] at hm ⊢
    obtain ⟨h1, h2⟩ := hr.prev p hp i m hm.1
    exact ⟨⟨h1, hm.2⟩, h2⟩
  · simp only [List.mem_filter] at hm
    simp only [OliveHc.hashDel, List.mem_filter, Option.map_eq_some_iff]
    rcases hr.cover m hm.1 with hc | ⟨p, hp, hc⟩
    · exact .inl ⟨hc, hm.2⟩
    · exact .inr ⟨_, ⟨p, hp, rfl⟩, List.mem_filter.mpr ⟨hc, hm.2⟩⟩
  · simp only [OliveHc.hashDel, Option.map_eq_some_iff] at hp
    obtain ⟨p, hp, rfl⟩ := hp
    exact hr.apart p hp i j m (List.mem_filter.mp hm).1 (List.mem_filter.mp hmj).1
  · exact (hr.nodupCur i).filter _
  · simp only [OliveHc.hashDel, Option.map_eq_some_iff] at hp
    obtain ⟨p, hp, rfl⟩ := hp
    exact (hr.nodupPrev p hp i).filter _

theorem HashRep.hashDel {h : Hash α} {l} (hr : HashRep h l) {n : HashNode α} (hn : n ∈ l) :
    HashRep (hashDel h n) (l.filter (· ≠ n)) :=
  ⟨hr.toHashHolds.hashDel hn, hr.ids.sublist ((List.filter_sublist).map _)⟩

omit [DecidableEq α] in
theorem hashInit_rep {h : Hash α} {mallocOk callocOk} (hi : hashInit mallocOk callocOk = some h) : HashRep h [] := by
  unfold hashInit at hi
  split at hi
  · cases hi
    refine ⟨⟨by simp, ⟨4, by norm_num, by norm_num, rfl⟩, rfl, ?_, ?_, ?_, ?_, ?_, ?_, ?_⟩, ?_⟩ <;> simp
  · cases hi

/-! ## Lookups -/

omit [DecidableEq α] in
/-- A search of a chain finds a node with the wanted id, if there is one. -/
theorem hashSearch_cases (slot : List (HashNode α)) (id : HashId) :
    (∃ n ∈ slot, n.id = id ∧ hashSearch slot id = some n) ∨ (∀ n ∈ slot, n.id ≠ id) ∧ hashSearch slot id = none := by
  cases hs : hashSearch slot id with
  | some n =>
    have hid := List.find?_some hs
    exact .inl ⟨n, List.mem_of_find?_eq_some hs, by simpa using hid, rfl⟩
  | none =>
    rw [hashSearch, List.find?_eq_none] at hs
    exact .inr ⟨fun n hn he => hs n hn (by simpa using he), rfl⟩

omit [DecidableEq α] in
/-- A lookup finds a node with the wanted id, whichever chain it is in. -/
theorem HashHolds.hashGet {h : Hash α} {l} (hr : HashHolds h l) (md5 : List UInt8 → HashId) (callocOk : Bool)
    (str : List UInt8) : HashHolds (hashGet md5 callocOk h str).2 l ∧
      ((∃ n ∈ l, n.id = md5 str ∧ (hashGet md5 callocOk h str).1 = some n) ∨
        (∀ n ∈ l, n.id ≠ md5 str) ∧ (hashGet md5 callocOk h str).1 = none) := by
  have hr' := hr.hashExpansion callocOk
  generalize hx : OliveHc.hashExpansion callocOk h = x at hr'
  generalize hid : md5 str = id
  simp only [OliveHc.hashGet, hx, hid]
  have hlt := hashIndex_lt hr'.size id
  -- The subtraction in the code is the index modulo the old size.
  have hmod : (if hashIndex x.bucketSize id ≥ x.bucketSize / 2 then hashIndex x.bucketSize id - x.bucketSize / 2
      else hashIndex x.bucketSize id) = hashIndex x.bucketSize id % (x.bucketSize / 2) := by
    obtain ⟨k, hk, -, he⟩ := hr'.size
    obtain ⟨j, rfl⟩ : ∃ j, k = j + 1 := ⟨k - 1, by omega⟩
    rw [he, pow_succ] at hlt ⊢
    rw [Nat.mul_div_cancel _ (by norm_num)]
    split
    · next hge => rw [Nat.mod_eq_sub_mod hge, Nat.mod_eq_of_lt (by omega)]
    · next hge => rw [Nat.mod_eq_of_lt (by omega)]
  rcases hashSearch_cases (x.buckets (hashIndex x.bucketSize id)) id with ⟨n, hn, hni, hs⟩ | ⟨hno, hs⟩
  · rw [hs]
    exact ⟨hr', .inl ⟨n, (hr'.cur _ n hn).1, hni, rfl⟩⟩
  · rw [hs]
    -- A node that is not in the current chain is in the old one.
    have hold : ∀ n ∈ l, n.id = id → ∃ p, x.prevBuckets = some p ∧ n ∈ p (hashIndex x.bucketSize id % (x.bucketSize / 2)) := by
      intro n hn he
      have hcover := hr'.cover n hn
      rw [he] at hcover
      exact hcover.resolve_left fun hc => hno n hc he
    cases hp : x.prevBuckets with
    | none =>
      refine ⟨hr', .inr ⟨fun n hn he => ?_, rfl⟩⟩
      obtain ⟨p, hq, -⟩ := hold n hn he
      rw [hp] at hq
      cases hq
    | some p =>
      simp only [hmod]
      rcases hashSearch_cases (p (hashIndex x.bucketSize id % (x.bucketSize / 2))) id with ⟨n, hn, hni, hs⟩ | ⟨hno', hs⟩
      · rw [hs]
        exact ⟨hr', .inl ⟨n, (hr'.prev p hp _ n hn).1, hni, rfl⟩⟩
      · rw [hs]
        refine ⟨hr', .inr ⟨fun n hn he => ?_, rfl⟩⟩
        obtain ⟨q, hq, hnq⟩ := hold n hn he
        cases hp.symm.trans hq
        exact hno' n hnq he

omit [DecidableEq α] in
/-- With distinct ids it finds the node with the wanted id. -/
theorem HashRep.hashGet {h : Hash α} {l} (hr : HashRep h l) (md5 : List UInt8 → HashId) (callocOk : Bool)
    (str : List UInt8) :
    (hashGet md5 callocOk h str).1 = l.find? (fun n => n.id == md5 str) ∧
      HashRep (hashGet md5 callocOk h str).2 l := by
  obtain ⟨hr', hcase⟩ := hr.toHashHolds.hashGet md5 callocOk str
  refine ⟨?_, hr', hr.ids⟩
  rcases hcase with ⟨n, hn, hid, hs⟩ | ⟨hno, hs⟩
  · rw [hs]
    cases hf : l.find? (fun n => n.id == md5 str) with
    | none =>
      rw [List.find?_eq_none] at hf
      exact absurd (by simpa using hid) (hf n hn)
    | some m =>
      have hm := List.find?_some hf
      have hmid : m.id = md5 str := by simpa using hm
      rw [List.inj_on_of_nodup_map hr.ids (List.mem_of_find?_eq_some hf) hn (hmid.trans hid.symm)]
  · rw [hs, eq_comm, List.find?_eq_none]
    intro n hn he
    exact hno n hn (by simpa using he)

/-! ## What is in the chains at all -/

/-- A node is in some chain, wherever it belongs. -/
def Hash.Has (h : Hash α) (n : HashNode α) : Prop :=
  (∃ i, n ∈ h.buckets i) ∨ ∃ p, h.prevBuckets = some p ∧ ∃ i, n ∈ p i

omit [DecidableEq α] in
theorem HashHolds.has_iff {h : Hash α} {l} (hr : HashHolds h l) {n : HashNode α} : h.Has n ↔ n ∈ l := by
  constructor
  · rintro (⟨i, hi⟩ | ⟨p, hp, i, hi⟩)
    · exact (hr.cur i n hi).1
    · exact (hr.prev p hp i n hi).1
  · intro hn
    exact (hr.cover n hn).imp (⟨_, ·⟩) fun ⟨p, hp, hi⟩ => ⟨p, hp, _, hi⟩

omit [DecidableEq α] in
theorem Hash.Has.of_hashSplit {h : Hash α} {n : HashNode α} (hn : (OliveHc.hashSplit h).Has n) : h.Has n := by
  unfold OliveHc.hashSplit at hn
  cases hp : h.prevBuckets with
  | none =>
    simp only [hp] at hn
    exact hn
  | some prev =>
    simp only [hp] at hn
    rcases hn with ⟨i, hi⟩ | ⟨p, hpre, i, hi⟩
    · rcases (mem_foldl_addHead _ _ i n).mp hi with ⟨hc, -⟩ | hb
      · exact .inr ⟨prev, hp, _, hc⟩
      · exact .inl ⟨i, hb⟩
    · simp only at hpre
      split at hpre
      · cases hpre
      · cases hpre
        refine .inr ⟨prev, hp, i, ?_⟩
        by_cases hs : i = h.split
        · rw [hs, Function.update_self] at hi
          cases hi
        · rwa [Function.update_of_ne hs] at hi

omit [DecidableEq α] in
theorem Hash.Has.of_hashExpansion {h : Hash α} {n : HashNode α} {callocOk : Bool}
    (hn : (OliveHc.hashExpansion callocOk h).Has n) : h.Has n := by
  unfold OliveHc.hashExpansion at hn
  split at hn
  · split at hn
    · rcases hn.of_hashSplit with ⟨i, hi⟩ | ⟨p, hp, i, hi⟩
      · cases hi
      · cases hp
        exact .inl ⟨i, hi⟩
    · exact hn
  · exact hn.of_hashSplit

omit [DecidableEq α] in
theorem Hash.Has.of_hashAdd {h : Hash α} {n k : HashNode α} {callocOk : Bool} (hn : (OliveHc.hashAdd callocOk h k).Has n) :
    n = k ∨ h.Has n := by
  rcases hn.of_hashExpansion with ⟨i, hi⟩ | hp
  · rcases mem_hlistAddHead.mp hi with ⟨-, rfl⟩ | hi
    · exact .inl rfl
    · exact .inr (.inl ⟨i, hi⟩)
  · exact .inr (.inr hp)

theorem hashDel_has {h : Hash α} {n k : HashNode α} : (hashDel h k).Has n ↔ h.Has n ∧ n ≠ k := by
  unfold Hash.Has hashDel
  simp only [List.mem_filter, decide_eq_true_eq, Option.map_eq_some_iff]
  constructor
  · rintro (⟨i, hi, hne⟩ | ⟨_, ⟨p, hp, rfl⟩, i, hi⟩)
    · exact ⟨.inl ⟨i, hi⟩, hne⟩
    · obtain ⟨hi, hne⟩ := List.mem_filter.mp hi
      exact ⟨.inr ⟨p, hp, i, hi⟩, by simpa using hne⟩
  · rintro ⟨⟨i, hi⟩ | ⟨p, hp, i, hi⟩, hne⟩
    · exact .inl ⟨i, hi, hne⟩
    · exact .inr ⟨_, ⟨p, hp, rfl⟩, i, List.mem_filter.mpr ⟨hi, by simpa using hne⟩⟩

omit [DecidableEq α] in
theorem hashGet_has {h : Hash α} {md5 : List UInt8 → HashId} {callocOk : Bool} {str : List UInt8} :
    (∀ n, (hashGet md5 callocOk h str).2.Has n → h.Has n) ∧
      ∀ n, (hashGet md5 callocOk h str).1 = some n → h.Has n ∧ n.id = md5 str := by
  have hx : ∀ n, (hashExpansion callocOk h).Has n → h.Has n := fun n hn => hn.of_hashExpansion
  unfold hashGet
  generalize hashExpansion callocOk h = x at hx
  have hfound : ∀ {slot : List (HashNode α)} {n}, hashSearch slot (md5 str) = some n → n ∈ slot ∧ n.id = md5 str := by
    intro slot n hs
    exact ⟨List.mem_of_find?_eq_some hs, by simpa using List.find?_some hs⟩
  simp only
  split
  · next n hn =>
    refine ⟨hx, fun k hk => ?_⟩
    cases hk
    exact ⟨hx n (.inl ⟨_, (hfound hn).1⟩), (hfound hn).2⟩
  split
  · next p hp =>
    refine ⟨hx, fun k hk => ?_⟩
    exact ⟨hx k (.inr ⟨p, hp, _, (hfound hk).1⟩), (hfound hk).2⟩
  · exact ⟨hx, fun k hk => by cases hk⟩

/-! ## Every run of operations -/

/-- The calls of the hash table's interface, each with the outcome of the
`calloc` it may make. -/
inductive HashOp (α : Type)
  | add (n : HashNode α) (callocOk : Bool)
  | del (n : HashNode α)
  | get (str : List UInt8) (callocOk : Bool)

/-- The table beside the finite map it stands for. Ids are added when absent
and nodes deleted when present, as the callers do. -/
def hashSystem (md5 : List UInt8 → HashId) : System (Hash α × List (HashNode α)) (HashOp α) where
  init s := hashInit true true = some s.1 ∧ s.2 = []
  next s a s' :=
    match a with
    | .add n ok => (∀ m ∈ s.2, m.id ≠ n.id) ∧ s' = (hashAdd ok s.1 n, n :: s.2)
    | .del n => n ∈ s.2 ∧ s' = (hashDel s.1 n, s.2.filter (· ≠ n))
    | .get str ok => s' = ((hashGet md5 ok s.1 str).2, s.2)

/-- A chain of the table: of the current array or of the one being split. -/
inductive HashChain
  | cur (i : Nat)
  | prev (i : Nat)
deriving DecidableEq

/-- The nodes of a chain, for the chains that are in the arrays. -/
def Hash.chain (h : Hash α) : HashChain → List (HashNode α)
  | .cur i => if i < h.bucketSize then h.buckets i else []
  | .prev i => match h.prevBuckets with
    | some p => if i < h.bucketSize / 2 then p i else []
    | none => []

theorem hashSystem_rep {md5 : List UInt8 → HashId} {s : Hash α × List (HashNode α)}
    (h : (hashSystem md5).Reachable s) : HashRep s.1 s.2 := by
  refine System.Reach.invariant (I := fun s => HashRep s.1 s.2) (fun s hs => ?_) (fun s a s' _ hr _ hn => ?_) h
  · obtain ⟨hi, he⟩ := hs
    rw [he]; exact hashInit_rep hi
  · cases a with
    | add n ok => obtain ⟨hfresh, rfl⟩ := hn; exact hr.hashAdd ok hfresh
    | del n => obtain ⟨hm, rfl⟩ := hn; exact hr.hashDel hm
    | get str ok => rw [show s' = ((hashGet md5 ok s.1 str).2, s.2) from hn]; exact (hr.hashGet md5 ok str).2

omit [DecidableEq α] in
/-- A present node is in one chain, once: the one of its index, or the one of
its old index while that one is still to be split. -/
theorem HashHolds.chain {h : Hash α} {l} (hr : HashHolds h l) {n : HashNode α} (hn : n ∈ l) :
    ∃ c, (n ∈ h.chain c ∧ (h.chain c).Nodup ∧ ∀ c', n ∈ h.chain c' → c' = c) ∧
      (c = .cur (hashIndex h.bucketSize n.id) ∨
        h.prevBuckets.isSome ∧ c = .prev (hashIndex h.bucketSize n.id % (h.bucketSize / 2)) ∧
          h.split ≤ hashIndex h.bucketSize n.id % (h.bucketSize / 2)) := by
  have hlt := hashIndex_lt hr.size n.id
  rcases hr.cover n hn with hc | ⟨p, hp, hc⟩
  · refine ⟨.cur (hashIndex h.bucketSize n.id), ⟨by simpa [Hash.chain, hlt] using hc, ?_, fun c' hc' => ?_⟩, .inl rfl⟩
    · simpa [Hash.chain, hlt] using hr.nodupCur _
    · cases c' with
      | cur i =>
        simp only [Hash.chain] at hc'
        split at hc'
        · rw [(hr.cur i n hc').2]
        · simp at hc'
      | prev i =>
        simp only [Hash.chain] at hc'
        split at hc'
        · next p hp =>
          split at hc'
          · exact absurd hc' (hr.apart p hp _ _ n hc)
          · simp at hc'
        · simp at hc'
  · have hs : h.split < h.bucketSize / 2 := hr.split (by simp [hp])
    have hj : hashIndex h.bucketSize n.id % (h.bucketSize / 2) < h.bucketSize / 2 := Nat.mod_lt _ (by omega)
    refine ⟨.prev _, ⟨by simpa [Hash.chain, hp, hj] using hc, ?_, fun c' hc' => ?_⟩,
      .inr ⟨by simp [hp], rfl, (hr.prev p hp _ n hc).2.2⟩⟩
    · simpa [Hash.chain, hp, hj] using hr.nodupPrev p hp _
    · cases c' with
      | cur i =>
        simp only [Hash.chain] at hc'
        split at hc'
        · exact absurd hc (hr.apart p hp i _ n hc')
        · simp at hc'
      | prev i =>
        simp only [Hash.chain, hp] at hc'
        split at hc'
        · rw [(hr.prev p hp i n hc').2.1]
        · simp at hc'

/-- **The linear hash table refines a finite map.** After any calls, whatever
allocations failed: a lookup returns the node present under the key's id and
nothing else, `items` counts the present nodes, and each of them is in
exactly one chain, that of its index or, during a split, that of its old
index at or after `split`. -/
theorem hash_refines_map {md5 : List UInt8 → HashId} {s : Hash α × List (HashNode α)}
    (h : (hashSystem md5).Reachable s) :
    (∀ str ok, (hashGet md5 ok s.1 str).1 = s.2.find? fun n => n.id == md5 str) ∧
    (s.2.map (·.id)).Nodup ∧ s.1.items = s.2.length ∧
    ∀ n ∈ s.2, ∃ c, (n ∈ s.1.chain c ∧ (s.1.chain c).Nodup ∧ ∀ c', n ∈ s.1.chain c' → c' = c) ∧
      (c = .cur (hashIndex s.1.bucketSize n.id) ∨
        s.1.prevBuckets.isSome ∧ c = .prev (hashIndex s.1.bucketSize n.id % (s.1.bucketSize / 2)) ∧
          s.1.split ≤ hashIndex s.1.bucketSize n.id % (s.1.bucketSize / 2)) := by
  have hr := hashSystem_rep h
  exact ⟨fun str ok => (hr.hashGet md5 ok str).1, hr.ids, hr.items, fun n hn => hr.chain hn⟩

theorem hash_refines_map_added : ∃ s : Hash Nat × List (HashNode Nat),
    (hashSystem fun str => (str.length.toUInt64, 0)).Reachable s ∧
      (hashGet (fun str => (str.length.toUInt64, 0)) true s.1 [47, 97]).1 = some ⟨(2, 0), 5⟩ := by
  have h0 : (hashSystem fun str => (str.length.toUInt64, 0)).Reachable
      ((⟨fun _ => [], 16, 0, none, 0⟩, []) : Hash Nat × List (HashNode Nat)) := .init ⟨rfl, rfl⟩
  have h := h0.step (a := HashOp.add ⟨(2, 0), 5⟩ true) (And.intro (by simp) rfl)
  exact ⟨_, h, ((hash_refines_map h).1 [47, 97] true).trans (by decide)⟩

end OliveHc
