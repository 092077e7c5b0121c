/-
What `format_load_device` reads of a device that `format_store_device` wrote.

The superblock, the ports and the records come back as they were written:
the checksum closes over its own field, and no part of the dump is written
over another.
-/
import OliveHc.Format

namespace OliveHc

/-- What the superblock of a device says, if it is accepted: the number of
records, and the ports of the server indices. -/
def formatInfo (image : Nat → UInt8) : Option (Int × (Nat → Nat)) :=
  let buffer := imageRead image 0 ohcFmInfoSize
  if leNat (buffer.take 8) ≠ ohcFmMagic ∨ leInt ((buffer.drop 8).take 4) ≠ ohcFmVersion then none
  else if formatChecksum buffer ≠ ohcFmChsFeed then none
  else some (leInt ((buffer.drop 24).take 8), fun i => leNat ((buffer.drop (superblockSize + 2 * i)).take 2))

/-- The `i`-th record. -/
def recordAt (image : Nat → UInt8) (i : Nat) : FormatItem :=
  FormatItem.ofBytes (imageRead image (ohcFmInfoSize + i * formatItemSize) formatItemSize)

/-! ## The superblock -/

theorem length_superblock {pad : List UInt8} (hpad : pad.length = 4) (c : UInt64) (n : Nat) :
    (superblock pad c n).length = superblockSize := by
  simp [superblock, hpad, superblockSize]

theorem length_portBytes (ports : Nat → Nat) : (portBytes ports).length = serverPortsSize := by
  rw [portBytes, length_flatMap_chunks (k := 2) fun i _ => length_leBytes 2 (ports i), List.length_range, serverPortsSize,
    Nat.mul_comm]

/-- The fields of the superblock, in front of anything. -/
theorem superblock_fields {pad : List UInt8} (hpad : pad.length = 4) (c : UInt64) (n : Nat) (l : List UInt8) :
    (superblock pad c n ++ l).take 8 = leBytes 8 ohcFmMagic ∧ ((superblock pad c n ++ l).drop 8).take 4 = leBytes 4 1 ∧
      ((superblock pad c n ++ l).drop 24).take 8 = leBytes 8 n := by
  have hdrop : ∀ k, 8 ≤ k → (superblock pad c n ++ l).drop k =
      (leBytes 4 1 ++ (pad ++ (leBytes 8 c.toNat ++ (leBytes 8 n ++ l)))).drop (k - 8) := by
    intro k hk
    unfold superblock
    simp only [List.append_assoc]
    exact drop_leBytes_append hk
  refine ⟨?_, ?_, ?_⟩
  · unfold superblock
    simp only [List.append_assoc]
    exact take_leBytes_append ..
  · rw [hdrop 8 (Nat.le_refl 8), Nat.sub_self, List.drop_zero]
    exact take_leBytes_append ..
  · rw [hdrop 24 (by decide), drop_leBytes_append (by decide), List.drop_append, List.drop_eq_nil_of_le (by rw [hpad]; decide),
      List.nil_append, hpad, drop_leBytes_append (by decide)]
    exact take_leBytes_append ..

/-- The checksum of the superblock, with its own field. -/
theorem formatChecksum_superblock {pad : List UInt8} (hpad : pad.length = 4) (c : UInt64) (n : Nat) :
    formatChecksum (superblock pad c n) = c ^^^ formatChecksum (superblock pad 0 n) := by
  have hwords : ∀ c : UInt64, wordsOf (superblock pad c n) = [UInt64.ofNat (leNat (leBytes 8 ohcFmMagic)),
      UInt64.ofNat (leNat (leBytes 4 1 ++ pad)), c, UInt64.ofNat (leNat (leBytes 8 n))] := by
    intro c
    have hc : UInt64.ofNat (leNat (leBytes 8 c.toNat)) = c := by
      rw [leNat_leBytes_of_lt c.toNat_lt, UInt64.ofNat_toNat]
    unfold superblock
    rw [wordsOf_append _ (by simp [hpad]), wordsOf_append _ (by simp [hpad]), wordsOf_append _ (by simp),
      wordsOf_eight (by simp), wordsOf_eight (by simp [hpad]), wordsOf_eight (by simp), wordsOf_eight (by simp), hc]
    rfl
  rw [formatChecksum, formatChecksum, hwords, hwords]
  generalize UInt64.ofNat (leNat (leBytes 8 ohcFmMagic)) = x
  generalize UInt64.ofNat (leNat (leBytes 4 1 ++ pad)) = y
  generalize UInt64.ofNat (leNat (leBytes 8 n)) = z
  simp only [xorAll_cons, xorAll_nil, UInt64.zero_xor]
  ac_rfl

/-- The checksum makes up for the rest. -/
theorem formatChecksum_closed {pad : List UInt8} (hpad : pad.length = 4) (n : Nat) (ports : Nat → Nat) :
    formatChecksum (superblock pad (formatChecksum (superblock pad 0 n) ^^^ formatChecksum (portBytes ports) ^^^ ohcFmChsFeed)
      n ++ portBytes ports) = ohcFmChsFeed := by
  have hdvd : 8 ∣ (superblock pad (formatChecksum (superblock pad 0 n) ^^^ formatChecksum (portBytes ports) ^^^
      ohcFmChsFeed) n).length := by
    rw [length_superblock hpad]
    decide
  rw [formatChecksum, wordsOf_append _ hdvd, xorAll_append]
  show formatChecksum _ ^^^ formatChecksum _ = _
  rw [formatChecksum_superblock hpad]
  generalize formatChecksum (superblock pad 0 n) = x
  generalize formatChecksum (portBytes ports) = y
  generalize ohcFmChsFeed = z
  calc x ^^^ y ^^^ z ^^^ x ^^^ y = (x ^^^ x) ^^^ (y ^^^ y) ^^^ z := by ac_rfl
    _ = z := by simp

/-! ## The records -/

/-- The values are in the ranges of their fields. -/
structure FormatItem.Typed (x : FormatItem) : Prop where
  offset : -2 ^ 63 ≤ x.offset ∧ x.offset < 2 ^ 63
  length : x.length < 2 ^ 32
  expire : -2 ^ 31 ≤ x.expire ∧ x.expire < 2 ^ 31
  headersLen : x.headersLen < 2 ^ 16
  serverIndex : -2 ^ 15 ≤ x.serverIndex ∧ x.serverIndex < 2 ^ 15

theorem FormatItem.Typed.ofBytes_bytes {x : FormatItem} (h : x.Typed) (pad : List UInt8) :
    FormatItem.ofBytes (x.bytes pad) = x := by
  have hb : ∀ {v : Int} {n : Nat}, -2 ^ (8 * n - 1) ≤ v → v < 2 ^ (8 * n - 1) → 0 < n → v.bmod (256 ^ n) = v := by
    intro v n h1 h2 hn
    have hpow : ((256 ^ n : Nat) : Int) = 2 ^ (8 * n - 1) * 2 := by
      rw [← pow_succ, Nat.sub_add_cancel (by omega), pow_mul]
      norm_num
    refine Int.bmod_eq_of_le ?_ ?_ <;> rw [hpow] <;> omega
  rw [FormatItem.ofBytes_bytes, hb (n := 8) h.offset.1 h.offset.2 (by decide), hb (n := 4) h.expire.1 h.expire.2 (by decide),
    hb (n := 2) h.serverIndex.1 h.serverIndex.2 (by decide), Nat.mod_eq_of_lt (b := 256 ^ 4) h.length, Nat.mod_eq_of_lt (b := 256 ^ 2) h.headersLen]

theorem FormatItem.length_bytes {pad : List UInt8} (hpad : pad.length = 4) (x : FormatItem) :
    (x.bytes pad).length = formatItemSize := by
  simp [FormatItem.bytes, hpad, formatItemSize]

/-- What is on a device after a dump of `records`. -/
structure Stored (ports : Nat → Nat) (records : List FormatItem) (image image' : Nat → UInt8) : Prop where
  info : ∃ p : Nat → Nat, formatInfo image' = some ((records.length : Int), p) ∧ ∀ i < iptArraySize, p i = ports i
  record : ∀ i (h : i < records.length), recordAt image' i = records[i]
  rest : ∀ x, ohcFmInfoSize + records.length * formatItemSize ≤ x → image' x = image x

/-- The image that a dump leaves. -/
def dumpImage (ports : Nat → Nat) (pad : List UInt8) (itemPad : Nat → List UInt8) (records : List FormatItem)
    (image : Nat → UInt8) : Nat → UInt8 :=
  imageWrite 0 (superblock pad
      (formatChecksum (superblock pad 0 records.length) ^^^ formatChecksum (portBytes ports) ^^^ ohcFmChsFeed) records.length)
    (imageWrite ohcFmInfoSize ((records.zipIdx.map fun x => x.1.bytes (itemPad x.2)).flatten)
      (imageWrite superblockSize (portBytes ports) image))

theorem dumpImage_stored {ports : Nat → Nat} {pad : List UInt8} {itemPad : Nat → List UInt8} {records : List FormatItem}
    (image : Nat → UInt8) (hpad : pad.length = 4) (hitem : ∀ i, (itemPad i).length = 4) (hports : ∀ i, ports i < 2 ^ 16)
    (htyped : ∀ x ∈ records, x.Typed) (hlen : records.length < 2 ^ 63) :
    Stored ports records image (dumpImage ports pad itemPad records image) := by
  have hchunk : ∀ x ∈ records.zipIdx, (x.1.bytes (itemPad x.2)).length = formatItemSize := fun x _ =>
    FormatItem.length_bytes (hitem x.2) x.1
  have hsize : ((records.zipIdx.map fun x => x.1.bytes (itemPad x.2)).flatten).length = records.length * formatItemSize := by
    rw [← List.flatMap_def, length_flatMap_chunks hchunk, List.length_zipIdx]
  unfold dumpImage
  generalize hc : formatChecksum (superblock pad 0 records.length) ^^^ formatChecksum (portBytes ports) ^^^ ohcFmChsFeed = c
  have hsb := length_superblock hpad c records.length
  have hpb := length_portBytes ports
  -- The three parts are beside one another.
  have hbuffer : imageRead (imageWrite 0 (superblock pad c records.length)
      (imageWrite ohcFmInfoSize ((records.zipIdx.map fun x => x.1.bytes (itemPad x.2)).flatten)
        (imageWrite superblockSize (portBytes ports) image))) 0 ohcFmInfoSize =
      superblock pad c records.length ++ portBytes ports := by
    rw [ohcFmInfoSize, imageRead_add, imageRead_imageWrite_all _ hsb.symm, Nat.zero_add,
      imageRead_of_outside _ (.inr (by rw [hsb]; omega)), imageRead_of_outside _ (.inl (Nat.le_refl _)),
      imageRead_imageWrite_all _ hpb.symm]
  refine ⟨?_, fun i hi => ?_, fun x hx => ?_⟩
  · have hcount : leInt (leBytes 8 records.length) = records.length := by
      have hn : ((records.length : Int) % (256 ^ 8 : Nat)).toNat = records.length := by
        rw [Int.emod_eq_of_lt (Int.natCast_nonneg _) (by omega), Int.toNat_natCast]
      have hread := leInt_leBytes 8 records.length
      rwa [hn, Int.bmod_eq_of_le (by omega) (by omega)] at hread
    obtain ⟨h0, h8, h24⟩ := superblock_fields hpad c records.length (portBytes ports)
    refine ⟨fun i => leNat (((superblock pad c records.length ++ portBytes ports).drop (superblockSize + 2 * i)).take 2),
      ?_, fun i hi => ?_⟩
    · unfold formatInfo
      rw [hbuffer]
      simp only
      rw [if_neg ?_, if_neg ?_]
      · rw [h24, hcount]
      · rw [not_not, ← hc]
        exact formatChecksum_closed hpad records.length ports
      · rw [h0, h8]
        decide
    · show leNat _ = _
      rw [← List.drop_drop, List.drop_left' hsb, portBytes, Nat.mul_comm,
        take_drop_flatMap (fun j _ => length_leBytes 2 (ports j)) (by rwa [List.length_range]), List.getElem_range,
        leNat_leBytes_of_lt (hports i)]
  · rw [recordAt, imageRead_of_outside _ (.inr ?_), imageRead_imageWrite _ ?_, ← List.flatMap_def,
      take_drop_flatMap hchunk (by rwa [List.length_zipIdx]), List.getElem_zipIdx]
    · exact (htyped _ (List.getElem_mem hi)).ofBytes_bytes _
    · rw [hsize, ← Nat.succ_mul]
      exact Nat.mul_le_mul_right _ hi
    · rw [hsb, ohcFmInfoSize]
      omega
  · rw [imageWrite_of_outside (.inr ?_), imageWrite_of_outside (.inr (by rw [hsize]; exact hx)),
      imageWrite_of_outside (.inr ?_)]
    · rw [hpb]
      exact Nat.le_trans (Nat.le_add_right _ _) hx
    · rw [hsb, Nat.zero_add]
      refine Nat.le_trans ?_ hx
      rw [ohcFmInfoSize]
      omega

end OliveHc
