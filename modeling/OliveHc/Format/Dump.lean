/-
What `format_store_device` writes.
-/
import OliveHc.Format.Image

namespace OliveHc.Master

variable {m : Master} {d : Nat}

/-- The records of the items that are dumped. -/
def dumpRecords (d : Nat) (m : Master) : Option (List FormatItem) := do
  let items ← m.dumpItems (m.space.order d)
  items.mapM fun a => m.formatItem a

/-- The items are those of the list that are to be dumped, in its order. -/
theorem dumpItems_sublist {l : List Node} {r : List Nat} (h : m.dumpItems l = some r) :
    (r.map Node.item).Sublist l ∧ ∀ a ∈ r, m.dumps a = some true := by
  induction l generalizing r with
  | nil =>
    cases h
    exact ⟨.refl _, nofun⟩
  | cons n l ih =>
    cases n with
    | fblock f =>
      obtain ⟨hl, hd⟩ := ih h
      exact ⟨hl.cons _, hd⟩
    | item b =>
      obtain ⟨dump, hb, h⟩ := Option.bind_eq_some_iff.mp h
      obtain ⟨rest, hrest, h⟩ := Option.bind_eq_some_iff.mp h
      obtain ⟨hl, hd⟩ := ih hrest
      cases h
      cases dump with
      | false => exact ⟨hl.cons _, hd⟩
      | true => exact ⟨hl.cons_cons _, List.forall_mem_cons.mpr ⟨hb, hd⟩⟩

theorem mem_dumpItems {l : List Node} {r : List Nat} {a : Nat} (h : m.dumpItems l = some r) (ha : a ∈ r) :
    .item a ∈ l ∧ m.dumps a = some true := by
  obtain ⟨hl, hd⟩ := dumpItems_sublist h
  exact ⟨hl.subset (List.mem_map_of_mem ha), hd a ha⟩

theorem dumps_valid {a : Nat} (h : m.dumps a = some true) : m.serverItemValid a = some true := by
  obtain ⟨valid, hv, h⟩ := Option.bind_eq_some_iff.mp h
  obtain ⟨s, -, h⟩ := Option.bind_eq_some_iff.mp h
  have hb := Option.some.inj h
  rw [Bool.and_eq_true] at hb
  rw [hv, hb.1]

/-- A valid item has a server in use, which was not cleared. -/
theorem serverItemValid_clear {a : Nat} (hv : m.serverItemValid a = some true) : ∃ s, m.serverOfItem a = some s ∧
    (m.server s).deleted = false ∧ (m.space.item a).clear = (m.server s).clear := by
  unfold serverItemValid at hv
  obtain ⟨d, -, hv⟩ := Option.bind_eq_some_iff.mp hv
  obtain ⟨s, hs, hv⟩ := Option.bind_eq_some_iff.mp hv
  simp only [Option.some.injEq, Bool.and_eq_true, beq_iff_eq, Bool.not_eq_true'] at hv
  exact ⟨s, hs, hv.1.1.2, hv.1.2⟩

theorem formatStoreDevice_dump {records : List FormatItem} (h : m.dumpRecords d = some records) (hne : records ≠ [])
    (ports : Nat → Nat) (pad : List UInt8) (itemPad : Nat → List UInt8) (image : Nat → UInt8) :
    m.formatStoreDevice ports pad itemPad d image = some (true, dumpImage ports pad itemPad records image) := by
  obtain ⟨items, hitems, hrecords⟩ := Option.bind_eq_some_iff.mp h
  have hlen : records.length ≠ 0 := fun hzero => hne (List.length_eq_zero_iff.mp hzero)
  simp only [formatStoreDevice, hitems, hrecords, Option.bind_eq_bind, Option.bind_some, if_neg hlen]
  rfl

/-- A port in the table is that of a server with the index; other places are
zero. -/
theorem serverDumpPorts_cases (m : Master) (i : Nat) :
    (∃ s ∈ m.servers, (m.server s).index = i ∧ m.serverDumpPorts i = (m.server s).conf.listenPort) ∨
      (∀ s ∈ m.servers, (m.server s).index ≠ i) ∧ m.serverDumpPorts i = 0 := by
  unfold serverDumpPorts
  generalize m.servers = l
  -- The last server with the index is what counts.
  induction l using List.reverseRecOn with
  | nil => exact .inr ⟨nofun, rfl⟩
  | append_singleton l s ih =>
    rw [List.foldl_append, List.foldl_cons, List.foldl_nil]
    generalize l.foldl _ _ = ports at ih ⊢
    by_cases hi : (m.server s).index = i
    · refine .inl ⟨s, by simp, hi, ?_⟩
      rw [if_pos (by omega), hi, Int.toNat_natCast, Function.update_self]
    · have hsame : (if 0 ≤ (m.server s).index then
          Function.update ports (m.server s).index.toNat (m.server s).conf.listenPort else ports) i = ports i := by
        split
        · exact Function.update_of_ne (by omega) ..
        · rfl
      rw [hsame]
      rcases ih with ⟨x, hx, hxi, hp⟩ | ⟨hno, hp⟩
      · exact .inl ⟨x, List.mem_append_left _ hx, hxi, hp⟩
      · refine .inr ⟨fun x hx => ?_, hp⟩
        rcases List.mem_append.mp hx with hx | hx
        · exact hno x hx
        · rw [List.mem_singleton.mp hx]
          exact hi

theorem serverDumpPorts_lt (h : ∀ s ∈ m.servers, (m.server s).conf.listenPort < 2 ^ 16) (i : Nat) :
    m.serverDumpPorts i < 2 ^ 16 := by
  rcases m.serverDumpPorts_cases i with ⟨s, hs, -, hp⟩ | ⟨-, hp⟩
  · rw [hp]
    exact h s hs
  · rw [hp]
    decide

end OliveHc.Master
