/-
What the operations of `device.c` leave alone, in any state.

The blocks of items are the only business of most of them: the items
themselves stay as they are (`ItemsSame`). The loops that delete items keep
whatever deleting one item and dropping one free block keep (`Host.Steps`).
-/
import OliveHc.Reload

namespace OliveHc

/-- The items and the list of them are as before. -/
structure ItemsSame (s s' : Space) : Prop where
  item : s'.item = s.item
  items : s'.items = s.items

namespace ItemsSame

variable {s s' s'' : Space} {al : Allocator} {a d f k : Nat}

theorem refl (s : Space) : ItemsSame s s := ⟨rfl, rfl⟩

theorem trans (h : ItemsSame s s') (h' : ItemsSame s' s'') : ItemsSame s s'' :=
  ⟨h'.item.trans h.item, h'.items.trans h.items⟩

/-- Before the operation something else was changed. -/
theorem after {s₁ : Space} (h : ItemsSame s₁ s') (hi : s₁.item = s.item) (hl : s₁.items = s.items) : ItemsSame s s' :=
  ⟨h.item.trans hi, h.items.trans hl⟩

theorem fblockInsert (al : Allocator) (d : Nat) (base : Option Node) (offset size : Nat) (s : Space) :
    ItemsSame s (s.deviceFblockInsert al d base offset size).2 := by
  unfold Space.deviceFblockInsert
  split <;> exact ⟨rfl, rfl⟩

theorem fblockDelete (h : s.deviceFblockDelete f = some s') : ItemsSame s s' := by
  obtain ⟨d, -, rfl⟩ := Option.map_eq_some_iff.mp h
  exact ⟨rfl, rfl⟩

theorem deviceDelete (d : Nat) (s : Space) : ItemsSame s (s.deviceDelete d) := by
  unfold Space.deviceDelete
  simp only
  split <;> exact ⟨rfl, rfl⟩

theorem kick (al : Allocator) (d : Nat) (s : Space) : ItemsSame s (s.deviceKick al d) := by
  unfold Space.deviceKick
  split
  · exact ⟨rfl, rfl⟩
  · exact (deviceDelete d _).after rfl rfl

theorem recycle (h : s.recycle al a d = some s') : ItemsSame s s' := by
  unfold Space.recycle at h
  simp only at h
  split at h
  · exact (fblockDelete h).after rfl rfl
  · cases h
    exact ⟨rfl, rfl⟩
  · cases h
    exact ⟨rfl, rfl⟩
  · cases h
    exact fblockInsert ..

theorem returnFreeBlock (h : s.deviceReturnFreeBlock al a = some (k, s')) : ItemsSame s s' := by
  unfold Space.deviceReturnFreeBlock at h
  obtain ⟨d, -, h⟩ := Option.bind_eq_some_iff.mp h
  simp only at h
  split at h
  · cases h
    exact ⟨rfl, rfl⟩
  split at h
  · cases h
    split
    · exact ⟨(kick al d _).item, (kick al d _).items⟩
    · exact ⟨rfl, rfl⟩
  · obtain ⟨s₁, h₁, h⟩ := Option.bind_eq_some_iff.mp h
    cases h
    exact (recycle h₁).trans ⟨rfl, rfl⟩

theorem loadPost (h : s.deviceLoadPost d = some s') : ItemsSame s s' := by
  unfold Space.deviceLoadPost at h
  obtain ⟨f, -, h⟩ := Option.bind_eq_some_iff.mp h
  split at h
  · exact fblockDelete h
  · cases h
    exact ⟨rfl, rfl⟩

theorem add {file capacity : Nat} (h : s.deviceAdd al d file capacity = some s') : ItemsSame s s' := by
  unfold Space.deviceAdd at h
  obtain ⟨⟨i, t⟩, -, h⟩ := Option.bind_eq_some_iff.mp h
  simp only at h
  split at h
  · cases h
    split
    · exact (fblockInsert al d none 0 capacity _).after rfl rfl
    · exact ⟨(fblockInsert al d none 0 capacity _).item, (fblockInsert al d none 0 capacity _).items⟩
  · cases h
    exact ⟨rfl, rfl⟩

theorem loadDevice {p : DevicePlan} (h : s.loadDevice al p = some s') : ItemsSame s s' := by
  unfold Space.loadDevice at h
  split at h
  · cases h
    exact ⟨rfl, rfl⟩
  · obtain ⟨d, -, h⟩ := Option.bind_eq_some_iff.mp h
    exact (add h).after rfl rfl

/-- **`device_conf_load`** -/
theorem deviceConfLoad {conf : Conf} {plan : List DevicePlan} (h : s.deviceConfLoad al conf plan = some s') :
    ItemsSame s s' := by
  unfold Space.deviceConfLoad at h
  have hdrop : ∀ (l : List Nat) (s : Space), ItemsSame s (l.foldl (fun s d => s.deviceDelete d) s) := by
    intro l
    induction l with
    | nil => exact refl
    | cons d l ih => exact fun s => (deviceDelete d s).trans (ih _)
  have hload : ∀ {l : List DevicePlan} {s}, l.foldlM (fun s p => s.loadDevice al p) s = some s' → ItemsSame s s' := by
    intro l
    induction l with
    | nil =>
      intro s h
      cases h
      exact refl _
    | cons p l ih =>
      intro s h
      rw [List.foldlM_cons] at h
      obtain ⟨s₁, h₁, h⟩ := Option.bind_eq_some_iff.mp h
      exact (loadDevice h₁).trans (ih h)
  exact ((hdrop _ _).trans (hload h)).after rfl rfl

end ItemsSame

/-- The slots lead to the same devices, and the same ones are deleted. -/
structure FlagsSame (s s' : Space) : Prop where
  indexs : s'.deviceIndexs = s.deviceIndexs
  deleted : ∀ d, (s'.device d).deleted = (s.device d).deleted

namespace FlagsSame

variable {s s' s'' : Space} {al : Allocator} {a d k : Nat}

theorem refl (s : Space) : FlagsSame s s := ⟨rfl, fun _ => rfl⟩

theorem trans (h : FlagsSame s s') (h' : FlagsSame s' s'') : FlagsSame s s'' :=
  ⟨h'.indexs.trans h.indexs, fun d => (h'.deleted d).trans (h.deleted d)⟩

theorem recycle (h : s.recycle al a d = some s') : FlagsSame s s' := by
  unfold Space.recycle at h
  simp only at h
  split at h
  · obtain ⟨_, -, rfl⟩ := Option.map_eq_some_iff.mp h
    exact ⟨rfl, fun _ => rfl⟩
  · cases h
    exact ⟨rfl, fun _ => rfl⟩
  · cases h
    exact ⟨rfl, fun _ => rfl⟩
  · cases h
    unfold Space.deviceFblockInsert
    split <;> exact ⟨rfl, fun _ => rfl⟩

/-- Only a bad block can have its device kicked. -/
theorem returnFreeBlock (hb : (s.item a).badblock = false) (h : s.deviceReturnFreeBlock al a = some (k, s')) :
    FlagsSame s s' := by
  unfold Space.deviceReturnFreeBlock at h
  obtain ⟨d, -, h⟩ := Option.bind_eq_some_iff.mp h
  simp only [hb, Bool.false_eq_true, if_false] at h
  split at h
  · cases h
    exact ⟨rfl, fun _ => rfl⟩
  · obtain ⟨s₁, h₁, h⟩ := Option.bind_eq_some_iff.mp h
    cases h
    refine (recycle h₁).trans ⟨rfl, fun x => ?_⟩
    show (Function.update s₁.device d _ x).deleted = _
    by_cases hx : x = d
    · rw [hx, Function.update_self]
    · rw [Function.update_of_ne hx]

end FlagsSame

/-- What a search for a block does to the items: item `a` may get one. -/
structure Located (a : Nat) (s s' : Space) : Prop where
  item : ∃ o i, s'.item = Function.update s.item a { s.item a with offset := o, deviceIndex := i }
  items : s'.items = s.items ∨ a ∉ s.items ∧ s'.items = a :: s.items

theorem ItemsSame.located {s s' : Space} (h : ItemsSame s s') (a : Nat) : Located a s s' :=
  ⟨⟨_, _, by rw [h.item]; exact (Function.update_eq_self a s.item).symm⟩, .inl h.items⟩

theorem Located.same {a : Nat} {s s' s'' : Space} (h : Located a s s') (h' : ItemsSame s' s'') : Located a s s'' :=
  ⟨by rw [h'.item]; exact h.item, by rw [h'.items]; exact h.items⟩

namespace Space

variable {s s' : Space} {a f d k n : Nat}

theorem linkItem_located (ha : a ∉ s.items) (f d offset : Nat) : Located a s (s.linkItem a f d offset) :=
  ⟨⟨_, _, rfl⟩, .inr ⟨ha, rfl⟩⟩

/-- A block that is taken has the size of the item's class. -/
theorem takeBlock_located (h : s.takeBlock a f d = some (k, s')) :
    Located a s s' ∧ k = ipbucketBlockSize (s.item a).length ∧ a ∉ s.items ∧ a ∈ s'.items := by
  unfold takeBlock at h
  simp only at h
  split at h
  · cases h
  next ha =>
  split at h
  · cases h
    exact ⟨⟨⟨_, _, rfl⟩, .inr ⟨ha, rfl⟩⟩, rfl, ha, List.mem_cons_self⟩
  split at h
  · obtain ⟨s₁, h₁, h⟩ := Option.map_eq_some_iff.mp h
    cases h
    have hsame := ItemsSame.fblockDelete h₁
    refine ⟨(linkItem_located ha f d _).same hsame, rfl, ha, ?_⟩
    rw [hsame.items]
    exact List.mem_cons_self
  · cases h

theorem getFreeBlock_located (h : s.getFreeBlock a n = some (k, s')) :
    Located a s s' ∧ (k ≠ 0 → k = ipbucketBlockSize (s.item a).length ∧ a ∉ s.items ∧ a ∈ s'.items) ∧
      (a ∉ s.items → a ∈ s'.items → k = ipbucketBlockSize (s.item a).length) := by
  induction n generalizing s with
  | zero | succ n ih =>
    unfold getFreeBlock at h
    split at h
    · cases h
      exact ⟨(ItemsSame.refl _).located a, fun hk => absurd rfl hk, fun hn hm => absurd hm hn⟩
    next f s₁ hget =>
    have h₁ : ItemsSame s s₁ := by
      unfold ipbucketGet at hget
      simp only at hget
      split at hget
      · cases hget
      · obtain ⟨g, -, hg⟩ := Option.map_eq_some_iff.mp hget
        cases hg
        exact ⟨rfl, rfl⟩
    obtain ⟨d, -, h⟩ := Option.bind_eq_some_iff.mp h
    split at h
    · obtain ⟨s₂, h₂, h⟩ := Option.bind_eq_some_iff.mp h
      have h₂ := h₁.trans (.fblockDelete h₂)
      first
      | cases h
        exact ⟨h₂.located a, fun hk => absurd rfl hk, fun hn hm => absurd (h₂.items ▸ hm) hn⟩
      | have hrec := ih h
        rw [h₂.items, h₂.item] at hrec
        exact ⟨⟨by rw [← h₂.item]; exact hrec.1.item, by rw [← h₂.items]; exact hrec.1.items⟩, hrec.2⟩
    · obtain ⟨hp, hk, hn, hm⟩ := takeBlock_located h
      rw [h₁.items] at hn
      rw [h₁.item] at hk
      exact ⟨⟨by rw [← h₁.item]; exact hp.item, by rw [← h₁.items]; exact hp.items⟩, fun _ => ⟨hk, hn, hm⟩, fun _ _ => hk⟩

/-- A loaded item has its offset already. -/
theorem deviceCutFreeBlock_located {al : Allocator} (h : s.deviceCutFreeBlock al a = some (k, s')) :
    s'.item = s.item ∧ (k = 0 ∧ s'.items = s.items ∨
      k = ipbucketBlockSize (s.item a).length ∧ a ∉ s.items ∧ s'.items = a :: s.items) := by
  unfold deviceCutFreeBlock at h
  obtain ⟨d, -, h⟩ := Option.bind_eq_some_iff.mp h
  obtain ⟨f, -, h⟩ := Option.bind_eq_some_iff.mp h
  simp only at h
  split at h
  · cases h
    exact ⟨rfl, .inl ⟨rfl, rfl⟩⟩
  split at h
  · cases h
  next ha =>
  cases h
  split
  · have hsame := ItemsSame.fblockInsert al d (some (.fblock f)) (s.fblock f).offset
      ((s.item a).offset - (s.fblock f).offset) s
    exact ⟨hsame.item, .inr ⟨rfl, ha, congrArg (a :: ·) hsame.items⟩⟩
  · exact ⟨rfl, .inr ⟨rfl, ha, rfl⟩⟩

end Space

/-! ## The loops that delete items -/

/-- What the steps of the loops keep, wherever they are taken. -/
structure Host.Steps {σ : Type} (h : Host σ) (P : σ → Prop) : Prop where
  fblockDelete : ∀ {m f s'}, P m → (h.space m).deviceFblockDelete f = some s' → P (h.withSpace s' m)
  itemDelete : ∀ {m a m'}, P m → h.itemDelete a m = some m' → P m'
  device : ∀ {m} {d : Nat} {x : Device} {l : List Nat} {t : IdxPointer}, P m →
    P (h.withSpace { (h.space m).setDevice d x with deletedDevices := l, deviceIndexs := t } m)

namespace Host.Steps

variable {σ : Type} {h : Host σ} {P : σ → Prop} {m m' : σ}

theorem deviceDeleteItem (k : h.Steps P) (hP : P m) {n : Option Node} (hd : h.deviceDeleteItem n m = some m') : P m' := by
  unfold Host.deviceDeleteItem at hd
  split at hd
  · simp only at hd
    split at hd
    · cases hd
      exact hP
    · exact k.itemDelete hP hd
  · cases hd
    exact hP

theorem extend (k : h.Steps P) {target n last : Nat} {ok : Bool} (hP : P m)
    (he : h.extend target n last m = some (ok, m')) : P m' := by
  induction n generalizing m last with
  | zero =>
    cases he
    exact hP
  | succ n ih =>
    unfold Host.extend at he
    split at he
    · cases he
      exact hP
    simp only at he
    split at he
    · cases he
      exact hP
    split at he
    · cases he
      exact hP
    obtain ⟨d, -, he⟩ := Option.bind_eq_some_iff.mp he
    split at he
    · obtain ⟨s', hs', he⟩ := Option.bind_eq_some_iff.mp he
      exact ih (k.fblockDelete hP hs') he
    · obtain ⟨m₁, h₁, he⟩ := Option.bind_eq_some_iff.mp he
      obtain ⟨m₂, h₂, he⟩ := Option.bind_eq_some_iff.mp he
      exact ih (k.deviceDeleteItem (k.deviceDeleteItem hP h₁) h₂) he

/-- **`device_free_block_extend`.** -/
theorem deviceFreeBlockExtend (k : h.Steps P) {target : Nat} {ok : Bool} (hP : P m)
    (he : h.deviceFreeBlockExtend target m = some (ok, m')) : P m' :=
  k.extend hP he

theorem destroyNodes (k : h.Steps P) {l : List Node} (hP : P m)
    (hf : l.foldlM (fun m n => h.destroyNode n m) m = some m') : P m' := by
  induction l generalizing m with
  | nil =>
    cases hf
    exact hP
  | cons n l ih =>
    rw [List.foldlM_cons] at hf
    obtain ⟨m₁, h₁, hf⟩ := Option.bind_eq_some_iff.mp hf
    refine ih ?_ hf
    cases n with
    | fblock f =>
      obtain ⟨s', hs', rfl⟩ := Option.map_eq_some_iff.mp h₁
      exact k.fblockDelete hP hs'
    | item a => exact k.itemDelete hP h₁

/-- **`device_destroy`.** -/
theorem deviceDestroy (k : h.Steps P) {d : Nat} (hP : P m) (hd : h.deviceDestroy d m = some m') : P m' := by
  unfold Host.deviceDestroy at hd
  obtain ⟨m₁, h₁, hd⟩ := Option.bind_eq_some_iff.mp hd
  have hP₁ := k.destroyNodes hP h₁
  -- The device, whether its file is closed now or not.
  obtain ⟨x, hx⟩ : ∃ x, (if ((h.space m₁).device d).used = 0 ∧ ((h.space m₁).device d).fdOpen = true then
      (h.space m₁).setDevice d { (h.space m₁).device d with fdOpen := false } else h.space m₁) =
      (h.space m₁).setDevice d x := by
    split
    · exact ⟨_, rfl⟩
    · refine ⟨(h.space m₁).device d, ?_⟩
      rw [Space.setDevice, Function.update_eq_self]
  simp only [hx] at hd
  split at hd
  · cases hd
    exact k.device hP₁
  · obtain ⟨t, -, hd⟩ := Option.bind_eq_some_iff.mp hd
    cases hd
    exact k.device hP₁

/-- **`device_routine`.** -/
theorem deviceRoutine (k : h.Steps P) (hP : P m) (hm : h.deviceRoutine m = some m') : P m' := by
  unfold Host.deviceRoutine at hm
  generalize (h.space m).deletedDevices = l at hm
  induction l generalizing m with
  | nil =>
    cases hm
    exact hP
  | cons d l ih =>
    rw [List.foldlM_cons] at hm
    obtain ⟨m₁, h₁, hm⟩ := Option.bind_eq_some_iff.mp hm
    exact ih (k.deviceDestroy hP h₁) hm

end Host.Steps

end OliveHc
