/-
The loops of `device.c` that delete items.

`device_free_block_extend` and `device_destroy` call `server_item_delete`,
which is outside of `device.c`. What they keep is shown once, for any
program around them (`Host`) whose deletions behave (`Host.Keeps`).
-/
import OliveHc.Device.Links

namespace OliveHc

/-- What deleting item `a` may do to the lists: the item may leave, nothing
else does. -/
structure ItemGone (a : Nat) (s s' : Space) : Prop where
  items : ∀ x, x ≠ a → x ∈ s.items → x ∈ s'.items
  deletedDevices : ∀ d ∈ s.deletedDevices, d ∈ s'.deletedDevices
  order : ∀ d ∈ s.deletedDevices, ∀ n, n ≠ .item a → n ∈ s.order d → n ∈ s'.order d

theorem ItemGone.refl (a : Nat) (s : Space) : ItemGone a s s := ⟨fun _ _ h => h, fun _ h => h, fun _ _ _ _ h => h⟩

/-- What the steps of the loops keep. -/
structure Host.Keeps {σ : Type} (h : Host σ) (P : σ → Prop) : Prop where
  space_withSpace : ∀ s m, h.space (h.withSpace s m) = s
  withSpace_space : ∀ m, h.withSpace (h.space m) m = m
  withSpace_withSpace : ∀ s s' m, h.withSpace s (h.withSpace s' m) = h.withSpace s m
  inv : ∀ m, P m → LinkInv (h.space m)
  fblockDelete : ∀ m f d s', P m → d ∈ (h.space m).deletedDevices → .fblock f ∈ (h.space m).order d →
    (h.space m).deviceFblockDelete f = some s' → P (h.withSpace s' m)
  itemDelete : ∀ m a m', P m → a ∈ (h.space m).items → h.itemDelete a m = some m' →
    P m' ∧ ItemGone a (h.space m) (h.space m')
  close : ∀ m d, P m → d ∈ (h.space m).deletedDevices → ((h.space m).device d).used = 0 →
    P (h.withSpace ((h.space m).setDevice d { (h.space m).device d with fdOpen := false }) m)
  destroy : ∀ m d t, P m → d ∈ (h.space m).deletedDevices → (h.space m).order d = [] →
    (h.space m).deviceIndexs.delete ((h.space m).device d).index = some t →
    P (h.withSpace { h.space m with deletedDevices := (h.space m).deletedDevices.erase d, deviceIndexs := t } m)

namespace Host.Keeps

variable {σ : Type} {h : Host σ} {P : σ → Prop} {m m' : σ}

/-- A device that is deleted is in its list. -/
theorem mem_deleted (k : h.Keeps P) (hP : P m) {d : Nat} {n : Node} (hn : n ∈ (h.space m).order d)
    (hd : ((h.space m).device d).deleted = true) : d ∈ (h.space m).deletedDevices := by
  have hinv := k.inv m hP
  rcases List.mem_append.mp (hinv.order.mem_allDevices hn) with hm | hm
  · rw [hinv.dev.active d hm] at hd
    cases hd
  · exact hm

theorem deviceDeleteItem (k : h.Keeps P) (hP : P m) {n : Option Node}
    (hn : ∀ a, n = some (.item a) → a ∈ (h.space m).items) (hd : h.deviceDeleteItem n m = some m') :
    P m' ∧ ∀ a, n = some (.item a) → ItemGone a (h.space m) (h.space m') := by
  unfold Host.deviceDeleteItem at hd
  split at hd
  · next a =>
    simp only at hd
    split at hd
    · cases hd
      exact ⟨hP, fun _ _ => ItemGone.refl _ _⟩
    · obtain ⟨hP', hgone⟩ := k.itemDelete m a m' hP (hn a rfl) hd
      refine ⟨hP', fun b hb => ?_⟩
      cases hb
      exact hgone
  · next hne =>
    cases hd
    exact ⟨hP, fun a ha => absurd ha (hne a)⟩

/-- **`device_free_block_extend`.** -/
theorem extend (k : h.Keeps P) {target n last : Nat} {ok : Bool} (hP : P m)
    (he : h.extend target n last m = some (ok, m')) : P m' := by
  induction n generalizing m last with
  | zero =>
    cases he
    exact hP
  | succ n ih =>
    unfold Host.extend at he
    have hinv := k.inv m hP
    split at he
    · cases he
      exact hP
    next f hf =>
    simp only at he
    split at he
    · cases he
      exact hP
    split at he
    · cases he
      exact hP
    obtain ⟨d, hd, he⟩ := Option.bind_eq_some_iff.mp he
    have hfd := hinv.order.fblock_mem hinv.dev ((hinv.queue.covers f).mpr (ipbucketBiggest_queue hf)) hd
    split at he
    · next hdel =>
      obtain ⟨s', hs', he⟩ := Option.bind_eq_some_iff.mp he
      exact ih (k.fblockDelete m f d s' hP (k.mem_deleted hP hfd hdel) hfd hs') he
    · obtain ⟨m₁, h₁, he⟩ := Option.bind_eq_some_iff.mp he
      obtain ⟨m₂, h₂, he⟩ := Option.bind_eq_some_iff.mp he
      -- Both neighbours are items of the list, or nothing is done.
      obtain ⟨hprev, hnext⟩ := hinv.neighbours hfd
      have hitem : ∀ a, Node.item a ∈ (h.space m).order d → a ∈ (h.space m).items := fun a ha =>
        Space.mem_nodes_item.mp (hinv.order.mem_nodes ha)
      obtain ⟨hP₁, hgone⟩ := k.deviceDeleteItem hP (fun a ha => hitem a (hprev _ ha).1) h₁
      refine ih (k.deviceDeleteItem hP₁ (fun b hb => ?_) h₂).1 he
      obtain ⟨hbm, -, hbp⟩ := hnext _ hb
      cases hp : listPrev (.fblock f) ((h.space m).order d) with
      | none =>
        rw [hp] at h₁
        cases h₁
        exact hitem b hbm
      | some x =>
        rw [hp] at h₁ hgone hbp
        cases x with
        | fblock g =>
          cases h₁
          exact hitem b hbm
        | item a => exact (hgone a rfl).items b (fun hba => hbp (hba ▸ rfl)) (hitem b hbm)

/-- Deleting a free block leaves the other nodes where they are. -/
theorem mem_order_fblockDelete {s s' : Space} {f d : Nat} {n : Node} (h : s.deviceFblockDelete f = some s')
    (hn : n ≠ .fblock f) (hm : n ∈ s.order d) : n ∈ s'.order d := by
  obtain ⟨e, -, rfl⟩ := Option.map_eq_some_iff.mp h
  by_cases hd : d = e
  · subst hd
    simpa [Space.setOrder] using (List.mem_erase_of_ne hn).mpr hm
  · simpa [Space.setOrder, Space.ipbucketDel, Function.update_of_ne hd] using hm

/-- The walk of `device_destroy` over nodes that are in the list. -/
theorem destroyNodes (k : h.Keeps P) {d : Nat} {l : List Node} (hP : P m) (hd : d ∈ (h.space m).deletedDevices)
    (hl : ∀ n ∈ l, n ∈ (h.space m).order d) (hnd : l.Nodup)
    (hf : l.foldlM (fun m n => h.destroyNode n m) m = some m') :
    P m' ∧ ∀ x ∈ (h.space m).deletedDevices, x ∈ (h.space m').deletedDevices := by
  induction l generalizing m with
  | nil =>
    cases hf
    exact ⟨hP, fun _ hx => hx⟩
  | cons n l ih =>
    obtain ⟨hnl, hnd'⟩ := List.nodup_cons.mp hnd
    rw [List.foldlM_cons] at hf
    obtain ⟨m₁, h₁, hrest⟩ := Option.bind_eq_some_iff.mp hf
    have hmem := hl n (by simp)
    cases n with
    | fblock f =>
      obtain ⟨s', hs', rfl⟩ := Option.map_eq_some_iff.mp h₁
      have hsp := k.space_withSpace s' m
      have hlist := (deviceFblockDelete_same hs').deletedDevices
      obtain ⟨hP', hkeep⟩ := ih (k.fblockDelete m f d s' hP hd hmem hs') (by rwa [hsp, hlist]) (fun n hn => by
        rw [hsp]
        exact mem_order_fblockDelete hs' (fun he => hnl (he ▸ hn)) (hl n (List.mem_cons_of_mem _ hn))) hnd' hrest
      rw [hsp, hlist] at hkeep
      exact ⟨hP', hkeep⟩
    | item a =>
      have ha : a ∈ (h.space m).items :=
        Space.mem_nodes_item.mp (((k.inv m hP).order.owned.covers _).mpr ⟨d, hmem⟩)
      obtain ⟨hP₁, hgone⟩ := k.itemDelete m a m₁ hP ha h₁
      obtain ⟨hP', hkeep⟩ := ih hP₁ (hgone.deletedDevices d hd) (fun n hn =>
        hgone.order d hd n (fun he => hnl (he ▸ hn)) (hl n (List.mem_cons_of_mem _ hn))) hnd' hrest
      exact ⟨hP', fun x hx => hkeep x (hgone.deletedDevices x hx)⟩

/-- **`device_destroy`.** -/
theorem deviceDestroy (k : h.Keeps P) {d : Nat} (hP : P m) (hd : d ∈ (h.space m).deletedDevices)
    (hm : h.deviceDestroy d m = some m') :
    P m' ∧ ∀ x ∈ (h.space m).deletedDevices, x ≠ d → x ∈ (h.space m').deletedDevices := by
  unfold Host.deviceDestroy at hm
  obtain ⟨m₁, h₁, hm⟩ := Option.bind_eq_some_iff.mp hm
  have hnd := (k.inv m hP).order.owned.nodup d
  obtain ⟨hP₁, hkeep⟩ := k.destroyNodes hP hd (fun n hn => List.mem_of_mem_take hn) (hnd.sublist (List.take_sublist _ _)) h₁
  have hd₁ := hkeep d hd
  -- The file is closed, or not.
  obtain ⟨s₂, hs₂, hP₂, hlist⟩ : ∃ s₂, s₂ = (if ((h.space m₁).device d).used = 0 ∧ ((h.space m₁).device d).fdOpen then
      (h.space m₁).setDevice d { (h.space m₁).device d with fdOpen := false } else h.space m₁) ∧
      P (h.withSpace s₂ m₁) ∧ s₂.deletedDevices = (h.space m₁).deletedDevices ∧
      (s₂.device d).index = ((h.space m₁).device d).index := by
    refine ⟨_, rfl, ?_⟩
    split
    · next hc => exact ⟨k.close m₁ d hP₁ hd₁ hc.1, rfl, by simp [Space.setDevice]⟩
    · exact ⟨(k.withSpace_space m₁).symm ▸ hP₁, rfl, rfl⟩
  simp only [← hs₂] at hm
  split at hm
  · cases hm
    refine ⟨hP₂, fun x hx _ => ?_⟩
    rw [k.space_withSpace, hlist.1]
    exact hkeep x hx
  · next hempty =>
    obtain ⟨t, ht, hm⟩ := Option.bind_eq_some_iff.mp hm
    cases hm
    have hdes := k.destroy (h.withSpace s₂ m₁) d t hP₂
    simp only [k.space_withSpace, k.withSpace_withSpace] at hdes ⊢
    rw [hlist.1] at hdes ⊢
    rw [hlist.2] at hdes
    refine ⟨hdes hd₁ (by simpa using hempty) ht, fun x hx hne => ?_⟩
    exact (List.mem_erase_of_ne hne).mpr (hkeep x hx)

theorem destroyDevices (k : h.Keeps P) {l : List Nat} (hP : P m) (hl : ∀ d ∈ l, d ∈ (h.space m).deletedDevices)
    (hnd : l.Nodup) (hm : l.foldlM (fun m d => h.deviceDestroy d m) m = some m') : P m' := by
  induction l generalizing m with
  | nil =>
    cases hm
    exact hP
  | cons d l ih =>
    obtain ⟨hdl, hnd'⟩ := List.nodup_cons.mp hnd
    rw [List.foldlM_cons] at hm
    obtain ⟨m₁, h₁, hrest⟩ := Option.bind_eq_some_iff.mp hm
    obtain ⟨hP₁, hkeep⟩ := k.deviceDestroy hP (hl d (by simp)) h₁
    exact ih hP₁ (fun x hx => hkeep x (hl x (List.mem_cons_of_mem _ hx)) fun he => hdl (he ▸ hx)) hnd' hrest

/-- **`device_routine`.** -/
theorem deviceRoutine (k : h.Keeps P) (hP : P m) (hm : h.deviceRoutine m = some m') : P m' :=
  k.destroyDevices hP (fun _ hd => hd) (List.nodup_append.mp (k.inv m hP).dev.nodup).2.1 hm

end Host.Keeps

end OliveHc
