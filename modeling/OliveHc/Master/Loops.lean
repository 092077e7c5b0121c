/-
The loops of `server.c` that make room.

Whatever deleting one item of the lists and the pass-by loop keep, all ways
to make room keep (`Evictions`). A search for a block ends without one, or
with a block from such a state. What making room does at most to the rest
of the state is `Evicted`.
-/
import OliveHc.Device.Frames
import OliveHc.Master

namespace OliveHc

/-- What the steps of the loops keep. The items of the lists are such that
`Q` holds of them. -/
structure Evictions (rt : Runtime) (Q : Nat → Prop) (P : Master → Prop) : Prop where
  listed : ∀ {m l}, P m → ∀ a ∈ m.lru l, Q a
  itemDelete : ∀ {m a m'}, P m → Q a → m.serverItemDelete rt a = some m' → P m'
  passbys : ∀ {m s count}, P m → P (m.expirePassbys s count (m.passbyLru s).reverse)

namespace Evictions

variable {rt : Runtime} {Q : Nat → Prop} {P : Master → Prop} {m m' : Master} {s a target : Nat}

theorem expireItems (h : Evictions rt Q P) {before count k : Nat} {l : List Nat} (hP : P m) (hl : ∀ a ∈ l, Q a)
    (he : m.expireItems rt s before target count l = some (k, m')) : P m' := by
  induction l generalizing m count with
  | nil =>
    cases he
    exact hP
  | cons a l ih =>
    unfold Master.expireItems at he
    obtain ⟨stop, -, he⟩ := Option.bind_eq_some_iff.mp he
    split at he
    · cases he
      exact hP
    · obtain ⟨m₁, h₁, he⟩ := Option.bind_eq_some_iff.mp he
      have hP₁ := h.itemDelete hP (hl a List.mem_cons_self) h₁
      split at he
      · cases he
        exact hP₁
      · exact ih hP₁ (fun b hb => hl b (List.mem_cons_of_mem a hb)) he

theorem serverItemExpire (h : Evictions rt Q P) (hP : P m) (he : m.serverItemExpire rt s target = some m') : P m' := by
  unfold Master.serverItemExpire at he
  obtain ⟨⟨count, m₁⟩, h₁, he⟩ := Option.bind_eq_some_iff.mp he
  cases he
  exact h.passbys (h.expireItems hP (fun a ha => h.listed hP a (List.mem_reverse.mp ha)) h₁)

theorem expireShared (h : Evictions rt Q P) {size count : Nat} {l : List Nat} (hP : P m) (hl : ∀ a ∈ l, Q a)
    (he : m.expireShared rt target size count l = some m') : P m' := by
  induction l generalizing m size count with
  | nil =>
    cases he
    exact hP
  | cons a l ih =>
    unfold Master.expireShared at he
    obtain ⟨stop, -, he⟩ := Option.bind_eq_some_iff.mp he
    split at he
    · cases he
      exact hP
    · obtain ⟨m₁, h₁, he⟩ := Option.bind_eq_some_iff.mp he
      have hP₁ := h.itemDelete hP (hl a List.mem_cons_self) h₁
      split at he
      · cases he
        exact hP₁
      · exact ih hP₁ (fun b hb => hl b (List.mem_cons_of_mem a hb)) he

theorem serverSharedExpire (h : Evictions rt Q P) (hP : P m) (he : m.serverSharedExpire rt target = some m') : P m' :=
  h.expireShared hP (fun a ha => h.listed hP a (List.mem_reverse.mp ha)) he

/-- The first loop of `server_routine`. -/
theorem expireServers (h : Evictions rt Q P) {f : Master → Nat → Nat} {l : List Nat} (hP : P m)
    (he : l.foldlM (fun m s => m.serverItemExpire rt s (f m s)) m = some m') : P m' := by
  induction l generalizing m with
  | nil =>
    cases he
    exact hP
  | cons s l ih =>
    rw [List.foldlM_cons] at he
    obtain ⟨m₁, h₁, he⟩ := Option.bind_eq_some_iff.mp he
    exact ih (h.serverItemExpire hP h₁) he

/-- What the search for a block of item `a` ends with. -/
def Searched (P : Master → Prop) (a k : Nat) (m' : Master) : Prop :=
  (k = 0 ∧ P m') ∨ (k ≠ 0 ∧ ∃ m₁ s', P m₁ ∧ m₁.space.deviceGetFreeBlock a = some (k, s') ∧ m' = { m₁ with space := s' })

/-- **`try_again`.** -/
theorem tryAgain (h : Evictions rt Q P)
    (hmiss : ∀ {m s'}, P m → m.space.deviceGetFreeBlock a = some (0, s') → P { m with space := s' })
    (hextend : ∀ {m ok m'}, P m → (Master.host rt).deviceFreeBlockExtend (m.space.item a).length m = some (ok, m') → P m')
    {fuel tries k : Nat} (hP : P m) (ht : m.tryAgain rt s a fuel tries = some (k, m')) : Searched P a k m' := by
  induction fuel generalizing m tries with
  | zero | succ fuel ih =>
    unfold Master.tryAgain at ht
    obtain ⟨⟨bsize, s'⟩, hg, ht⟩ := Option.bind_eq_some_iff.mp ht
    simp only at ht
    split at ht
    · next hne =>
      cases ht
      exact .inr ⟨hne, m, s', hP, hg, rfl⟩
    next hzero =>
    have hzero : bsize = 0 := by simpa using hzero
    subst hzero
    have hP₁ := hmiss hP hg
    first
    | cases ht
      exact .inl ⟨rfl, hP₁⟩
    | -- Each branch makes room and searches again.
      split at ht
      · obtain ⟨m₂, h₂, ht⟩ := Option.bind_eq_some_iff.mp ht
        exact ih (h.serverItemExpire hP₁ h₂) ht
      split at ht
      · obtain ⟨m₂, h₂, ht⟩ := Option.bind_eq_some_iff.mp ht
        exact ih (h.serverSharedExpire hP₁ h₂) ht
      split at ht
      · obtain ⟨m₂, h₂, ht⟩ := Option.bind_eq_some_iff.mp ht
        exact ih (h.serverItemExpire hP₁ h₂) ht
      split at ht
      · obtain ⟨⟨ok, m₂⟩, h₂, ht⟩ := Option.bind_eq_some_iff.mp ht
        exact ih (hextend hP₁ h₂) ht
      · cases ht
        exact .inl ⟨rfl, hP₁⟩

end Evictions

/-! ## Deleting an item -/

namespace Master

variable {rt : Runtime} {m m' : Master} {a : Nat}

/-- The first time `server_item_delete` sees an item, it leaves the hash. -/
def unhash (s a : Nat) (m : Master) : Master :=
  if (m.space.item a).deleted then m else m.unlink s ⟨(m.space.item a).id, .item a⟩

theorem unhash_eq (s a : Nat) (m : Master) : m.unhash s a = { m with hash := (m.unhash s a).hash } := by
  unfold unhash
  split <;> rfl

/-- Item `a` of server `s` gives back its block of `bsize` bytes. -/
def dropItem (s a bsize : Nat) (sp : Space) (m : Master) : Master :=
  let x := m.server s
  { ((m.unhash s a).lruDel a).setServer s { x with
      content := sizeSub x.content (m.space.item a).length
      consumed := sizeSub x.consumed bsize
      itemNr := x.itemNr - 1 } with
    space := sp.itemFree a }

/-- `server_item_delete`. -/
inductive ItemDeleteCase (rt : Runtime) (a : Nat) (m : Master) : Master → Prop
  | marked {s : Nat} : a ∈ m.space.items → m.serverOfItem a = some s →
      (m.space.item a).used ≠ 0 ∨ (m.space.item a).putting = true →
      ItemDeleteCase rt a m ((m.unhash s a).setItem a { m.space.item a with deleted := true })
  | freed {s k : Nat} {sp : Space} : a ∈ m.space.items → m.serverOfItem a = some s →
      ¬((m.space.item a).used ≠ 0 ∨ (m.space.item a).putting = true) →
      m.space.deviceReturnFreeBlock rt.al a = some (k, sp) → ItemDeleteCase rt a m (m.dropItem s a k sp)

theorem serverItemDelete_cases (h : m.serverItemDelete rt a = some m') : ItemDeleteCase rt a m m' := by
  unfold serverItemDelete at h
  split at h
  · cases h
  next ha =>
  have ha : a ∈ m.space.items := by simpa using ha
  obtain ⟨s, hs, h⟩ := Option.bind_eq_some_iff.mp h
  replace h : (if (m.space.item a).used ≠ 0 ∨ (m.space.item a).putting = true then
      some ((m.unhash s a).setItem a { m.space.item a with deleted := true })
    else ((m.unhash s a).space.deviceReturnFreeBlock rt.al a).bind fun x => some
      { ((m.unhash s a).lruDel a).setServer s { (m.unhash s a).server s with
          content := sizeSub ((m.unhash s a).server s).content (m.space.item a).length
          consumed := sizeSub ((m.unhash s a).server s).consumed x.1
          itemNr := ((m.unhash s a).server s).itemNr - 1 } with
        space := x.2.itemFree a }) = some m' := h
  split at h
  · next hu =>
    cases h
    exact .marked ha hs hu
  · next hu =>
    obtain ⟨⟨k, sp⟩, hk, h⟩ := Option.bind_eq_some_iff.mp h
    cases h
    have hserver : (m.unhash s a).server = m.server := by rw [unhash_eq]
    rw [unhash_eq] at hk
    rw [hserver]
    exact .freed ha hs hu hk

end Master

/-! ## What making room does at most -/

/-- Items may go, unless they are in use, or be marked as deleted; the rest is
what the deletions do to the hashes, lists, counters and free blocks. -/
structure Evicted (m m' : Master) : Prop where
  now : m'.now = m.now
  number : m'.number = m.number
  log : m'.log = m.log
  request : m'.request = m.request
  requests : m'.requests = m.requests
  servers : m'.servers = m.servers
  deletedServers : m'.deletedServers = m.deletedServers
  serverIndexs : m'.serverIndexs = m.serverIndexs
  serverTotal : m'.serverTotal = m.serverTotal
  server : ∀ s, ∃ c n k p, m'.server s =
    { m.server s with consumed := c, content := n, itemNr := k, passbyItemNr := p }
  items : m'.space.items.Sublist m.space.items
  item : ∀ a, ∃ del, m'.space.item a = { m.space.item a with deleted := del } ∧ ((m.space.item a).deleted = true → del = true)
  inUse : ∀ a ∈ m.space.items, (m.space.item a).used ≠ 0 ∨ (m.space.item a).putting = true → a ∈ m'.space.items
  lru : ∀ l, (m'.lru l).Sublist (m.lru l)
  hash : ∀ s n, (m'.hash s).Has n → (m.hash s).Has n

namespace Evicted

variable {rt : Runtime} {m m' m'' : Master} {s a target : Nat}

theorem refl (m : Master) : Evicted m m where
  now := rfl
  number := rfl
  log := rfl
  request := rfl
  requests := rfl
  servers := rfl
  deletedServers := rfl
  serverIndexs := rfl
  serverTotal := rfl
  server _ := ⟨_, _, _, _, rfl⟩
  items := .refl _
  item _ := ⟨_, rfl, id⟩
  inUse _ ha _ := ha
  lru _ := .refl _
  hash _ _ hn := hn

theorem trans (h : Evicted m m') (h' : Evicted m' m'') : Evicted m m'' where
  now := h'.now.trans h.now
  number := h'.number.trans h.number
  log := h'.log.trans h.log
  request := h'.request.trans h.request
  requests := h'.requests.trans h.requests
  servers := h'.servers.trans h.servers
  deletedServers := h'.deletedServers.trans h.deletedServers
  serverIndexs := h'.serverIndexs.trans h.serverIndexs
  serverTotal := h'.serverTotal.trans h.serverTotal
  server s := by
    obtain ⟨c, n, k, p, hs⟩ := h.server s
    obtain ⟨c', n', k', p', hs'⟩ := h'.server s
    exact ⟨c', n', k', p', by rw [hs', hs]⟩
  items := h'.items.trans h.items
  item a := by
    obtain ⟨x, hx, hd⟩ := h.item a
    obtain ⟨x', hx', hd'⟩ := h'.item a
    refine ⟨x', by rw [hx', hx], fun hdel => hd' ?_⟩
    rw [hx]
    exact hd hdel
  inUse a ha hu := by
    obtain ⟨x, hx, -⟩ := h.item a
    refine h'.inUse a (h.inUse a ha hu) ?_
    rwa [hx]
  lru l := (h'.lru l).trans (h.lru l)
  hash s n hn := h.hash s n (h'.hash s n hn)

/-- The hash of a server without one of its nodes. -/
theorem unlink (s : Nat) (n : HashNode Entry) (m : Master) : Evicted m (m.unlink s n) := by
  refine { refl m with hash := fun x k hk => ?_ }
  have hk : (Function.update m.hash s (hashDel (m.hash s) n) x).Has k := hk
  by_cases hx : x = s
  · rw [hx, Function.update_self] at hk
    rw [hx]
    exact (hashDel_has.mp hk).1
  · rwa [Function.update_of_ne hx] at hk

/-- Something that is not in `Evicted` was changed before. -/
theorem space {sp : Space} (h : Evicted m m') (hs : ItemsSame m'.space sp) : Evicted m { m' with space := sp } where
  __ := h
  items := by
    show sp.items.Sublist _
    rw [hs.items]
    exact h.items
  item a := by
    show ∃ del, sp.item a = _ ∧ _
    rw [hs.item]
    exact h.item a
  inUse a ha hu := by
    show a ∈ sp.items
    rw [hs.items]
    exact h.inUse a ha hu

/-- **`server_item_delete`.** -/
theorem serverItemDelete (h : m.serverItemDelete rt a = some m') : Evicted m m' := by
  unfold Master.serverItemDelete at h
  split at h
  · cases h
  next ha =>
  obtain ⟨s, -, h⟩ := Option.bind_eq_some_iff.mp h
  -- The hash is none of the fields.
  obtain ⟨m₁, hm₁, h₁, hsp₁⟩ : ∃ m₁, (if (m.space.item a).deleted = true then m else
      m.unlink s ⟨(m.space.item a).id, .item a⟩) = m₁ ∧ Evicted m m₁ ∧ m₁.space = m.space := by
    refine ⟨_, rfl, ?_⟩
    split
    · exact ⟨refl m, rfl⟩
    · exact ⟨unlink .., rfl⟩
  simp only [hm₁] at h
  split at h
  · cases h
    refine h₁.trans { refl m₁ with item := fun b => ?_ }
    show ∃ del, Function.update m₁.space.item a _ b = _ ∧ _
    by_cases hb : b = a
    · subst hb
      rw [Function.update_self, hsp₁]
      exact ⟨true, rfl, fun _ => rfl⟩
    · rw [Function.update_of_ne hb]
      exact ⟨_, rfl, id⟩
  · next hfree =>
    obtain ⟨⟨k, sp⟩, hk, h⟩ := Option.bind_eq_some_iff.mp h
    cases h
    have hsame := ItemsSame.returnFreeBlock hk
    refine h₁.trans { refl m₁ with
      server := fun x => ?_, items := ?_, item := fun b => ?_, inUse := fun b hb hu => ?_, lru := fun l => ?_ }
    · show ∃ c n k p, Function.update m₁.server s _ x = _
      by_cases hx : x = s
      · subst hx
        rw [Function.update_self]
        exact ⟨_, _, _, _, rfl⟩
      · rw [Function.update_of_ne hx]
        exact ⟨_, _, _, _, rfl⟩
    · show (sp.items.filter _).Sublist _
      rw [hsame.items]
      exact List.filter_sublist
    · show ∃ del, sp.item b = _ ∧ _
      rw [hsame.item]
      exact ⟨_, rfl, id⟩
    · show b ∈ sp.items.filter _
      have hba : b ≠ a := fun hba => hfree (hsp₁ ▸ hba ▸ hu)
      rw [hsame.items, List.mem_filter]
      exact ⟨hb, by simpa using hba⟩
    · exact List.erase_sublist

theorem passbyItemDelete (s p : Nat) (m : Master) : Evicted m (m.serverPassbyItemDelete s p) := by
  refine { unlink s ⟨(m.passby p).id, .passby p⟩ m with server := fun x => ?_ }
  show ∃ c n k p, Function.update m.server s _ x = _
  by_cases hx : x = s
  · subst hx
    rw [Function.update_self]
    exact ⟨_, _, _, _, rfl⟩
  · rw [Function.update_of_ne hx]
    exact ⟨_, _, _, _, rfl⟩

theorem expirePassbys {l : List Nat} {count : Nat} : Evicted m (m.expirePassbys s count l) := by
  induction l generalizing m count with
  | nil => exact refl m
  | cons p l ih =>
    unfold Master.expirePassbys
    simp only
    split
    · exact refl m
    · split
      · exact passbyItemDelete s p m
      · exact (passbyItemDelete s p m).trans ih

/-- The ways to make room. -/
theorem evictions (rt : Runtime) (m : Master) : Evictions rt (fun _ => True) (Evicted m) :=
  ⟨fun _ _ _ => trivial, fun h _ hd => h.trans (serverItemDelete hd), fun h => h.trans expirePassbys⟩

theorem steps (rt : Runtime) (m : Master) : (Master.host rt).Steps (Evicted m) :=
  ⟨fun h hs => h.space (.fblockDelete hs), fun h hd => h.trans (serverItemDelete hd), fun h => h.space ⟨rfl, rfl⟩⟩

end Evicted

/-! ## The routine -/

namespace Evictions

variable {rt : Runtime} {Q : Nat → Prop} {P : Master → Prop} {m m' : Master} {s : Nat}

/-- What freeing a server with its slot keeps as well. -/
structure Frees (P : Master → Prop) : Prop where
  nodup : ∀ {m}, P m → m.deletedServers.Nodup
  free : ∀ {m s t}, P m → s ∈ m.deletedServers → m.serverIndexs.delete (m.server s).index = some t →
    (m.server s).itemNr = 0 → (m.server s).passbyItemNr = 0 →
    P { m with deletedServers := m.deletedServers.erase s, serverIndexs := t }

theorem serverDestroy (h : Evictions rt Q P) (hf : Frees P) (hP : P m) (hs : s ∈ m.deletedServers)
    (hd : m.serverDestroy rt s = some m') : P m' ∧ ∀ x ∈ m.deletedServers, x ≠ s → x ∈ m'.deletedServers := by
  unfold Master.serverDestroy at hd
  obtain ⟨m₁, h₁, hd⟩ := Option.bind_eq_some_iff.mp hd
  have hP₁ := h.serverItemExpire hP h₁
  have he := (Evicted.evictions rt m).serverItemExpire (.refl m) h₁
  split at hd
  · cases hd
    exact ⟨hP₁, fun x hx _ => he.deletedServers ▸ hx⟩
  · next hzero =>
    obtain ⟨hi, hp⟩ := not_or.mp hzero
    obtain ⟨t, ht, hd⟩ := Option.bind_eq_some_iff.mp hd
    cases hd
    exact ⟨hf.free hP₁ (he.deletedServers ▸ hs) ht (not_not.mp hi) (not_not.mp hp),
      fun x hx hne => (List.mem_erase_of_ne hne).mpr (he.deletedServers ▸ hx)⟩

theorem serverDestroys (h : Evictions rt Q P) (hf : Frees P) {l : List Nat} (hP : P m) (hl : l.Nodup)
    (hsub : ∀ s ∈ l, s ∈ m.deletedServers) (hd : l.foldlM (fun m s => m.serverDestroy rt s) m = some m') : P m' := by
  induction l generalizing m with
  | nil =>
    cases hd
    exact hP
  | cons s l ih =>
    rw [List.foldlM_cons] at hd
    obtain ⟨m₁, h₁, hd⟩ := Option.bind_eq_some_iff.mp hd
    obtain ⟨hs, hl⟩ := List.nodup_cons.mp hl
    obtain ⟨hP₁, hkeep⟩ := h.serverDestroy hf hP (hsub s List.mem_cons_self) h₁
    exact ih hP₁ hl (fun x hx => hkeep x (hsub x (List.mem_cons_of_mem s hx)) fun hne => hs (hne ▸ hx)) hd

/-- **`server_routine`.** -/
theorem serverRoutine (h : Evictions rt Q P) (hf : Frees P) (hP : P m) (hr : m.serverRoutine rt = some m') : P m' := by
  unfold Master.serverRoutine at hr
  obtain ⟨m₁, h₁, hr⟩ := Option.bind_eq_some_iff.mp hr
  obtain ⟨m₂, h₂, hr⟩ := Option.bind_eq_some_iff.mp hr
  have hP₂ := h.serverSharedExpire (h.expireServers hP h₁) h₂
  exact h.serverDestroys hf hP₂ (hf.nodup hP₂) (fun _ hs => hs) hr

end Evictions

end OliveHc
