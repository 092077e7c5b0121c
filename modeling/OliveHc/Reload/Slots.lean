/-
The slots of `server_indexs` and `device_indexs` over any sequence of loads.

A running object keeps its slot until it is destroyed, also after a load
has moved it to the deleted ones. The check of a load counts the deleted
objects and the entries of the new file; it does not count the running ones
that the file does not name, which will be deleted and still have their
slots when the new ones are added.
-/
import OliveHc.Master
import OliveHc.Reload.Plan
import OliveHc.Reload.Rollback

namespace OliveHc

/-- What `idx_pointer_add` has to do for an object: a slot that was empty now
holds it. -/
structure Placed (t t' : IdxPointer) (index : Int) (x : Nat) : Prop where
  range : 0 ≤ index ∧ index < iptArraySize
  empty : t.get index = none
  get : t'.get index = some x

/-- A slot that is empty later was empty before. -/
theorem Placed.earlier {t t₁ t' : IdxPointer} {index : Int} {x : Nat} (h : Placed t₁ t' index x) (ht : t.Extends t₁) :
    Placed t t' index x := by
  refine ⟨h.range, ?_, h.get⟩
  cases hi : t.get index with
  | none => rfl
  | some y =>
    have := ht _ _ hi
    rw [h.empty] at this
    cases this

theorem Placed.later {t t₁ t' : IdxPointer} {index : Int} {x : Nat} (h : Placed t t₁ index x) (ht : t₁.Extends t') :
    Placed t t' index x :=
  ⟨h.range, h.empty, ht _ _ h.get⟩

/-- An `add` while there is a slot left. -/
theorem IdxPointer.Inv.placed {t t' : IdxPointer} {p : Nat} {i : Int} (h : t.Inv) (hfree : t.occupied < iptArraySize)
    (ha : t.add p = some (i, t')) : Placed t t' i p ∧ t'.Inv ∧ t'.occupied = t.occupied + 1 := by
  obtain ⟨j, t'', hj, hne⟩ := h.add_succeeds hfree p
  obtain ⟨rfl, rfl⟩ : i = j ∧ t' = t'' := by simpa using ha.symm.trans hj
  rcases IdxPointer.add_cases ha with ⟨hi, -⟩ | ⟨h0, hlt, hnone, hget, -⟩
  · exact absurd hi hne
  · exact ⟨⟨⟨h0, hlt⟩, hnone, hget⟩, h.add ha, IdxPointer.occupied_add ha hne⟩

/-! ## Devices -/

namespace Space

variable {al : Allocator} {s s' : Space} {plan : List DevicePlan}

/-- The device objects that are no copies of a kicked one. -/
def registered (s : Space) : List Nat := s.allDevices.filter fun d => !(s.device d).kicked

theorem mem_registered {d : Nat} : d ∈ s.registered ↔ d ∈ s.allDevices ∧ (s.device d).kicked = false := by
  simp [registered]

/-- Every registered device is in its slot, and no free slot is overlooked. -/
structure SlotInv (s : Space) : Prop where
  table : s.deviceIndexs.Inv
  get : ∀ d ∈ s.registered, s.deviceIndexs.get (s.device d).index = some d
  nodup : s.allDevices.Nodup
  gone : ∀ d ∈ s.deletedDevices, (s.device d).kicked = false

/-- Nothing is registered, and the table stays. -/
structure SlotsKept (s s' : Space) : Prop where
  table : s'.deviceIndexs = s.deviceIndexs
  registered : ∀ d ∈ s'.registered, d ∈ s.registered ∧ (s'.device d).index = (s.device d).index
  nodup : s.allDevices.Nodup → s'.allDevices.Nodup
  gone : (∀ d ∈ s.deletedDevices, (s.device d).kicked = false) → ∀ d ∈ s'.deletedDevices, (s'.device d).kicked = false

theorem SlotsKept.inv (h : SlotsKept s s') (hs : SlotInv s) : SlotInv s' := by
  refine ⟨h.table ▸ hs.table, fun d hd => ?_, h.nodup hs.nodup, h.gone hs.gone⟩
  obtain ⟨hmem, hindex⟩ := h.registered d hd
  rw [h.table, hindex]
  exact hs.get d hmem

/-- How many devices an accepted configuration adds. -/
def newDevices (plan : List DevicePlan) : Nat := plan.countP fun p => p.existing.isNone

theorem deviceDelete_kept {d : Nat} (hd : d ∈ s.devices) : SlotsKept s (s.deviceDelete d) := by
  refine ⟨(deviceDelete_frame d s).2.2.1, fun x hx => ?_, fun hnd => ?_, fun hgone => ?_⟩
  rotate_left
  · unfold deviceDelete
    simp only
    split
    · exact hnd.sublist ((List.erase_sublist).append_right _)
    · exact (((List.perm_cons_erase hd).append_right _).trans List.perm_middle.symm).nodup hnd
  · unfold deviceDelete
    simp only
    split
    · exact hgone
    · next hkd =>
      intro x hx
      by_cases hxd : x = d
      · subst hxd
        simpa [setDevice] using hkd
      · rw [List.mem_cons, or_iff_right hxd] at hx
        simpa [setDevice, hxd] using hgone x hx
  obtain ⟨hmem, hk⟩ := mem_registered.mp hx
  rw [mem_registered]
  unfold deviceDelete at hmem hk ⊢
  simp only at hmem hk ⊢
  split at hmem
  · next hkd =>
    rw [if_pos hkd] at hk
    rw [if_pos hkd]
    simp only [allDevices, List.mem_append] at hmem ⊢
    exact ⟨⟨hmem.imp List.mem_of_mem_erase id, hk⟩, trivial⟩
  · next hkd =>
    rw [if_neg hkd] at hk
    rw [if_neg hkd]
    simp only [allDevices, setDevice, List.mem_append, List.mem_cons] at hmem hk ⊢
    by_cases hxd : x = d
    · subst hxd
      exact ⟨⟨.inl hd, by simpa using hk⟩, by simp⟩
    · simp only [hxd, false_or, ne_eq, not_false_eq_true, Function.update_of_ne] at hmem hk ⊢
      exact ⟨⟨hmem.imp List.mem_of_mem_erase id, hk⟩, trivial⟩

theorem deviceDeletes_slots {l : List Nat} (h : SlotInv s) (hl : l.Nodup) (hmem : ∀ d ∈ l, d ∈ s.devices) :
    SlotInv (l.foldl (fun s d => s.deviceDelete d) s) := by
  induction l generalizing s with
  | nil => exact h
  | cons d l ih =>
    obtain ⟨hd, hl'⟩ := List.nodup_cons.mp hl
    refine ih ((deviceDelete_kept (hmem d (by simp))).inv h) hl' fun x hx => ?_
    rw [(deviceDelete_frame d s).1]
    have hne : x ≠ d := fun he => hd (he ▸ hx)
    exact (List.mem_erase_of_ne hne).mpr (hmem x (by simp [hx]))

/-- A new device takes a slot. -/
theorem deviceAdd_slots {d file capacity : Nat} (h : SlotInv s) (hd : d ∉ s.allDevices) (hfree : s.deviceIndexs.occupied < iptArraySize)
    (hadd : s.deviceAdd al d file capacity = some s') :
    SlotInv s' ∧ s'.deviceIndexs.occupied = s.deviceIndexs.occupied + 1 ∧
      Placed s.deviceIndexs s'.deviceIndexs (s'.device d).index d ∧ s.deviceIndexs.Extends s'.deviceIndexs := by
  obtain ⟨hdev, hdel, -, hkeep, -, hidx⟩ := deviceAdd_frame hadd
  obtain ⟨hplaced, hinv, hocc⟩ := h.table.placed hfree hidx
  have hext := IdxPointer.add_extends hidx
  refine ⟨⟨hinv, fun x hx => ?_, ?_, fun x hx => ?_⟩, hocc, hplaced, hext⟩
  rotate_right
  · rw [hdel] at hx
    rw [hkeep x fun he => hd (List.mem_append_right _ (he ▸ hx))]
    exact h.gone x hx
  · by_cases hxd : x = d
    · subst hxd
      exact hplaced.get
    · obtain ⟨hmem, hk⟩ := mem_registered.mp hx
      rw [hkeep x hxd] at hk ⊢
      refine hext _ _ (h.get x (mem_registered.mpr ⟨?_, hk⟩))
      simp only [allDevices, hdev, hdel, List.mem_append, List.mem_singleton, hxd, or_false] at hmem
      exact List.mem_append.mpr hmem
  · rw [allDevices, hdev, hdel]
    exact ((List.perm_append_singleton d _).append_right _).symm.nodup (List.nodup_cons.mpr ⟨hd, h.nodup⟩)

/-- The devices that the entries of a plan add. -/
theorem loadDevices_slots (h : SlotInv s) (hfree : s.deviceIndexs.occupied + newDevices plan ≤ iptArraySize)
    (hex : ∀ p ∈ plan, ∀ d, p.existing = some d → d ∈ s.devices)
    (hl : plan.foldlM (fun s p => s.loadDevice al p) s = some s') :
    SlotInv s' ∧ s.deviceIndexs.Extends s'.deviceIndexs ∧ (∀ d ∈ s.devices, s'.device d = s.device d) ∧
      ∀ d ∈ s'.devices, d ∈ s.devices ∨ Placed s.deviceIndexs s'.deviceIndexs (s'.device d).index d := by
  induction plan generalizing s with
  | nil =>
    cases hl
    exact ⟨h, .refl _, fun _ _ => rfl, fun d hd => .inl hd⟩
  | cons p plan ih =>
    rw [List.foldlM_cons] at hl
    obtain ⟨s₁, h₁, hl⟩ := Option.bind_eq_some_iff.mp hl
    cases hp : p.existing with
    | some d =>
      have hs₁ : s₁ = { s with devices := s.devices.erase d ++ [d] } := by
        unfold loadDevice at h₁
        rw [hp] at h₁
        exact (Option.some.inj h₁).symm
      have hd := hex p (by simp) d hp
      have hmem : ∀ x, x ∈ s₁.devices ↔ x ∈ s.devices := by
        intro x
        rw [hs₁, List.mem_append, List.mem_singleton]
        by_cases hx : x = d
        · simp [hx, hd]
        · simp [hx, List.mem_erase_of_ne hx]
      have hkept : SlotsKept s s₁ := by
        refine ⟨by rw [hs₁], fun x hx => ?_, fun hnd => ?_, fun hgone => hs₁ ▸ hgone⟩
        rotate_left
        · rw [hs₁]
          exact ((((List.perm_cons_erase hd).trans (List.perm_append_singleton d _).symm)).append_right _).nodup hnd
        obtain ⟨hx, hk⟩ := mem_registered.mp hx
        rw [allDevices, List.mem_append, hmem] at hx
        rw [hs₁] at hx hk ⊢
        exact ⟨mem_registered.mpr ⟨by simpa [allDevices] using hx, hk⟩, rfl⟩
      have hcount : newDevices (p :: plan) = newDevices plan := by simp [newDevices, hp]
      obtain ⟨hinv, hext, hsame, hall⟩ := ih (hkept.inv h) (by rw [hkept.table, ← hcount]; exact hfree)
        (fun q hq x hx => (hmem x).mpr (hex q (by simp [hq]) x hx)) hl
      rw [hkept.table] at hext hall
      refine ⟨hinv, hext, fun x hx => ?_, fun x hx => (hall x hx).imp (hmem x).mp id⟩
      rw [hsame x ((hmem x).mpr hx), hs₁]
    | none =>
      unfold loadDevice at h₁
      rw [hp] at h₁
      obtain ⟨d, hd, h₁⟩ := Option.bind_eq_some_iff.mp h₁
      have hfresh : d ∉ s.allDevices := al.fresh hd
      have hcount : newDevices (p :: plan) = newDevices plan + 1 := by simp [newDevices, hp]
      have h0 : SlotInv { s with ticks := s.ticks + 1 } := ⟨h.table, h.get, h.nodup, h.gone⟩
      obtain ⟨hinv₁, hocc, hplaced, hext₁⟩ := deviceAdd_slots h0 hfresh (by simp only; omega) h₁
      obtain ⟨hdev, -, -, hkeep, -, -⟩ := deviceAdd_frame h₁
      simp only at hocc hplaced hext₁ hdev hkeep
      have hin : ∀ x ∈ s.devices, x ∈ s₁.devices := fun x hx => hdev ▸ List.mem_append_left _ hx
      obtain ⟨hinv, hext, hsame, hall⟩ := ih hinv₁ (by omega) (fun q hq x hx => hin x (hex q (by simp [hq]) x hx)) hl
      refine ⟨hinv, hext₁.trans hext, fun x hx => ?_, fun x hx => ?_⟩
      · rw [hsame x (hin x hx), hkeep x fun he => hfresh (List.mem_append_left _ (he ▸ hx))]
      · rcases hall x hx with hx | hx
        · rw [hdev, List.mem_append, List.mem_singleton] at hx
          rcases hx with hx | rfl
          · exact .inl hx
          · rw [hsame x (by simp [hdev])]
            exact .inr (hplaced.later hext)
        · exact .inr (hx.earlier hext₁)

/-- **A load and the slots of the devices.** -/
theorem deviceConfLoad_slots {conf : Conf} (h : SlotInv s) (hplan : DevicePlanOk s plan)
    (hfree : s.deviceIndexs.occupied + newDevices plan ≤ iptArraySize) (hl : s.deviceConfLoad al conf plan = some s') :
    SlotInv s' ∧ s.deviceIndexs.Extends s'.deviceIndexs ∧ ∀ d ∈ s'.devices, some d ∈ plan.map DevicePlan.existing ∨
      Placed s.deviceIndexs s'.deviceIndexs (s'.device d).index d := by
  unfold deviceConfLoad at hl
  obtain ⟨h1, -, h3, -⟩ := deviceDeletes_frame (s.droppedDevices plan) { s with badblockPercent := conf.badblockPercent }
  have hnd := (List.nodup_append.mp h.nodup).1
  have hstay : s.devices.diff (s.droppedDevices plan) = _ := diff_dropped hnd
  have hinv : SlotInv ((s.droppedDevices plan).foldl (fun s d => s.deviceDelete d)
      { s with badblockPercent := conf.badblockPercent }) :=
    deviceDeletes_slots ⟨h.table, h.get, h.nodup, h.gone⟩ (hnd.filter _) fun d hd => List.mem_of_mem_filter hd
  obtain ⟨hinv', hext, -, hall⟩ := loadDevices_slots hinv (by rw [h3]; exact hfree) (fun p hp d hd => by
    rw [h1]
    show d ∈ s.devices.diff (s.droppedDevices plan)
    rw [hstay, mem_pending]
    exact ⟨(searchInode_eq_some ((hplan.existing p hp).symm.trans hd)).1, List.mem_map.mpr ⟨p, hp, hd⟩⟩) hl
  rw [h3] at hext hall
  refine ⟨hinv', hext, fun d hd => (hall d hd).imp (fun hd => ?_) id⟩
  rw [h1] at hd
  exact (mem_pending.mp (hstay ▸ hd)).2

end Space

/-! ## Servers -/

namespace Master

variable {m m' : Master} {plan : List ServerPlan}

/-- Every server is in its slot, and no free slot is overlooked. -/
structure SlotInv (m : Master) : Prop where
  table : m.serverIndexs.Inv
  get : ∀ s ∈ m.allServers, m.serverIndexs.get (m.server s).index = some s
  total : ∀ s ∈ m.allServers, s < m.serverTotal
  nodup : m.allServers.Nodup

/-- No server is created, and the table stays. -/
structure SlotsKept (m m' : Master) : Prop where
  table : m'.serverIndexs = m.serverIndexs
  total : m'.serverTotal = m.serverTotal
  allServers : ∀ s ∈ m'.allServers, s ∈ m.allServers ∧ (m'.server s).index = (m.server s).index
  nodup : m.allServers.Nodup → m'.allServers.Nodup

theorem SlotsKept.inv (h : SlotsKept m m') (hm : SlotInv m) : SlotInv m' := by
  refine ⟨h.table ▸ hm.table, fun s hs => ?_, fun s hs => h.total ▸ hm.total s (h.allServers s hs).1, h.nodup hm.nodup⟩
  obtain ⟨hmem, hindex⟩ := h.allServers s hs
  rw [h.table, hindex]
  exact hm.get s hmem

/-- How many servers an accepted configuration adds. -/
def newServers (plan : List ServerPlan) : Nat := plan.countP fun p => p.existing.isNone

theorem serverDelete_kept {s : Nat} (hs : s ∈ m.servers) : SlotsKept m (m.serverDelete s) := by
  refine ⟨rfl, rfl, fun x hx => ?_, fun hnd =>
    (((List.perm_cons_erase hs).append_right _).trans List.perm_middle.symm).nodup hnd⟩
  simp only [allServers, serverDelete, setServer, List.mem_append, List.mem_cons] at hx ⊢
  by_cases hxs : x = s
  · subst hxs
    exact ⟨.inl hs, by simp⟩
  · simp only [hxs, false_or, ne_eq, not_false_eq_true, Function.update_of_ne] at hx ⊢
    exact ⟨hx.imp List.mem_of_mem_erase id, trivial⟩

theorem serverDeletes_slots {l : List Nat} (h : SlotInv m) (hl : l.Nodup) (hmem : ∀ s ∈ l, s ∈ m.servers) :
    SlotInv (l.foldl (fun m s => m.serverDelete s) m) := by
  induction l generalizing m with
  | nil => exact h
  | cons s l ih =>
    obtain ⟨hs, hl'⟩ := List.nodup_cons.mp hl
    refine ih ((serverDelete_kept (hmem s (by simp))).inv h) hl' fun x hx => ?_
    have hne : x ≠ s := fun he => hs (he ▸ hx)
    exact (List.mem_erase_of_ne hne).mpr (hmem x (by simp [hx]))

/-- A new server takes a slot. -/
theorem serverCreate_slots {conf : ServerConf} (h : SlotInv m) (hfree : m.serverIndexs.occupied < iptArraySize)
    (hc : m.serverCreate conf = some m') :
    SlotInv m' ∧ m'.serverIndexs.occupied = m.serverIndexs.occupied + 1 ∧
      Placed m.serverIndexs m'.serverIndexs (m'.server m.serverTotal).index m.serverTotal ∧
      m.serverIndexs.Extends m'.serverIndexs := by
  obtain ⟨hsrv, htot, -, hkeep, -, hidx⟩ := serverCreate_frame hc
  have hdel : m'.deletedServers = m.deletedServers := by
    unfold serverCreate at hc
    obtain ⟨_, -, hc⟩ := Option.bind_eq_some_iff.mp hc
    obtain ⟨_, -, hc⟩ := Option.bind_eq_some_iff.mp hc
    cases hc
    rfl
  obtain ⟨hplaced, hinv, hocc⟩ := h.table.placed hfree hidx
  have hext := IdxPointer.add_extends hidx
  have hall : ∀ x ∈ m'.allServers, x = m.serverTotal ∨ x ∈ m.allServers := by
    intro x hx
    simp only [allServers, hsrv, hdel, List.mem_append, List.mem_singleton] at hx ⊢
    rcases hx with (hx | hx) | hx
    · exact .inr (.inl hx)
    · exact .inl hx
    · exact .inr (.inr hx)
  refine ⟨⟨hinv, fun x hx => ?_, fun x hx => ?_, ?_⟩, hocc, hplaced, hext⟩
  rotate_right
  · rw [allServers, hsrv, hdel]
    exact ((List.perm_append_singleton _ _).append_right _).symm.nodup
      (List.nodup_cons.mpr ⟨fun hmem => Nat.lt_irrefl _ (h.total _ hmem), h.nodup⟩)
  · rcases hall x hx with rfl | hx
    · exact hplaced.get
    · rw [hkeep x (h.total x hx).ne]
      exact hext _ _ (h.get x hx)
  · rw [htot]
    rcases hall x hx with rfl | hx
    · exact Nat.lt_succ_self _
    · exact Nat.lt_succ_of_lt (h.total x hx)

/-- The servers that the entries of a plan add. -/
theorem loadServers_slots (h : SlotInv m) (hfree : m.serverIndexs.occupied + newServers plan ≤ iptArraySize)
    (hex : ∀ p ∈ plan, ∀ s, p.existing = some s → s ∈ m.servers)
    (hl : plan.foldlM (fun m p => m.loadServer p) m = some m') :
    SlotInv m' ∧ m.serverIndexs.Extends m'.serverIndexs ∧ (∀ s ∈ m.servers, (m'.server s).index = (m.server s).index) ∧
      ∀ s ∈ m'.servers, s ∈ m.servers ∨ Placed m.serverIndexs m'.serverIndexs (m'.server s).index s := by
  induction plan generalizing m with
  | nil =>
    cases hl
    exact ⟨h, .refl _, fun _ _ => rfl, fun d hd => .inl hd⟩
  | cons p plan ih =>
    rw [List.foldlM_cons] at hl
    obtain ⟨m₁, h₁, hl⟩ := Option.bind_eq_some_iff.mp hl
    cases hp : p.existing with
    | some s =>
      have hm₁ : m₁ = m.serverUpdate s p.conf := by
        unfold loadServer at h₁
        rw [hp] at h₁
        exact (Option.some.inj h₁).symm
      have hs := hex p (by simp) s hp
      have hmem : ∀ x, x ∈ m₁.servers ↔ x ∈ m.servers := by
        intro x
        rw [hm₁, serverUpdate, List.mem_append, List.mem_singleton]
        by_cases hx : x = s
        · simp [hx, hs]
        · simp [hx, List.mem_erase_of_ne hx]
      have hindex : ∀ x, (m₁.server x).index = (m.server x).index := by
        intro x
        rw [hm₁]
        by_cases hx : x = s
        · subst hx
          simp [serverUpdate, setServer]
        · simp [serverUpdate, setServer, hx]
      have hkept : SlotsKept m m₁ := by
        refine ⟨by rw [hm₁]; rfl, by rw [hm₁]; rfl, fun x hx => ⟨?_, hindex x⟩, fun hnd => ?_⟩
        rotate_left
        · rw [hm₁]
          exact (((List.perm_cons_erase hs).trans (List.perm_append_singleton s _).symm).append_right _).nodup hnd
        rw [allServers, List.mem_append, hmem] at hx
        rw [hm₁] at hx
        exact List.mem_append.mpr hx
      have hcount : newServers (p :: plan) = newServers plan := by simp [newServers, hp]
      obtain ⟨hinv, hext, hsame, hall⟩ := ih (hkept.inv h) (by rw [hkept.table, ← hcount]; exact hfree)
        (fun q hq x hx => (hmem x).mpr (hex q (by simp [hq]) x hx)) hl
      rw [hkept.table] at hext hall
      refine ⟨hinv, hext, fun x hx => ?_, fun x hx => (hall x hx).imp (hmem x).mp id⟩
      rw [hsame x ((hmem x).mpr hx), hindex]
    | none =>
      unfold loadServer at h₁
      rw [hp] at h₁
      have hcount : newServers (p :: plan) = newServers plan + 1 := by simp [newServers, hp]
      obtain ⟨hinv₁, hocc, hplaced, hext₁⟩ := serverCreate_slots h (by omega) h₁
      obtain ⟨hsrv, -, -, hkeep, -, -⟩ := serverCreate_frame h₁
      have hin : ∀ x ∈ m.servers, x ∈ m₁.servers := fun x hx => hsrv ▸ List.mem_append_left _ hx
      obtain ⟨hinv, hext, hsame, hall⟩ := ih hinv₁ (by omega) (fun q hq x hx => hin x (hex q (by simp [hq]) x hx)) hl
      refine ⟨hinv, hext₁.trans hext, fun x hx => ?_, fun x hx => ?_⟩
      · rw [hsame x (hin x hx), hkeep x (h.total x (List.mem_append_left _ hx)).ne]
      · rcases hall x hx with hx | hx
        · rw [hsrv, List.mem_append, List.mem_singleton] at hx
          rcases hx with hx | rfl
          · exact .inl hx
          · rw [hsame _ (by simp [hsrv])]
            exact .inr (hplaced.later hext)
        · exact .inr (hx.earlier hext₁)

/-- **A load and the slots of the servers.** -/
theorem serverConfLoad_slots (h : SlotInv m) (hplan : ServerPlanOk m plan)
    (hfree : m.serverIndexs.occupied + newServers plan ≤ iptArraySize) (hl : m.serverConfLoad plan = some m') :
    SlotInv m' ∧ m.serverIndexs.Extends m'.serverIndexs ∧ ∀ s ∈ m'.servers, some s ∈ plan.map ServerPlan.existing ∨
      Placed m.serverIndexs m'.serverIndexs (m'.server s).index s := by
  unfold serverConfLoad at hl
  obtain ⟨h1, -, h3, -, -⟩ := serverDeletes_frame (m.droppedServers plan) m
  have hnd := (List.nodup_append.mp h.nodup).1
  have hstay : m.servers.diff (m.droppedServers plan) = _ := diff_dropped hnd
  have hinv : SlotInv ((m.droppedServers plan).foldl (fun m s => m.serverDelete s) m) :=
    serverDeletes_slots h (hnd.filter _) fun s hs => List.mem_of_mem_filter hs
  obtain ⟨hinv', hext, -, hall⟩ := loadServers_slots hinv (by rw [h3]; exact hfree) (fun p hp s hs => by
    rw [h1, hstay, mem_pending]
    exact ⟨(serverByPort_eq_some ((hplan.existing p hp).symm.trans hs)).1, List.mem_map.mpr ⟨p, hp, hs⟩⟩) hl
  rw [h3] at hext hall
  refine ⟨hinv', hext, fun s hs => (hall s hs).imp (fun hs => ?_) id⟩
  rw [h1] at hs
  exact (mem_pending.mp (hstay ▸ hs)).2

end Master

/-! ## Every sequence of loads -/

/-- The running device of a file. -/
def Space.deviceFor (env : LoadEnv) (name : String) (s : Space) : Option Nat :=
  ((env.stat name).map FileStat.file).bind fun file => s.searchInode file s.devices

/-- The files of a configuration that no running device has. -/
def Space.newFiles (env : LoadEnv) (conf : Conf) (s : Space) : Nat :=
  conf.devices.countP fun name => (s.deviceFor env name).isNone

/-- The ports of a configuration that no running server listens on. -/
def Master.newPorts (conf : Conf) (m : Master) : Nat :=
  conf.servers.countP fun c => (m.serverByPort c.listenPort).isNone

/-- The devices of a plan, entry by entry. -/
theorem Space.plan_existing {env : LoadEnv} {conf : Conf} {s : Space} {plan : List DevicePlan}
    (h : s.deviceConfCheck env conf = .ok plan) :
    plan.map DevicePlan.existing = conf.devices.map fun name => s.deviceFor env name := by
  obtain ⟨hok, hfiles⟩ := deviceConfCheck_ok h
  have hmap := congrArg (List.map fun file => file.bind fun file => s.searchInode file s.devices) hfiles
  rw [List.map_map, List.map_map] at hmap
  exact (List.map_congr_left fun p hp => hok.existing p hp).trans hmap

theorem Master.plan_existing {env : LoadEnv} {conf : Conf} {m : Master} {plan : List ServerPlan}
    (h : m.serverConfCheck env conf = .ok plan) :
    plan.map ServerPlan.existing = conf.servers.map fun c => m.serverByPort c.listenPort := by
  obtain ⟨hok, hconfs⟩ := serverConfCheck_ok h
  rw [← hconfs, List.map_map]
  exact List.map_congr_left fun p hp => hok.existing p hp

theorem Space.newDevices_eq {env : LoadEnv} {conf : Conf} {s : Space} {plan : List DevicePlan}
    (h : s.deviceConfCheck env conf = .ok plan) : newDevices plan = s.newFiles env conf := by
  have hcount := congrArg (List.countP Option.isNone) (plan_existing h)
  rwa [List.countP_map, List.countP_map] at hcount

theorem Master.newServers_eq {env : LoadEnv} {conf : Conf} {m : Master} {plan : List ServerPlan}
    (h : m.serverConfCheck env conf = .ok plan) : newServers plan = m.newPorts conf := by
  have hcount := congrArg (List.countP Option.isNone) (plan_existing h)
  rwa [List.countP_map, List.countP_map] at hcount

/-- What happens to the tables: a load, the end of a deleted server or
device, and everything else. -/
inductive SlotEvent
  | load (env : LoadEnv) (conf : Conf)
  | serverDestroy (s : Nat)
  | deviceDestroy (d : Nat)
  | other

inductive SlotStep (al : Allocator) (m : Master) : SlotEvent → Master → Prop
  | load {env conf devices servers m'} : m.space.deviceConfCheck env conf = .ok devices →
      m.serverConfCheck env conf = .ok servers → m.confLoad al conf devices servers = some m' →
      SlotStep al m (.load env conf) m'
  | serverDestroy {s t} : s ∈ m.deletedServers → m.serverIndexs.delete (m.server s).index = some t →
      SlotStep al m (.serverDestroy s) { m with deletedServers := m.deletedServers.erase s, serverIndexs := t }
  | deviceDestroy {d t} : d ∈ m.space.deletedDevices → m.space.deviceIndexs.delete (m.space.device d).index = some t →
      SlotStep al m (.deviceDestroy d)
        { m with space := { m.space with deletedDevices := m.space.deletedDevices.erase d, deviceIndexs := t } }
  | other {m'} : m.space.SlotsKept m'.space → m.SlotsKept m' → SlotStep al m .other m'

def slotSystem (al : Allocator) : System Master SlotEvent where
  init m := ∃ now, m = (Process.boot now).master
  next := SlotStep al

/-- There is a slot for every object that a load adds, also while those it
deletes have theirs. -/
def SlotsLeft (m : Master) : SlotEvent → Prop
  | .load env conf => m.space.deviceIndexs.occupied + m.space.newFiles env conf ≤ iptArraySize ∧
      m.serverIndexs.occupied + m.newPorts conf ≤ iptArraySize
  | _ => True

/-- What a step may do to the tables. -/
structure SlotsOk (m : Master) (e : SlotEvent) (m' : Master) : Prop where
  addServer : ∀ env conf, e = .load env conf → ∀ s ∈ m'.servers,
    (∃ c ∈ conf.servers, m.serverByPort c.listenPort = some s) ∨ Placed m.serverIndexs m'.serverIndexs (m'.server s).index s
  addDevice : ∀ env conf, e = .load env conf → ∀ d ∈ m'.space.devices,
    (∃ name ∈ conf.devices, m.space.deviceFor env name = some d) ∨
      Placed m.space.deviceIndexs m'.space.deviceIndexs (m'.space.device d).index d
  serverSlots : ∀ i s, m.serverIndexs.get i = some s → m'.serverIndexs.get i = some s ∨ e = .serverDestroy s
  deviceSlots : ∀ i d, m.space.deviceIndexs.get i = some d → m'.space.deviceIndexs.get i = some d ∨ e = .deviceDestroy d
  servers : ∀ s ∈ m'.allServers, m'.serverIndexs.get (m'.server s).index = some s
  devices : ∀ d ∈ m'.space.registered, m'.space.deviceIndexs.get (m'.space.device d).index = some d

/-- The two invariants together. -/
structure Slotted (m : Master) : Prop where
  devices : m.space.SlotInv
  servers : m.SlotInv

theorem boot_slotted (now : Int) : Slotted (Process.boot now).master :=
  ⟨⟨IdxPointer.init_inv, by simp [Process.boot, Space.registered, Space.allDevices, Space.empty], List.nodup_nil, by
    simp [Process.boot, Space.empty]⟩, ⟨IdxPointer.init_inv, by simp [Process.boot, Master.allServers], by
      simp [Process.boot, Master.allServers], List.nodup_nil⟩⟩

/-- A slot that is given back by the object that is in it. -/
theorem IdxPointer.get_delete_other {t t' : IdxPointer} {i j : Int} {x y : Nat} (h : t.delete i = some t')
    (hx : t.get i = some x) (hy : t.get j = some y) : t'.get j = some y ∨ y = x := by
  rw [get_delete h]
  split
  · next hj =>
    rw [hj, hx] at hy
    exact .inr (Option.some.inj hy).symm
  · exact .inl hy

theorem mem_append_erase {l l' : List Nat} {x y : Nat} (h : (l ++ l').Nodup) (hy : y ∈ l') (hx : x ∈ l ++ l'.erase y) :
    x ∈ l ++ l' ∧ x ≠ y := by
  obtain ⟨-, hdel, hne⟩ := List.nodup_append.mp h
  rcases List.mem_append.mp hx with hx | hx
  · exact ⟨List.mem_append_left _ hx, hne x hx y hy⟩
  · exact ⟨List.mem_append_right _ (List.mem_of_mem_erase hx), fun he => hdel.not_mem_erase (he ▸ hx)⟩

section

variable {al : Allocator} {m m' : Master}

/-- **A load with enough slots.** -/
theorem Slotted.load {env : LoadEnv} {conf : Conf} {devices : List DevicePlan} {servers : List ServerPlan} (h : Slotted m)
    (hleft : SlotsLeft m (.load env conf)) (hd : m.space.deviceConfCheck env conf = .ok devices)
    (hs : m.serverConfCheck env conf = .ok servers) (hl : m.confLoad al conf devices servers = some m') :
    Slotted m' ∧ SlotsOk m (.load env conf) m' := by
  unfold Master.confLoad at hl
  obtain ⟨space, hspace, hl⟩ := Option.bind_eq_some_iff.mp hl
  obtain ⟨hleftD, hleftS⟩ := hleft
  obtain ⟨hinvD, hextD, hallD⟩ := Space.deviceConfLoad_slots h.devices (Space.deviceConfCheck_ok hd).1
    (by rw [Space.newDevices_eq hd]; exact hleftD) hspace
  have h₁ : Master.SlotInv { m with space } := ⟨h.servers.table, h.servers.get, h.servers.total, h.servers.nodup⟩
  have hplan := (Master.serverConfCheck_ok hs).1
  have hplan₁ : ServerPlanOk { m with space } servers := ⟨hplan.ports, hplan.existing, hplan.count⟩
  obtain ⟨hinvS, hextS, hallS⟩ := Master.serverConfLoad_slots h₁ hplan₁
    (by rw [Master.newServers_eq hs]; exact hleftS) hl
  obtain ⟨-, hsame, -⟩ := Master.serverConfLoad_confs hplan₁ (List.nodup_append.mp h₁.nodup).1
    (fun s hs => h₁.total s (List.mem_append_left _ hs)) hl
  rw [← show m'.space = space from hsame] at hinvD hextD hallD
  refine ⟨⟨hinvD, hinvS⟩, fun _ _ he s hs' => ?_, fun _ _ he d hd' => ?_, fun i s hi => .inl (hextS i s hi),
    fun i d hi => .inl (hextD i d hi), hinvS.get, hinvD.get⟩
  · cases he
    refine (hallS s hs').imp (fun hmem => ?_) id
    rw [Master.plan_existing hs] at hmem
    simpa using List.mem_map.mp hmem
  · cases he
    refine (hallD d hd').imp (fun hmem => ?_) id
    rw [Space.plan_existing hd] at hmem
    simpa using List.mem_map.mp hmem

theorem Slotted.serverDestroy {s : Nat} {t : IdxPointer} (h : Slotted m) (hs : s ∈ m.deletedServers)
    (ht : m.serverIndexs.delete (m.server s).index = some t) :
    Slotted { m with deletedServers := m.deletedServers.erase s, serverIndexs := t } ∧
      SlotsOk m (.serverDestroy s) { m with deletedServers := m.deletedServers.erase s, serverIndexs := t } := by
  have hget := h.servers.get s (List.mem_append_right _ hs)
  have hsub := fun x => mem_append_erase (x := x) h.servers.nodup hs
  have hget' : ∀ x ∈ m.servers ++ m.deletedServers.erase s, t.get (m.server x).index = some x := fun x hx =>
    (IdxPointer.get_delete_other ht hget (h.servers.get x (hsub x hx).1)).resolve_right (hsub x hx).2
  refine ⟨⟨h.devices, h.servers.table.delete ht, hget', fun x hx => h.servers.total x (hsub x hx).1,
      h.servers.nodup.sublist ((List.erase_sublist).append_left _)⟩,
    nofun, nofun, fun i x hi => ?_, fun i d hi => .inl hi, hget', h.devices.get⟩
  exact (IdxPointer.get_delete_other ht hget hi).imp_right fun he => by rw [he]

theorem Slotted.deviceDestroy {d : Nat} {t : IdxPointer} (h : Slotted m) (hd : d ∈ m.space.deletedDevices)
    (ht : m.space.deviceIndexs.delete (m.space.device d).index = some t) :
    Slotted { m with space := { m.space with deletedDevices := m.space.deletedDevices.erase d, deviceIndexs := t } } ∧
      SlotsOk m (.deviceDestroy d)
        { m with space := { m.space with deletedDevices := m.space.deletedDevices.erase d, deviceIndexs := t } } := by
  have hget := h.devices.get d (Space.mem_registered.mpr ⟨List.mem_append_right _ hd, h.devices.gone d hd⟩)
  have hsub := fun x => mem_append_erase (x := x) h.devices.nodup hd
  have hget' : ∀ x ∈ { m.space with deletedDevices := m.space.deletedDevices.erase d, deviceIndexs := t }.registered,
      t.get (m.space.device x).index = some x := by
    intro x hx
    obtain ⟨hx, hk⟩ := Space.mem_registered.mp hx
    obtain ⟨hmem, hne⟩ := hsub x hx
    exact (IdxPointer.get_delete_other ht hget (h.devices.get x (Space.mem_registered.mpr ⟨hmem, hk⟩))).resolve_right hne
  refine ⟨⟨⟨h.devices.table.delete ht, hget', h.devices.nodup.sublist ((List.erase_sublist).append_left _),
      fun x hx => h.devices.gone x (List.mem_of_mem_erase hx)⟩,
      ⟨h.servers.table, h.servers.get, h.servers.total, h.servers.nodup⟩⟩,
    nofun, nofun, fun i s hi => .inl hi, fun i x hi => ?_, h.servers.get, hget'⟩
  exact (IdxPointer.get_delete_other ht hget hi).imp_right fun he => by rw [he]

theorem Slotted.step {e : SlotEvent} (h : Slotted m) (hleft : SlotsLeft m e) (hn : SlotStep al m e m') :
    Slotted m' ∧ SlotsOk m e m' := by
  cases hn with
  | load hd hs hl => exact h.load hleft hd hs hl
  | serverDestroy hs ht => exact h.serverDestroy hs ht
  | deviceDestroy hd ht => exact h.deviceDestroy hd ht
  | other hD hS =>
    refine ⟨⟨hD.inv h.devices, hS.inv h.servers⟩, nofun, nofun,
      fun i s hi => .inl (by rw [hS.table]; exact hi), fun i d hi => .inl (by rw [hD.table]; exact hi),
      (hS.inv h.servers).get, (hD.inv h.devices).get⟩

/-- **The slots of servers and devices.** While every load finds a slot for
each object it adds, an added object gets a slot that was empty, the objects
that have one keep it, and each is found by its index until it is destroyed. -/
theorem index_slots {e : SlotEvent} (h : (slotSystem al).Reach SlotsLeft m) (hleft : SlotsLeft m e)
    (hn : (slotSystem al).next m e m') : SlotsOk m e m' := by
  have hinv : Slotted m := by
    refine h.invariant (fun m hm => ?_) fun m e m' _ hm hok hn => (hm.step hok hn).1
    obtain ⟨now, rfl⟩ := hm
    exact boot_slotted now
  exact (hinv.step hleft hn).2

/-- The first load of a configuration with one server and one device. -/
theorem index_slots_first : ∃ m m', (slotSystem .unbounded).Reach SlotsLeft m ∧
    SlotsOk m (.load .plain (.small 1)) m' ∧ m'.servers = [0] ∧ m'.space.registered = [1] := by
  have hd : (Process.boot 0).master.space.deviceConfCheck .plain (.small 1) = .ok [⟨0, 2 ^ 20, none⟩] := rfl
  have hs : (Process.boot 0).master.serverConfCheck .plain (.small 1) =
      .ok ((Conf.small 1).servers.map fun conf => ⟨conf, none⟩) := rfl
  have hrun : ((Process.boot 0).master.confLoad .unbounded (.small 1) [⟨0, 2 ^ 20, none⟩]
      ((Conf.small 1).servers.map fun conf => ⟨conf, none⟩)).map (fun m => (m.servers, m.space.registered)) =
      some ([0], [1]) := by decide +kernel
  obtain ⟨m', hl, hview⟩ := Option.map_eq_some_iff.mp hrun
  simp only [Prod.mk.injEq] at hview
  have r : (slotSystem .unbounded).Reach SlotsLeft (Process.boot 0).master := .init ⟨0, rfl⟩
  have hleft : SlotsLeft (Process.boot 0).master (.load .plain (.small 1)) := by
    have hzero : (Process.boot 0).master.space.deviceIndexs.occupied = 0 ∧ (Process.boot 0).master.serverIndexs.occupied = 0 :=
      ⟨IdxPointer.occupied_init, IdxPointer.occupied_init⟩
    rw [SlotsLeft, hzero.1, hzero.2]
    exact ⟨by decide, by decide⟩
  exact ⟨_, m', r, index_slots r hleft (.load hd hs hl), hview⟩

/-- A server for each port, and one device. -/
def Conf.ports (ports : List Nat) : Conf := { Conf.small 1 with servers := ports.map .default }

theorem Master.checkServers_fresh {ports : List Nat} {seen : List ServerPlan}
    (hnone : ∀ port ∈ ports, m.serverByPort port = none)
    (hnd : (seen.map (fun p => p.conf.listenPort) ++ ports).Nodup)
    (hlen : m.deletedServers.length + seen.length + ports.length < iptArraySize - 1) :
    m.checkServers .plain seen (ports.map .default) = .ok (seen ++ ports.map fun port => ⟨.default port, none⟩) := by
  induction ports generalizing seen with
  | nil => simp [checkServers]
  | cons port ports ih =>
    rw [List.length_cons] at hlen
    have hnew : ∀ p ∈ seen, p.conf.listenPort ≠ port := fun p hp =>
      (List.nodup_append.mp hnd).2.2 _ (List.mem_map_of_mem hp) _ (by simp)
    have hcheck : m.checkServer .plain seen (.default port) = .ok ⟨.default port, none⟩ := by
      unfold checkServer
      rw [if_neg (by omega), if_neg (by simp [ServerConf.default]), if_neg (by simp [ServerConf.default]),
        if_neg (by simp [ServerConf.default])]
      rw [show m.serverByPort (ServerConf.default port).listenPort = none from hnone port (by simp)]
      simp only
      rw [if_neg]
      · simp [LoadEnv.plain]
      · simp only [List.any_eq_true, decide_eq_true_eq, not_exists, not_and]
        exact hnew
    rw [List.map_cons, checkServers, hcheck]
    simp only
    rw [ih (fun x hx => hnone x (by simp [hx])) (by simpa [ServerConf.default] using hnd) (by simp; omega)]
    simp

/-- Servers that are created while there are free slots. -/
theorem Master.loadServers_fresh (ports : List Nat) (hnone : ∀ i ≥ m.serverIndexs.lowest, m.serverIndexs.array i = none)
    (hlen : m.serverIndexs.lowest + ports.length ≤ iptArraySize) :
    ∃ m', (ports.map fun port => (⟨.default port, none⟩ : ServerPlan)).foldlM (fun m p => m.loadServer p) m = some m' ∧
      m'.serverIndexs.lowest = m.serverIndexs.lowest + ports.length ∧
      (∀ i ≥ m'.serverIndexs.lowest, m'.serverIndexs.array i = none) ∧ m'.deletedServers = m.deletedServers := by
  induction ports generalizing m with
  | nil => exact ⟨m, rfl, rfl, hnone, rfl⟩
  | cons port ports ih =>
    rw [List.length_cons] at hlen
    obtain ⟨m₁, h₁, hlow, hnone₁, hdel⟩ : ∃ m₁, m.serverCreate (.default port) = some m₁ ∧
        m₁.serverIndexs.lowest = m.serverIndexs.lowest + 1 ∧
        (∀ i ≥ m₁.serverIndexs.lowest, m₁.serverIndexs.array i = none) ∧ m₁.deletedServers = m.deletedServers := by
      have hadd := IdxPointer.add_lowest (by omega) (hnone _ le_rfl) m.serverTotal
      simp only [serverCreate, hadd]
      refine ⟨_, rfl, rfl, fun i hi => ?_, rfl⟩
      simp only at hi ⊢
      rw [Function.update_of_ne (by omega)]
      exact hnone i (by omega)
    obtain ⟨m', h', hlow', hnone', hdel'⟩ := ih hnone₁ (by omega)
    refine ⟨m', ?_, by rw [hlow', hlow, List.length_cons]; omega, hnone', hdel'.trans hdel⟩
    rw [List.map_cons, List.foldlM_cons]
    exact Option.bind_eq_some_iff.mpr ⟨m₁, h₁, h'⟩

/-- The space with the device of `Conf.ports`, which later loads keep. -/
theorem Space.load_ports (ports ports' : List Nat) : ∃ space space',
    (Space.empty 0).deviceConfCheck .plain (.ports ports) = .ok [⟨0, 2 ^ 20, none⟩] ∧
    (Space.empty 0).deviceConfLoad .unbounded (.ports ports) [⟨0, 2 ^ 20, none⟩] = some space ∧
    space.deviceConfCheck .plain (.ports ports') = .ok [⟨0, 0, some 1⟩] ∧
    space.deviceConfLoad .unbounded (.ports ports') [⟨0, 0, some 1⟩] = some space' := by
  have hrun : ((Space.empty 0).deviceConfLoad .unbounded (.ports []) [⟨0, 2 ^ 20, none⟩]).map (fun space =>
      ((space.deviceConfCheck .plain (.ports [])).toOption, (space.deviceConfLoad .unbounded (.ports []) [⟨0, 0, some 1⟩]).isSome)) =
      some (some [⟨0, 0, some 1⟩], true) := by decide +kernel
  obtain ⟨space, hload, hview⟩ := Option.map_eq_some_iff.mp hrun
  simp only [Prod.mk.injEq] at hview
  obtain ⟨space', hload'⟩ := Option.isSome_iff_exists.mp hview.2
  refine ⟨space, space', rfl, hload, ?_, hload'⟩
  cases hcheck : space.deviceConfCheck .plain (.ports ports') with
  | error msg =>
    rw [show space.deviceConfCheck .plain (.ports []) = .error msg from hcheck] at hview
    cases hview.1
  | ok plan =>
    rw [show space.deviceConfCheck .plain (.ports []) = .ok plan from hcheck] at hview
    exact congrArg _ (Option.some.inj hview.1)

theorem Master.serverConfCheck_fresh {ports : List Nat} (hne : ports ≠ []) (hnone : ∀ port ∈ ports, m.serverByPort port = none)
    (hnd : ports.Nodup) (hlen : m.deletedServers.length + ports.length < iptArraySize - 1) :
    m.serverConfCheck .plain (.ports ports) = .ok (ports.map fun port => ⟨.default port, none⟩) := by
  rw [serverConfCheck, if_neg (by simpa [Conf.ports] using hne)]
  exact checkServers_fresh hnone (by simpa using hnd) (by simpa using hlen)

/-- As many servers as one file may have. -/
theorem load_ports (ports : List Nat) (hne : ports ≠ []) (hnd : ports.Nodup) (hlen : ports.length < iptArraySize - 1) :
    ∃ m, (slotSystem .unbounded).Reachable m ∧ m.serverIndexs.lowest = ports.length ∧
      (∀ i ≥ ports.length, m.serverIndexs.array i = none) ∧ m.deletedServers = [] ∧
      (∀ port ∉ ports, m.serverByPort port = none) ∧
      ∀ ports', ∃ space', m.space.deviceConfCheck .plain (.ports ports') = .ok [⟨0, 0, some 1⟩] ∧
        m.space.deviceConfLoad .unbounded (.ports ports') [⟨0, 0, some 1⟩] = some space' := by
  obtain ⟨space, -, hcheck, hspace, -, -⟩ := Space.load_ports ports []
  have hs : (Process.boot 0).master.serverConfCheck .plain (.ports ports) = .ok (ports.map fun port => ⟨.default port, none⟩) :=
    Master.serverConfCheck_fresh hne (fun _ _ => rfl) hnd (by rw [show (Process.boot 0).master.deletedServers = [] from rfl]; simpa)
  obtain ⟨m, hm, hlow, hnone, hdel⟩ := Master.loadServers_fresh (m := { (Process.boot 0).master with space }) ports
    (fun _ _ => rfl) (by rw [show IdxPointer.lowest _ = 0 from rfl]; omega)
  rw [show IdxPointer.lowest (Process.boot 0).master.serverIndexs = 0 from rfl, Nat.zero_add] at hlow
  have hload : (Process.boot 0).master.confLoad .unbounded (.ports ports) [⟨0, 2 ^ 20, none⟩]
      (ports.map fun port => ⟨.default port, none⟩) = some m := by
    unfold Master.confLoad
    exact Option.bind_eq_some_iff.mpr ⟨space, hspace, hm⟩
  have r₀ : (slotSystem .unbounded).Reachable (Process.boot 0).master := .init ⟨0, rfl⟩
  have hplan := (Master.serverConfCheck_ok hs).1
  obtain ⟨hconfs, hsame, -⟩ := Master.serverConfLoad_confs (m := { (Process.boot 0).master with space })
    ⟨hplan.ports, hplan.existing, hplan.count⟩ List.nodup_nil (fun s hs => by cases hs) hm
  refine ⟨m, r₀.step (SlotStep.load hcheck hs hload), hlow, fun i hi => hnone i (by omega), hdel, fun port hport => ?_,
    fun ports' => ?_⟩
  · refine List.find?_eq_none.mpr fun s hs => ?_
    have hmem := List.mem_map_of_mem (f := fun s => (m.server s).conf) hs
    rw [hconfs, List.map_map] at hmem
    obtain ⟨port', hport', hconf⟩ := List.mem_map.mp hmem
    rw [← hconf, decide_eq_true_eq]
    exact fun he => hport (he ▸ hport')
  · obtain ⟨space₁, space', -, hspace₁, hcheck', hspace'⟩ := Space.load_ports ports ports'
    obtain rfl : space₁ = space := Option.some.inj (hspace₁.symm.trans hspace)
    rw [hsame]
    exact ⟨space', hcheck', hspace'⟩

/-- 4094 servers run, and a file with three others is loaded: the third finds
the table full. -/
theorem index_slots_replaced : ∃ m m' s, (slotSystem .unbounded).Reachable m ∧
    (slotSystem .unbounded).next m (.load .plain (.ports [5001, 5002, 5003])) m' ∧
    s ∈ m'.servers ∧ (m'.server s).index = -1 ∧ ¬SlotsOk m (.load .plain (.ports [5001, 5002, 5003])) m' := by
  obtain ⟨m, r, hlow, hnone, hdel, hports, hspace⟩ := load_ports (List.range' 1 4094) (by simp)
    List.nodup_range' (by rw [List.length_range']; decide)
  rw [List.length_range'] at hlow hnone
  obtain ⟨space, hcheck, hspace⟩ := hspace [5001, 5002, 5003]
  have hs : m.serverConfCheck .plain (.ports [5001, 5002, 5003]) = .ok ([5001, 5002, 5003].map fun port => ⟨.default port, none⟩) :=
    Master.serverConfCheck_fresh (by simp) (fun port hport => hports port fun hmem => by
      have := List.mem_range'_1.mp hmem
      simp only [List.mem_cons, List.not_mem_nil, or_false] at hport
      omega) (by decide) (by rw [hdel]; decide)
  -- The running servers are deleted and keep their slots.
  obtain ⟨m₁, hm₁⟩ : ∃ m₁, (Master.droppedServers ([5001, 5002, 5003].map fun port => ⟨.default port, none⟩)
    { m with space }).foldl (fun m s => m.serverDelete s) { m with space } = m₁ := ⟨_, rfl⟩
  have hindexs : m₁.serverIndexs = m.serverIndexs := by
    rw [← hm₁]
    exact (Master.serverDeletes_frame _ _).2.2.1
  rw [← hindexs] at hlow hnone
  obtain ⟨m₂, hm₂, hfull, -, -⟩ := Master.loadServers_fresh (m := m₁) [5001, 5002]
    (fun i hi => hnone i (by omega)) (by rw [hlow]; decide)
  have hadd : m₂.serverIndexs.add m₂.serverTotal = some (-1, m₂.serverIndexs) := by
    rw [IdxPointer.add, if_pos (by rw [hfull, hlow]; decide)]
  obtain ⟨m', hm'⟩ : ∃ m', m₂.serverCreate (.default 5003) = some m' := by
    simp only [Master.serverCreate, hadd]
    exact ⟨_, rfl⟩
  have hload : m.confLoad .unbounded (.ports [5001, 5002, 5003]) [⟨0, 0, some 1⟩]
      ([5001, 5002, 5003].map fun port => ⟨.default port, none⟩) = some m' := by
    unfold Master.confLoad Master.serverConfLoad
    refine Option.bind_eq_some_iff.mpr ⟨space, hspace, ?_⟩
    rw [hm₁, show [5001, 5002, 5003] = [5001, 5002] ++ [5003] from rfl, List.map_append, List.foldlM_append, hm₂]
    exact Option.bind_eq_some_iff.mpr ⟨m₂, rfl, Option.bind_eq_some_iff.mpr ⟨m', hm', rfl⟩⟩
  obtain ⟨hservers, -, -, -, -, hidx⟩ := Master.serverCreate_frame hm'
  rw [hadd, Option.some.injEq, Prod.mk.injEq] at hidx
  have hmem : m₂.serverTotal ∈ m'.servers := by simp [hservers]
  refine ⟨m, m', m₂.serverTotal, r, .load hcheck hs hload, hmem, hidx.1.symm, fun hok => ?_⟩
  have hget := hok.servers _ (List.mem_append_left _ hmem)
  rw [← hidx.1] at hget
  cases hget

end

end OliveHc
