/-
What the devices know of the requests: `used`, `fd` and the files.

`hs` are the items that requests hold, each as often as it is held. A device
counts those of its own (`used`); it stays open as long as there are any;
and of the devices with one file at most one is open, the last that was
added. All calls of `device.c` keep this, as long as no item of `hs` is
given back.
-/
import OliveHc.Master.Places
import OliveHc.Reload.Slots

namespace OliveHc

/-- How many of the items `hs` are on device `d`. -/
def Space.holders (hs : List Nat) (d : Nat) (s : Space) : Nat := hs.countP fun a => decide (.item a ∈ s.order d)

/-- The devices and the items `hs` that are held. -/
structure Moor (hs : List Nat) (s : Space) : Prop where
  links : LinkInv s
  held : ∀ a ∈ hs, a ∈ s.items
  used : ∀ d ∈ s.registered, (s.device d).used = s.holders hs d
  opened : ∀ d ∈ s.registered, (s.device d).fdOpen = false → (s.device d).deleted = true ∧ (s.device d).used = 0
  distinct : (s.devices.map fun d => (s.device d).file).Nodup
  owner : ∀ d ∈ s.devices, (s.device d).kicked = false → ∀ e ∈ s.deletedDevices, (s.device e).file = (s.device d).file →
    (s.device e).fdOpen = false
  older : s.deletedDevices.Pairwise fun d e => (s.device e).file = (s.device d).file → (s.device e).fdOpen = false

/-- The items `hs` stay in their lists. -/
structure Stay (hs : List Nat) (s s' : Space) : Prop where
  order : ∀ a ∈ hs, ∀ d, .item a ∈ s.order d → .item a ∈ s'.order d

theorem Stay.trans {hs : List Nat} {s s' s'' : Space} (h : Stay hs s s') (h' : Stay hs s' s'') : Stay hs s s'' :=
  ⟨fun a ha d hd => h'.order a ha d (h.order a ha d hd)⟩

theorem Stay.of_eq {hs : List Nat} {s s' : Space} (h : s'.order = s.order) : Stay hs s s' := ⟨fun a _ d hd => by rwa [h]⟩

/-- A file that a device may be added for: no device has it, unless it is
deleted and closed. -/
def Space.Vacant (file : Nat) (s : Space) : Prop :=
  (∀ d ∈ s.devices, (s.device d).file ≠ file) ∧ ∀ d ∈ s.deletedDevices, (s.device d).file = file → (s.device d).fdOpen = false

variable {hs : List Nat} {al : Allocator} {s s' : Space} {a d f k : Nat}

/-! ## What stays in a list -/

theorem mem_listAdd {n x y : Node} {l : List Node} (h : y ∈ l) : y ∈ listAdd n x l := by
  induction l with
  | nil => cases h
  | cons z l ih =>
    unfold listAdd
    split
    · rcases List.mem_cons.mp h with rfl | h
      · exact List.mem_cons_self
      · exact List.mem_cons_of_mem _ (List.mem_cons_of_mem _ h)
    · rcases List.mem_cons.mp h with rfl | h
      · exact List.mem_cons_self
      · exact List.mem_cons_of_mem _ (ih h)

/-- The list of one device changes, and the items are still there. -/
theorem Stay.one (h : LinkInv s) (hl : LinkInv s') (hreg : ∀ x ∈ s'.registered, x ∈ s.allDevices)
    (ho : ∀ e ∈ s.allDevices, e ≠ d → s'.order e = s.order e) (hi : ∀ a ∈ hs, a ∈ s'.items) : Stay hs s s' := by
  refine ⟨fun a ha e he => ?_⟩
  by_cases hed : e = d
  · obtain ⟨x, hx⟩ := (hl.order.owned.covers (.item a)).mp (Space.mem_nodes_item.mpr (hi a ha))
    have hall := hreg x (Space.mem_registered.mpr ⟨hl.order.mem_allDevices hx, hl.order.not_kicked hx⟩)
    by_cases hxd : x = d
    · rwa [hed, ← hxd]
    · rw [ho x hall hxd] at hx
      exact absurd ((h.order.owned.unique hx he).trans hed) hxd
  · rwa [ho e (h.order.mem_allDevices he) hed]

theorem SameDevices.registered (h : SameDevices s s') : s'.registered = s.registered := by
  unfold Space.registered
  rw [h.allDevices]
  refine List.filter_congr fun x _ => ?_
  obtain ⟨_, _, hx⟩ := h.device x
  rw [hx]

theorem Stay.fblockDelete (h : s.deviceFblockDelete f = some s') : Stay hs s s' :=
  ⟨fun _ _ _ hd => Host.Keeps.mem_order_fblockDelete h (by simp) hd⟩

theorem Stay.takeBlock (h : s.takeBlock a f d = some (k, s')) : Stay hs s s' := by
  have hlink : ∀ offset, Stay hs s (s.linkItem a f d offset) := by
    refine fun offset => ⟨fun b _ e he => ?_⟩
    show _ ∈ Function.update s.order d _ e
    by_cases hed : e = d
    · subst hed
      rw [Function.update_self]
      exact mem_listAdd he
    · rwa [Function.update_of_ne hed]
  unfold Space.takeBlock at h
  simp only at h
  split at h
  · cases h
  split at h
  · cases h
    exact ⟨(hlink 0).order⟩
  split at h
  · obtain ⟨s₁, h₁, hs₁⟩ := Option.map_eq_some_iff.mp h
    cases hs₁
    exact (hlink _).trans (.fblockDelete h₁)
  · cases h

theorem Stay.getFreeBlock {n : Nat} (h : s.getFreeBlock a n = some (k, s')) : Stay hs s s' := by
  induction n generalizing s with
  | zero | succ n ih =>
    unfold Space.getFreeBlock at h
    split at h
    · cases h
      exact .of_eq rfl
    next f s₁ hget =>
    obtain ⟨-, -, -, rfl⟩ := ipbucketGet_queue hget
    have hdel : Stay hs s (s.ipbucketDel f) := .of_eq rfl
    obtain ⟨d, -, h⟩ := Option.bind_eq_some_iff.mp h
    split at h
    · obtain ⟨s₂, hs₂, h⟩ := Option.bind_eq_some_iff.mp h
      have hs₂ : Stay hs s s₂ := hdel.trans (.fblockDelete hs₂)
      first
      | cases h
        exact hs₂
      | exact hs₂.trans (ih h)
    · exact hdel.trans (.takeBlock h)

theorem Stay.loadPost (h : s.deviceLoadPost d = some s') : Stay hs s s' := by
  unfold Space.deviceLoadPost at h
  obtain ⟨f, -, h⟩ := Option.bind_eq_some_iff.mp h
  split at h
  · exact .fblockDelete h
  · cases h
    exact .of_eq rfl

/-- An item that is loaded goes into the list of its device. -/
theorem cut_lists (h : s.deviceCutFreeBlock al a = some (k, s')) : ∃ d, ∀ e, e ≠ d → s'.order e = s.order e := by
  unfold Space.deviceCutFreeBlock at h
  obtain ⟨d, -, h⟩ := Option.bind_eq_some_iff.mp h
  obtain ⟨f, -, h⟩ := Option.bind_eq_some_iff.mp h
  refine ⟨d, fun e he => ?_⟩
  simp only at h
  split at h
  · cases h
    rfl
  split at h
  · cases h
  cases h
  refine (Function.update_of_ne he ..).trans ?_
  split
  · unfold Space.deviceFblockInsert
    split
    · rfl
    · exact Function.update_of_ne he ..
  · rfl

theorem kick_lists (al : Allocator) (hd : d ∈ s.devices) (hk : (s.device d).kicked = false) :
    (s.deviceKick al d).deletedDevices = s.deletedDevices ∨ (s.deviceKick al d).deletedDevices = d :: s.deletedDevices := by
  unfold Space.deviceKick
  split
  · exact .inl rfl
  · next c hc =>
    have hdc : d ≠ c := fun he => al.fresh hc (he ▸ List.mem_append_left _ hd)
    exact .inr (by simp [Space.deviceDelete, Space.setDevice, Function.update_of_ne hdc, hk])

/-- The lists of the devices when a block is given back: that of one device
changes, and it may be kicked. -/
theorem giveBack_lists (h : LinkInv s) (ha : a ∈ s.items) (hr : s.deviceReturnFreeBlock al a = some (k, s')) :
    ∃ d, (∀ e ∈ s.allDevices, e ≠ d → s'.order e = s.order e) ∧ (s'.deletedDevices = s.deletedDevices ∨
      d ∈ s.devices ∧ (s.device d).kicked = false ∧ s'.deletedDevices = d :: s.deletedDevices) := by
  unfold Space.deviceReturnFreeBlock at hr
  obtain ⟨d, hd, hr⟩ := Option.bind_eq_some_iff.mp hr
  have had := h.order.item_mem h.dev ha hd
  have hk := h.order.not_kicked had
  refine ⟨d, ?_⟩
  simp only at hr
  split at hr
  · cases hr
    exact ⟨fun e _ he => Function.update_of_ne he .., .inl rfl⟩
  next hdel =>
  have hact := h.mem_devices had (by simpa using hdel)
  split at hr
  · cases hr
    split
    · refine ⟨fun e he hne => (Function.update_of_ne hne ..).trans ((deviceKick_frame al d _).2.2 e he),
        (kick_lists al (by exact hact) ?_).imp_right fun hgone => ⟨hact, hk, hgone⟩⟩
      show (Function.update s.device d _ d).kicked = false
      rw [Function.update_self]
      exact hk
    · exact ⟨fun e _ he => Function.update_of_ne he .., .inl rfl⟩
  · obtain ⟨s₁, hs₁, hr⟩ := Option.bind_eq_some_iff.mp hr
    cases hr
    have hrec := (recycle_links h had hs₁).2
    exact ⟨fun e _ he => (Function.update_of_ne he ..).trans (hrec.order e he), .inl hrec.same.deletedDevices⟩

theorem Stay.giveBack (h : LinkInv s) (ha : a ∈ s.items) (hno : a ∉ hs) (hheld : ∀ b ∈ hs, b ∈ s.items)
    (hr : s.deviceReturnFreeBlock al a = some (k, s')) : Stay hs s (s'.itemFree a) := by
  obtain ⟨d, ho, -⟩ := giveBack_lists h ha hr
  obtain ⟨-, hkept, -, hitems, -⟩ := deviceReturnFreeBlock_kept h ha hr
  refine .one h (deviceReturnFreeBlock_links h ha hr) (fun x hx => ?_) ho fun b hb => ?_
  · obtain ⟨hx, hk⟩ := Space.mem_registered.mp hx
    by_contra hno
    have hcopy : (s'.device x).kicked = true := hkept.copies x hx hno
    rw [show (s'.device x).kicked = false from hk] at hcopy
    cases hcopy
  · have hne : b ≠ a := fun he => hno (he ▸ hb)
    show b ∈ s'.items.filter _
    simpa [hitems, hne] using hheld b hb

namespace Moor

/-! ## The lists of devices -/

theorem file_ne (h : Moor hs s) {e : Nat} (hd : d ∈ s.devices) (he : e ∈ s.devices) (hne : d ≠ e) :
    (s.device d).file ≠ (s.device e).file := fun heq => hne (List.inj_on_of_nodup_map h.distinct hd he heq)

/-- Of two deleted devices with one file the older is closed. -/
theorem older_or (h : Moor hs s) {e : Nat} (hd : d ∈ s.deletedDevices) (he : e ∈ s.deletedDevices) (hne : d ≠ e)
    (hf : (s.device e).file = (s.device d).file) : (s.device e).fdOpen = false ∨ (s.device d).fdOpen = false := by
  have hsym : Std.Symm fun x y => (s.device x).file = (s.device y).file → (s.device y).fdOpen = false ∨ (s.device x).fdOpen = false :=
    ⟨fun _ _ hxy hf => (hxy hf.symm).symm⟩
  have hpairs : s.deletedDevices.Pairwise fun x y => (s.device x).file = (s.device y).file →
      (s.device y).fdOpen = false ∨ (s.device x).fdOpen = false := h.older.imp fun hxy hf => .inl (hxy hf.symm)
  exact hpairs.forall hd he hne hf.symm

/-- **The registered devices keep their files, and none is opened again.** The
list of the deleted ones loses some, or an active one comes before them. -/
theorem drift {hs' : List Nat} (h : Moor hs s) (hl : LinkInv s') (hheld : ∀ a ∈ hs', a ∈ s'.items)
    (hused : ∀ x ∈ s'.registered, (s'.device x).used = s'.holders hs' x)
    (hopen : ∀ x ∈ s'.registered, (s'.device x).fdOpen = false → (s'.device x).deleted = true ∧ (s'.device x).used = 0)
    (hdev : ∀ x ∈ s'.registered, x ∈ s.registered ∧ (s'.device x).file = (s.device x).file ∧
      ((s.device x).fdOpen = false → (s'.device x).fdOpen = false) ∧ ((s.device x).deleted = true → (s'.device x).deleted = true))
    (hgone : s'.deletedDevices.Sublist s.deletedDevices ∨
      ∃ d ∈ s.devices, (s.device d).kicked = false ∧ s'.deletedDevices = d :: s.deletedDevices)
    (hfiles : (s'.devices.map fun d => (s'.device d).file).Nodup) : Moor hs' s' := by
  have hold : ∀ {x}, x ∈ s'.deletedDevices → x ∈ s'.registered := fun hx =>
    Space.mem_registered.mpr ⟨List.mem_append_right _ hx, (hl.dev.gone _ hx).2⟩
  refine ⟨hl, hheld, hused, hopen, hfiles, fun x hx hk e he hf => ?_, ?_⟩
  · have hxr : x ∈ s'.registered := Space.mem_registered.mpr ⟨List.mem_append_left _ hx, hk⟩
    obtain ⟨hxs, hxf, -, hxd⟩ := hdev x hxr
    obtain ⟨hxs, hxk⟩ := Space.mem_registered.mp hxs
    obtain ⟨-, hef, heo, -⟩ := hdev e (hold he)
    rw [hxf, hef] at hf
    -- An active device was active before.
    have hact : x ∈ s.devices := by
      refine (List.mem_append.mp hxs).resolve_right fun hgone => ?_
      have hdel := hxd (h.links.dev.gone x hgone).1
      rw [hl.dev.active x hx] at hdel
      cases hdel
    refine heo ?_
    rcases hgone with hsub | ⟨d, hd, -, hcons⟩
    · exact h.owner x hact hxk e (hsub.subset he) hf
    · rcases List.mem_cons.mp (hcons ▸ he) with rfl | he'
      · have hne : x ≠ e := fun heq => (List.nodup_append.mp hl.dev.nodup).2.2 x hx e he heq
        exact absurd hf.symm (h.file_ne hact hd hne)
      · exact h.owner x hact hxk e he' hf
  · have hpairs : s'.deletedDevices.Pairwise fun x e => (s.device e).file = (s.device x).file → (s.device e).fdOpen = false := by
      rcases hgone with hsub | ⟨d, hd, hk, hcons⟩
      · exact h.older.sublist hsub
      · rw [hcons]
        exact List.pairwise_cons.mpr ⟨fun e he hf => h.owner d hd hk e he hf, h.older⟩
    refine hpairs.imp_of_mem fun {x e} hx he hxe hf => ?_
    rw [(hdev x (hold hx)).2.1, (hdev e (hold he)).2.1] at hf
    exact (hdev e (hold he)).2.2.1 (hxe hf)

/-- The items that are held are where they were. -/
theorem holders_eq (h : Moor hs s) (hl : LinkInv s') (hstay : Stay hs s s') (e : Nat) : s'.holders hs e = s.holders hs e := by
  refine List.countP_congr fun a ha => ?_
  simp only [decide_eq_true_eq]
  refine ⟨fun he => ?_, hstay.order a ha e⟩
  obtain ⟨x, hx⟩ := (h.links.order.owned.covers (.item a)).mp (Space.mem_nodes_item.mpr (h.held a ha))
  rw [hl.order.owned.unique he (hstay.order a ha x hx)]
  exact hx

/-- The registered devices are what they were, or deleted. -/
theorem kept (h : Moor hs s) (hl : LinkInv s') (hstay : Stay hs s s')
    (hdev : ∀ x ∈ s'.registered, x ∈ s.registered ∧ ∃ y c b, s'.device x =
      { s.device x with deleted := y, consumed := c, badblock := b } ∧ ((s.device x).deleted = true → y = true))
    (hgone : s'.deletedDevices.Sublist s.deletedDevices ∨
      ∃ d ∈ s.devices, (s.device d).kicked = false ∧ s'.deletedDevices = d :: s.deletedDevices)
    (hfiles : (s'.devices.map fun d => (s'.device d).file).Nodup) : Moor hs s' := by
  refine h.drift hl (fun a ha => ?_) (fun x hx => ?_) (fun x hx => ?_) (fun x hx => ?_) hgone hfiles
  · obtain ⟨x, hx⟩ := (h.links.order.owned.covers (.item a)).mp (Space.mem_nodes_item.mpr (h.held a ha))
    exact Space.mem_nodes_item.mp (hl.order.mem_nodes (hstay.order a ha x hx))
  all_goals obtain ⟨hxs, y, c, b, hy, hdel⟩ := hdev x hx
  · rw [hy, h.holders_eq hl hstay]
    exact h.used x hxs
  · rw [hy]
    exact fun ho => ⟨hdel (h.opened x hxs ho).1, (h.opened x hxs ho).2⟩
  · rw [hy]
    exact ⟨hxs, rfl, id, hdel⟩

/-- The devices are as they were, up to the counters of bytes. -/
theorem same (h : Moor hs s) (hl : LinkInv s') (hsame : SameDevices s s') (hstay : Stay hs s s') : Moor hs s' := by
  refine h.kept hl hstay (fun x hx => ⟨hsame.registered ▸ hx, ?_⟩) (.inl (hsame.deletedDevices ▸ .refl _)) ?_
  · obtain ⟨c, b, hx⟩ := hsame.device x
    exact ⟨_, c, b, hx, id⟩
  · rw [hsame.devices, List.map_congr_left fun x _ => ?_]
    · exact h.distinct
    · obtain ⟨_, _, hx⟩ := hsame.device x
      rw [hx]

theorem getFreeBlock (h : Moor hs s) (hg : s.deviceGetFreeBlock a = some (k, s')) : Moor hs s' :=
  h.same (getFreeBlock_links h.links hg).1 (getFreeBlock_links h.links hg).2.1 (.getFreeBlock hg)

theorem fblockDelete (h : Moor hs s) (hf : f ∈ s.fblocks) (hd : s.deviceFblockDelete f = some s') : Moor hs s' :=
  h.same (h.links.fblockDelete hf hd) (deviceFblockDelete_same hd) (.fblockDelete hd)

theorem loadPost (h : Moor hs s) (hp : s.deviceLoadPost d = some s') : Moor hs s' :=
  h.same (deviceLoadPost_links h.links hp).1 (deviceLoadPost_links h.links hp).2.1 (.loadPost hp)

theorem cutFreeBlock (h : Moor hs s) (hd : d ∈ s.allDevices) (hk : (s.device d).kicked = false)
    (hidx : (s.item a).deviceIndex = (s.device d).index) (hc : s.deviceCutFreeBlock al a = some (k, s')) :
    Moor hs s' ∧ Stay hs s s' := by
  obtain ⟨hl, hsame, -, hcase⟩ := deviceCutFreeBlock_links h.links hd hk hidx hc
  have hstay : Stay hs s s' := by
    rcases hcase with ⟨-, rfl⟩ | ⟨-, hitems, -⟩
    · exact .of_eq rfl
    · obtain ⟨_, ho⟩ := cut_lists hc
      refine .one h.links hl (fun x hx => ?_) (fun e _ he => ho e he) fun b hb => ?_
      · exact (Space.mem_registered.mp (hsame.registered ▸ hx)).1
      · rw [hitems]
        exact List.mem_cons_of_mem _ (h.held b hb)
  exact ⟨h.same hl hsame hstay, hstay⟩

/-- Which requests they are does not matter. -/
theorem perm {hs' : List Nat} (h : Moor hs s) (hp : hs'.Perm hs) : Moor hs' s :=
  ⟨h.links, fun a ha => h.held a (hp.subset ha), fun d hd => by rw [Space.holders, hp.countP_eq]; exact h.used d hd, h.opened,
    h.distinct, h.owner, h.older⟩

/-- A device without a list is freed. -/
theorem destroy {t : IdxPointer} (h : Moor hs s) (hd : d ∈ s.deletedDevices) (ho : s.order d = [])
    (ht : s.deviceIndexs.delete (s.device d).index = some t) :
    Moor hs { s with deletedDevices := s.deletedDevices.erase d, deviceIndexs := t } := by
  refine h.kept (destroyed_links h.links hd ho ht) (.of_eq rfl) (fun x hx => ⟨?_, _, _, _, rfl, id⟩) (.inl List.erase_sublist) h.distinct
  obtain ⟨hx, hk⟩ := Space.mem_registered.mp hx
  exact Space.mem_registered.mpr ⟨List.mem_append.mpr ((List.mem_append.mp hx).imp_right List.mem_of_mem_erase), hk⟩

/-- A device goes to the end of the active ones. -/
theorem move (h : Moor hs s) (hl : LinkInv { s with devices := s.devices.erase d ++ [d] }) (hd : d ∈ s.devices) :
    Moor hs { s with devices := s.devices.erase d ++ [d] } := by
  refine h.kept hl (.of_eq rfl) (fun x hx => ⟨?_, _, _, _, rfl, id⟩) (.inl (.refl _)) ?_
  · obtain ⟨hx, hk⟩ := Space.mem_registered.mp hx
    exact Space.mem_registered.mpr ⟨((perm_move hd).append_right _).subset hx, hk⟩
  · exact ((perm_move hd).map _).nodup_iff.mpr h.distinct

/-- `device_delete`. -/
theorem delete (h : Moor hs s) (hd : d ∈ s.devices) : Moor hs (s.deviceDelete d) := by
  have hlinks := deviceDelete_links h.links hd
  have hfiles : ((s.devices.erase d).map fun x => (s.device x).file).Nodup := h.distinct.sublist (List.erase_sublist.map _)
  unfold Space.deviceDelete at hlinks ⊢
  simp only at hlinks ⊢
  split
  · next hk =>
    rw [if_pos hk] at hlinks
    refine h.kept hlinks (.of_eq rfl) (fun x hx => ⟨?_, _, _, _, rfl, id⟩) (.inl (.refl _)) hfiles
    obtain ⟨hx, hxk⟩ := Space.mem_registered.mp hx
    exact Space.mem_registered.mpr ⟨List.mem_append.mpr ((List.mem_append.mp hx).imp_left List.mem_of_mem_erase), hxk⟩
  · next hk =>
    rw [if_neg hk] at hlinks
    have hdev : ∀ x, ∃ y c b, Function.update s.device d { s.device d with deleted := true } x =
        { s.device x with deleted := y, consumed := c, badblock := b } ∧ ((s.device x).deleted = true → y = true) := by
      intro x
      by_cases hx : x = d
      · subst hx
        exact ⟨_, _, _, Function.update_self .., fun _ => rfl⟩
      · exact ⟨_, _, _, Function.update_of_ne hx .., id⟩
    refine h.kept hlinks (.of_eq rfl) (fun x hx => ⟨?_, hdev x⟩) (.inr ⟨d, hd, by simpa using hk, rfl⟩) ?_
    · obtain ⟨hx, hxk⟩ := Space.mem_registered.mp hx
      obtain ⟨_, _, _, hy, -⟩ := hdev x
      have hxk : (Function.update s.device d _ x).kicked = false := hxk
      rw [hy] at hxk
      refine Space.mem_registered.mpr ⟨?_, hxk⟩
      rcases List.mem_append.mp hx with hx | hx
      · exact List.mem_append_left _ (List.mem_of_mem_erase hx)
      · rcases List.mem_cons.mp hx with rfl | hx
        · exact List.mem_append_left _ hd
        · exact List.mem_append_right _ hx
    · show ((s.devices.erase d).map fun x => (Function.update s.device d _ x).file).Nodup
      rw [List.map_congr_left fun x _ => ?_]
      · exact hfiles
      · obtain ⟨_, _, _, hy, -⟩ := hdev x
        rw [hy]

/-- **Giving back** the block of an item that nobody holds. -/
theorem giveBack (h : Moor hs s) (ha : a ∈ s.items) (hno : a ∉ hs) (hr : s.deviceReturnFreeBlock al a = some (k, s')) :
    Moor hs (s'.itemFree a) := by
  obtain ⟨-, hkept, -⟩ := deviceReturnFreeBlock_kept h.links ha hr
  obtain ⟨d, -, hgone⟩ := giveBack_lists h.links ha hr
  refine h.kept (deviceReturnFreeBlock_links h.links ha hr) (.giveBack h.links ha hno h.held hr) (fun x hx => ?_)
    (hgone.imp (fun he => by rw [← he]; exact .refl _) fun hd => ⟨d, hd⟩) ?_
  · obtain ⟨hx, hk⟩ := Space.mem_registered.mp hx
    have hk : (s'.device x).kicked = false := hk
    have hall : x ∈ s.allDevices := by
      by_contra hno
      rw [hkept.copies x hx hno] at hk
      cases hk
    obtain ⟨y, c, b, hy, hdel⟩ := hkept.device x hall
    rw [hy] at hk
    exact ⟨Space.mem_registered.mpr ⟨hall, hk⟩, y, c, b, hy, hdel⟩
  · show (s'.devices.map fun d => (s'.device d).file).Nodup
    rw [hkept.files]
    exact h.distinct

/-! ## Holding and releasing -/

/-- `used` and `fd` of device `d` change, and what is held with them. -/
theorem touch {hs' : List Nat} {u : Int} {o : Bool} (h : Moor hs s) (hheld : ∀ a ∈ hs', a ∈ s.items)
    (hother : ∀ e, e ≠ d → s.holders hs' e = s.holders hs e) (hused : (s.device d).kicked = false → u = s.holders hs' d)
    (hopen : o = false → (s.device d).deleted = true ∧ u = 0) (hclose : (s.device d).fdOpen = false → o = false) :
    Moor hs' (s.setDevice d { s.device d with used := u, fdOpen := o }) := by
  generalize hx : ({ s.device d with used := u, fdOpen := o } : Device) = x
  have hdev : ∀ e, (s.setDevice d x).device e = if e = d then x else s.device e := by
    intro e
    by_cases he : e = d
    · rw [if_pos he, he]
      exact Function.update_self ..
    · rw [if_neg he]
      exact Function.update_of_ne he ..
  have hfile : ∀ e, ((s.setDevice d x).device e).file = (s.device e).file := by
    intro e
    rw [hdev]
    split
    · next he => rw [he, ← hx]
    · rfl
  have hreg : ∀ {e}, e ∈ (s.setDevice d x).registered → e ∈ s.registered := by
    intro e he
    obtain ⟨he, hk⟩ := Space.mem_registered.mp he
    refine Space.mem_registered.mpr ⟨he, ?_⟩
    rw [hdev] at hk
    split at hk
    · next hed => rwa [← hx, ← hed] at hk
    · exact hk
  refine h.drift (h.links.same (hx ▸ sameBlocks_setUsed s d u o)) hheld (fun e he => ?_) (fun e he => ?_) (fun e he => ?_)
    (.inl (.refl _)) ?_
  · show _ = (s.holders hs' e : Int)
    rw [hdev]
    split
    · next hed =>
      rw [← hx, hed]
      exact hused (hed ▸ (Space.mem_registered.mp (hreg he)).2)
    · next hed =>
      rw [hother e hed]
      exact h.used e (hreg he)
  · rw [hdev]
    split
    · rw [← hx]
      exact hopen
    · exact h.opened e (hreg he)
  · refine ⟨hreg he, hfile e, ?_⟩
    rw [hdev]
    split
    · next hed =>
      rw [hed, ← hx]
      exact ⟨hclose, id⟩
    · exact ⟨id, id⟩
  · show (s.devices.map _).Nodup
    rw [List.map_congr_left fun e _ => hfile e]
    exact h.distinct

/-- `device_destroy` closes a device that nobody uses. -/
theorem close (h : Moor hs s) (hd : d ∈ s.deletedDevices) (hu : (s.device d).used = 0) :
    Moor hs (s.setDevice d { s.device d with fdOpen := false }) := by
  have hgone := h.links.dev.gone d hd
  exact h.touch (u := (s.device d).used) h.held (fun _ _ => rfl)
    (fun hk => h.used d (Space.mem_registered.mpr ⟨List.mem_append_right _ hd, hk⟩)) (fun _ => ⟨hgone.1, hu⟩) fun _ => rfl

theorem holders_cons (a : Nat) (hs : List Nat) (d : Nat) (s : Space) :
    s.holders (a :: hs) d = s.holders hs d + if .item a ∈ s.order d then 1 else 0 := by
  simp [Space.holders, List.countP_cons]

theorem holders_cons_of_ne (h : LinkInv s) (ha : .item a ∈ s.order d) {e : Nat} (he : e ≠ d) :
    s.holders (a :: hs) e = s.holders hs e := by
  rw [holders_cons, if_neg fun hm => he (h.order.owned.unique hm ha)]
  rfl

/-- One more request holds item `a` of an active device. -/
theorem hold (h : Moor hs s) (ha : .item a ∈ s.order d) (hd : d ∈ s.devices) :
    Moor (a :: hs) (s.setDevice d { s.device d with used := (s.device d).used + 1 }) := by
  have hmem := Space.mem_nodes_item.mp (h.links.order.mem_nodes ha)
  have hreg : d ∈ s.registered := Space.mem_registered.mpr ⟨List.mem_append_left _ hd, h.links.order.not_kicked ha⟩
  refine h.touch (o := (s.device d).fdOpen) (List.forall_mem_cons.mpr ⟨hmem, h.held⟩)
    (fun e he => holders_cons_of_ne h.links ha he) (fun _ => ?_) (fun ho => ?_) id
  · rw [holders_cons, if_pos ha, h.used d hreg]
    rfl
  · have hdel := (h.opened d hreg ho).1
    rw [h.links.dev.active d hd] at hdel
    cases hdel

/-- A request gives back its hold on item `a`. -/
theorem release (h : Moor (a :: hs) s) (ha : .item a ∈ s.order d) :
    Moor hs (s.setDevice d { s.device d with used := (s.device d).used - 1 }) := by
  have hreg : d ∈ s.registered :=
    Space.mem_registered.mpr ⟨h.links.order.mem_allDevices ha, h.links.order.not_kicked ha⟩
  have hused : (s.device d).used = s.holders hs d + 1 := by
    rw [h.used d hreg, holders_cons, if_pos ha]
    rfl
  refine h.touch (o := (s.device d).fdOpen) (fun b hb => h.held b (List.mem_cons_of_mem a hb))
    (fun e he => (holders_cons_of_ne h.links ha he).symm) (fun _ => ?_) (fun ho => ?_) id
  · rw [hused, Int.add_sub_cancel]
  · -- A device that is closed has no holders.
    have hzero := (h.opened d hreg ho).2
    omega

/-- Something of an item changes that is none of `device.c`'s business. -/
theorem setItem {x : Item} (h : Moor hs s) (hx : a ∈ s.items → x.offset = (s.item a).offset ∧
    x.length = (s.item a).length ∧ x.deviceIndex = (s.item a).deviceIndex) : Moor hs (s.setItem a x) :=
  h.same (h.links.same (sameBlocks_setItem hx)) ⟨rfl, rfl, rfl, rfl, fun _ => ⟨_, _, rfl⟩⟩ (.of_eq rfl)

/-! ## Loading a configuration -/

/-- The new device that `device_add` makes. -/
theorem add_frame {file capacity : Nat} (h : s.deviceAdd al d file capacity = some s') :
    (s'.device d).used = 0 ∧ (s'.device d).fdOpen = true ∧ s'.items = s.items ∧ (∀ e, e ≠ d → s'.order e = s.order e) ∧
      ∀ a, .item a ∉ s'.order d := by
  unfold Space.deviceAdd at h
  obtain ⟨⟨i, t⟩, -, h⟩ := Option.bind_eq_some_iff.mp h
  simp only at h
  split at h
  · unfold Space.deviceFblockInsert at h
    split at h
    · simp only [Bool.false_eq_true, if_false, Option.some.injEq] at h
      subst h
      exact ⟨by simp [Space.setDevice], by simp [Space.setDevice], rfl, fun e he => by simp [Space.setDevice, he],
        by simp [Space.setDevice]⟩
    · simp only [if_true, Option.some.injEq] at h
      subst h
      exact ⟨by simp [Space.ipbucketAdd], by simp [Space.ipbucketAdd], rfl, fun e he => by simp [Space.ipbucketAdd, he],
        by simp [Space.ipbucketAdd]⟩
  · cases h
    exact ⟨by simp, by simp, rfl, fun e he => by simp [he], by simp⟩

/-- `device_add` for a file that is vacant. -/
theorem add {file capacity : Nat} (h : Moor hs s) (hd : d ∉ s.allDevices) (hcap : capacity ≤ capacityLimit)
    (hv : s.Vacant file) (hadd : s.deviceAdd al d file capacity = some s') : Moor hs s' := by
  obtain ⟨hdevs, hdel, -, hkeep, hfile, -⟩ := Space.deviceAdd_frame hadd
  obtain ⟨hu, ho, hitems, horder, hnone⟩ := add_frame hadd
  have hl := deviceAdd_links h.links hd hcap hadd
  have hold : ∀ x ∈ s.allDevices, s'.device x = s.device x ∧ s'.order x = s.order x := fun x hx =>
    have hne : x ≠ d := fun he => hd (he ▸ hx)
    ⟨hkeep x hne, horder x hne⟩
  have hmem : ∀ {x}, x ∈ s'.allDevices → x = d ∨ x ∈ s.allDevices := by
    intro x hx
    simp only [Space.allDevices, hdevs, hdel, List.mem_append, List.mem_singleton] at hx ⊢
    tauto
  have hreg : ∀ {x}, x ∈ s'.registered → x = d ∨ x ∈ s.registered ∧ s'.device x = s.device x ∧ s'.order x = s.order x := by
    intro x hx
    obtain ⟨hx, hk⟩ := Space.mem_registered.mp hx
    refine (hmem hx).imp_right fun hx => ?_
    obtain ⟨h1, h2⟩ := hold x hx
    exact ⟨Space.mem_registered.mpr ⟨hx, h1 ▸ hk⟩, h1, h2⟩
  refine ⟨hl, fun a ha => hitems ▸ h.held a ha, fun x hx => ?_, fun x hx hc => ?_, ?_, fun x hx hk e he hf => ?_, ?_⟩
  · rcases hreg hx with rfl | ⟨hx, h1, h2⟩
    · have hzero : s'.holders hs x = 0 := List.countP_eq_zero.mpr fun a _ => by simpa using hnone a
      rw [hu, hzero]
      rfl
    · rw [h1, Space.holders, h2]
      exact h.used x hx
  · rcases hreg hx with rfl | ⟨hx, h1, -⟩
    · rw [ho] at hc
      cases hc
    · rw [h1] at hc ⊢
      exact h.opened x hx hc
  · have hmap : s'.devices.map (fun x => (s'.device x).file) = s.devices.map (fun x => (s.device x).file) ++ [file] := by
      rw [hdevs, List.map_append, List.map_singleton, hfile,
        List.map_congr_left fun x hx => by rw [(hold x (List.mem_append_left _ hx)).1]]
    rw [hmap]
    refine (List.perm_append_singleton file _).nodup_iff.mpr (List.nodup_cons.mpr ⟨fun hm => ?_, h.distinct⟩)
    obtain ⟨x, hx, heq⟩ := List.mem_map.mp hm
    exact hv.1 x hx heq
  · rw [hdel] at he
    rw [(hold e (List.mem_append_right _ he)).1] at hf ⊢
    rw [hdevs, List.mem_append, List.mem_singleton] at hx
    rcases hx with hx | rfl
    · rw [(hold x (List.mem_append_left _ hx)).1] at hk hf
      exact h.owner x hx hk e he hf
    · exact hv.2 e he (hf.trans hfile)
  · rw [hdel]
    refine h.older.imp_of_mem fun {x e} hx he hxe => ?_
    rw [(hold e (List.mem_append_right _ he)).1, (hold x (List.mem_append_right _ hx)).1]
    exact hxe

/-- Other devices are deleted. -/
theorem vacant_delete {file : Nat} (hv : s.Vacant file) (hd : d ∈ s.devices) : (s.deviceDelete d).Vacant file := by
  have hdf := hv.1 d hd
  unfold Space.deviceDelete
  simp only
  split
  · exact ⟨fun x hx => hv.1 x (List.mem_of_mem_erase hx), hv.2⟩
  · refine ⟨fun x hx => ?_, fun x hx => ?_⟩
    · show (Function.update s.device d _ x).file ≠ file
      by_cases hxd : x = d
      · rw [hxd, Function.update_self]
        exact hdf
      · rw [Function.update_of_ne hxd]
        exact hv.1 x (List.mem_of_mem_erase hx)
    · show (Function.update s.device d _ x).file = file → (Function.update s.device d _ x).fdOpen = false
      by_cases hxd : x = d
      · rw [hxd, Function.update_self]
        exact fun hf => absurd hf hdf
      · rw [Function.update_of_ne hxd]
        exact hv.2 x ((List.mem_cons.mp hx).resolve_left hxd)

/-- A device is added for another file. -/
theorem vacant_add {file file' capacity : Nat} (hv : s.Vacant file) (hd : d ∉ s.allDevices) (hne : file' ≠ file)
    (hadd : s.deviceAdd al d file' capacity = some s') : s'.Vacant file := by
  obtain ⟨hdevs, hdel, -, hkeep, hfile, -⟩ := Space.deviceAdd_frame hadd
  have hold : ∀ x ∈ s.allDevices, s'.device x = s.device x := fun x hx => hkeep x fun he => hd (he ▸ hx)
  refine ⟨fun x hx => ?_, fun x hx => ?_⟩
  · rw [hdevs, List.mem_append, List.mem_singleton] at hx
    rcases hx with hx | rfl
    · rw [hold x (List.mem_append_left _ hx)]
      exact hv.1 x hx
    · rw [hfile]
      exact hne
  · rw [hdel] at hx
    rw [hold x (List.mem_append_right _ hx)]
    exact hv.2 x hx

/-- A plan whose new files are vacant can be loaded. -/
structure Ready (plan : List DevicePlan) (s : Space) : Prop where
  files : (plan.map DevicePlan.file).Nodup
  running : ∀ p ∈ plan, ∀ d, p.existing = some d → d ∈ s.devices
  capacity : ∀ p ∈ plan, p.capacity ≤ capacityLimit
  vacant : ∀ p ∈ plan, p.existing = none → s.Vacant p.file

theorem loadDevices {plan : List DevicePlan} (h : Moor hs s) (hr : Ready plan s)
    (hl : plan.foldlM (fun s p => s.loadDevice al p) s = some s') : Moor hs s' := by
  induction plan generalizing s with
  | nil =>
    cases hl
    exact h
  | cons p plan ih =>
    rw [List.foldlM_cons] at hl
    obtain ⟨s₁, h₁, hl⟩ := Option.bind_eq_some_iff.mp hl
    obtain ⟨hnew, hfiles⟩ := List.nodup_cons.mp hr.files
    unfold Space.loadDevice at h₁
    split at h₁
    · next d hd =>
      cases h₁
      have hmem := hr.running p List.mem_cons_self d hd
      have hperm : ∀ x, x ∈ s.devices.erase d ++ [d] ↔ x ∈ s.devices := fun x => (perm_move hmem).mem_iff
      have hlinks : LinkInv { s with devices := s.devices.erase d ++ [d] } := (LinkInv.rule al).move h.links hmem
      refine ih (h.move hlinks hmem) ⟨hfiles, fun q hq x hx => (hperm x).mpr (hr.running q (List.mem_cons_of_mem p hq) x hx),
        fun q hq => hr.capacity q (List.mem_cons_of_mem p hq), fun q hq hx => ?_⟩ hl
      have hv := hr.vacant q (List.mem_cons_of_mem p hq) hx
      exact ⟨fun x hx => hv.1 x ((hperm x).mp hx), hv.2⟩
    · next hx =>
      obtain ⟨d, hd, h₁⟩ := Option.bind_eq_some_iff.mp h₁
      have hfresh : d ∉ s.allDevices := al.fresh hd
      have htick : Moor hs { s with ticks := s.ticks + 1 } := by
        refine h.same (h.links.same ?_) ⟨rfl, rfl, rfl, rfl, fun _ => ⟨_, _, rfl⟩⟩ (.of_eq rfl)
        exact ⟨rfl, rfl, rfl, rfl, rfl, rfl, rfl, rfl, rfl, fun _ => ⟨_, _, rfl⟩, fun _ _ => ⟨rfl, rfl, rfl⟩⟩
      have hdevs := (Space.deviceAdd_frame h₁).1
      refine ih (htick.add hfresh (hr.capacity p List.mem_cons_self) (hr.vacant p List.mem_cons_self hx) h₁)
        ⟨hfiles, fun q hq x hx => ?_, fun q hq => hr.capacity q (List.mem_cons_of_mem p hq), fun q hq hx => ?_⟩ hl
      · rw [hdevs]
        exact List.mem_append_left _ (hr.running q (List.mem_cons_of_mem p hq) x hx)
      · exact vacant_add (s := { s with ticks := s.ticks + 1 }) (hr.vacant q (List.mem_cons_of_mem p hq) hx) hfresh
          (fun he => hnew (List.mem_map.mpr ⟨q, hq, he.symm⟩)) h₁

/-- The devices that a configuration does not name. -/
theorem deletes {l : List Nat} (h : Moor hs s) (hl : l.Nodup) (hmem : ∀ d ∈ l, d ∈ s.devices) :
    Moor hs (l.foldl (fun s d => s.deviceDelete d) s) ∧
      ∀ file, s.Vacant file → (l.foldl (fun s d => s.deviceDelete d) s).Vacant file := by
  induction l generalizing s with
  | nil => exact ⟨h, fun _ hv => hv⟩
  | cons d l ih =>
    obtain ⟨hd, hl'⟩ := List.nodup_cons.mp hl
    have hdm := hmem d List.mem_cons_self
    obtain ⟨h₁, hv₁⟩ := ih (h.delete hdm) hl' fun x hx => by
      have hne : x ≠ d := fun he => hd (he ▸ hx)
      rw [(Space.deviceDelete_frame d s).1]
      exact (List.mem_erase_of_ne hne).mpr (hmem x (List.mem_cons_of_mem d hx))
    exact ⟨h₁, fun file hv => hv₁ file (vacant_delete hv hdm)⟩

/-- The file of a new entry is vacant: the check looks only at the first
deleted device with the file, but the older ones are closed. -/
theorem vacant_of_plan {plan : List DevicePlan} (h : Moor hs s) (hplan : DevicePlanOk s plan) {p : DevicePlan}
    (hp : p ∈ plan) (hx : p.existing = none) : s.Vacant p.file := by
  have hno : s.searchInode p.file s.devices = none := (hplan.existing p hp).symm.trans hx
  refine ⟨fun d hd => ?_, ?_⟩
  · simpa using List.find?_eq_none.mp hno d hd
  have hfirst := hplan.closed p hp
  have holder := h.older
  unfold Space.searchInode at hfirst
  revert hfirst holder
  generalize s.deletedDevices = l
  intro hfirst holder
  induction l with
  | nil => exact fun d hd => by cases hd
  | cons e l ih =>
    obtain ⟨he, hl⟩ := List.pairwise_cons.mp holder
    by_cases hfile : (s.device e).file = p.file
    · -- All others come behind the first one.
      refine List.forall_mem_cons.mpr ⟨fun _ => hfirst e ?_, fun d hd hf => he d hd (hf.trans hfile.symm)⟩
      rw [List.find?_cons_of_pos (by simpa using hfile)]
    · refine List.forall_mem_cons.mpr ⟨fun hf => absurd hf hfile, ih (fun d hd => hfirst d ?_) hl⟩
      rw [List.find?_cons_of_neg (by simpa using hfile)]
      exact hd

/-- **A configuration that has passed its check is loaded.** -/
theorem confLoad {plan : List DevicePlan} {conf : Conf} (h : Moor hs s) (hplan : DevicePlanOk s plan)
    (hl : s.deviceConfLoad al conf plan = some s') : Moor hs s' := by
  have hnd := (List.nodup_append.mp h.links.dev.nodup).1
  have hpercent : Moor hs { s with badblockPercent := conf.badblockPercent } := by
    have hlinks : LinkInv { s with badblockPercent := conf.badblockPercent } := h.links.same
      ⟨rfl, rfl, rfl, rfl, rfl, rfl, rfl, rfl, rfl, fun _ => ⟨_, _, rfl⟩, fun _ _ => ⟨rfl, rfl, rfl⟩⟩
    exact ⟨hlinks, h.held, h.used, h.opened, h.distinct, h.owner, h.older⟩
  obtain ⟨hdel, hvac⟩ := hpercent.deletes (hnd.filter _) fun d (hd : d ∈ s.droppedDevices plan) => List.mem_of_mem_filter hd
  refine hdel.loadDevices ⟨hplan.files, fun p hp d hd => ?_, fun p hp => (hplan.capacity p hp).1, fun p hp hx => ?_⟩ hl
  · rw [(Space.deviceDeletes_frame _ _).1]
    show d ∈ s.devices.diff (s.droppedDevices plan)
    rw [Space.diff_dropped hnd, mem_pending]
    exact ⟨(Space.searchInode_eq_some ((hplan.existing p hp).symm.trans hd)).1, List.mem_map.mpr ⟨p, hp, hd⟩⟩
  · exact hvac _ (h.vacant_of_plan hplan hp hx)

end Moor

/-- A load leaves the lists of the devices alone. -/
theorem Stay.confLoad {plan : List DevicePlan} {conf : Conf} (h : LinkInv s) (hplan : DevicePlanOk s plan)
    (hl : s.deviceConfLoad al conf plan = some s') : Stay hs s s' := by
  have rule := LinkInv.rule al
  have hsame : ∀ {t : Space} (percent : Int) (ticks : Nat), LinkInv t → LinkInv { t with badblockPercent := percent, ticks } :=
    fun percent ticks h => h.same ⟨rfl, rfl, rfl, rfl, rfl, rfl, rfl, rfl, rfl, fun _ => ⟨_, _, rfl⟩, fun _ _ => ⟨rfl, rfl, rfl⟩⟩
  refine (Space.deviceConfLoad_rule (P := fun t => LinkInv t ∧ Stay hs s t) (fun t ht => (List.nodup_append.mp ht.1.dev.nodup).1)
    (fun {t} ht => ⟨hsame _ t.ticks ht.1, ht.2.trans (.of_eq rfl)⟩) (fun {t d} ht hd => ⟨rule.delete ht.1 hd, ht.2.trans (.of_eq ?_)⟩)
    (fun ht hd => ⟨rule.move ht.1 hd, ht.2.trans (.of_eq rfl)⟩)
    (fun {t t' d p} ht hp _ hd hadd => ⟨rule.add (hsame t.badblockPercent (t.ticks + 1) ht.1) hd (hplan.capacity p hp).1
      (hplan.capacity p hp).2 hadd, ht.2.trans ⟨fun a _ e he => ?_⟩⟩) hplan ⟨h, .of_eq rfl⟩ hl).2
  · unfold Space.deviceDelete
    simp only
    split <;> rfl
  · have hne : e ≠ d := fun hed => hd (hed ▸ ht.1.order.mem_allDevices he)
    rw [(Moor.add_frame hadd).2.2.2.1 e hne]
    exact he

end OliveHc
