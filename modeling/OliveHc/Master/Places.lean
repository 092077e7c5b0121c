/-
Where the blocks of the items are, in every state of the program.

What the calls of `device.c` keep (`SpaceRule`) is kept by every step of the
master that loads nothing and asks for no empty block. The links between the
objects of `device.c` are kept by loading as well, if no record is empty.
-/
import OliveHc.Device.Allocator
import OliveHc.Format.Restore
import OliveHc.Master.Recency
import OliveHc.Reload.Plan

namespace OliveHc

/-! ## What the calls of `device.c` keep -/

/-- A property of the state of `device.c` that its calls keep. -/
structure SpaceRule (al : Allocator) (P : Space → Prop) : Prop where
  links : ∀ {s}, P s → LinkInv s
  same : ∀ {s s'}, P s → SameBlocks s s' → P s'
  get : ∀ {s s' a k}, P s → (s.item a).length ≠ 0 → (s.item a).length < 2 ^ 32 → s.deviceGetFreeBlock a = some (k, s') → P s'
  giveBack : ∀ {s s' a k}, P s → a ∈ s.items → s.deviceReturnFreeBlock al a = some (k, s') → P (s'.itemFree a)
  fblockDelete : ∀ {s s' f d}, P s → d ∈ s.deletedDevices → .fblock f ∈ s.order d → s.deviceFblockDelete f = some s' → P s'
  destroy : ∀ {s d t}, P s → d ∈ s.deletedDevices → s.order d = [] → s.deviceIndexs.delete (s.device d).index = some t →
    P { s with deletedDevices := s.deletedDevices.erase d, deviceIndexs := t }
  delete : ∀ {s d}, P s → d ∈ s.devices → P (s.deviceDelete d)
  move : ∀ {s d}, P s → d ∈ s.devices → P { s with devices := s.devices.erase d ++ [d] }
  add : ∀ {s s' d file capacity}, P s → d ∉ s.allDevices → capacity ≤ capacityLimit → 512 ∣ capacity →
    s.deviceAdd al d file capacity = some s' → P s'

/-- The order of the devices does not matter. -/
theorem DevInv.perm {s : Space} {l : List Nat} (h : DevInv s) (hp : l.Perm s.devices) : DevInv { s with devices := l } := by
  have hall : (l ++ s.deletedDevices).Perm s.allDevices := hp.append_right _
  exact ⟨hall.nodup_iff.mpr h.nodup, fun d hd => h.active d (hp.subset hd), h.gone,
    fun d hd => h.index d (hall.subset hd), fun d hd => h.capacity d (hall.subset hd)⟩

/-- A device that goes to the end of the list. -/
theorem perm_move {d : Nat} {l : List Nat} (hd : d ∈ l) : (l.erase d ++ [d]).Perm l :=
  (List.perm_append_singleton d _).trans (List.perm_cons_erase hd).symm

/-- The links. -/
theorem LinkInv.rule (al : Allocator) : SpaceRule al LinkInv where
  links h := h
  same h hs := h.same hs
  get h _ _ hg := (getFreeBlock_links h hg).1
  giveBack h ha hr := deviceReturnFreeBlock_links h ha hr
  fblockDelete h _ hf hd := h.fblockDelete (Space.mem_nodes_fblock.mp (h.order.mem_nodes hf)) hd
  destroy h hd ho ht := destroyed_links h hd ho ht
  delete h hd := deviceDelete_links h hd
  move {s d} h hd := by
    have hall : ∀ x, x ∈ (s.devices.erase d ++ [d]) ++ s.deletedDevices ↔ x ∈ s.allDevices := fun x =>
      ((perm_move hd).append_right _).mem_iff
    exact ⟨h.dev.perm (perm_move hd), h.queue, h.order.relist rfl (fun _ => Iff.rfl) (fun x hx => (hall x).mp hx)
      (fun x hx hn => absurd ((hall x).mpr hx) hn) (fun _ _ => ⟨rfl, rfl⟩) fun n _ => by cases n <;> rfl⟩
  add h hd hcap _ hadd := deviceAdd_links h hd hcap hadd

/-- The whole invariant of the allocator. -/
theorem SpaceInv.rule {strict : Prop} {al : Allocator} (hal : strict → ∀ t l, (al.get t l).isSome) :
    SpaceRule al (SpaceInv strict) where
  links h := h.links
  same h hs := h.same hs
  get h h1 hlen hg := getFreeBlock_inv h (Nat.pos_of_ne_zero h1) hlen hg
  giveBack h ha hr := deviceReturnFreeBlock_inv hal h ha hr
  fblockDelete {_ _ _ d} h hd hf hs := dropFblock_inv h.dev h.order h.queue (fun _ _ => Iff.rfl) hf (h.dev.gone d hd).1 hs
  destroy h hd ho ht := destroyed_inv h hd ho ht
  delete h hd := deviceDelete_inv h hd
  move {s d} h hd := by
    have hall : ∀ x, x ∈ (s.devices.erase d ++ [d]) ++ s.deletedDevices ↔ x ∈ s.allDevices := fun x =>
      ((perm_move hd).append_right _).mem_iff
    refine ⟨h.dev.perm (perm_move hd), ⟨h.queue.owned, h.queue.size⟩, h.order.owned, fun x hx => h.order.unlisted x fun hm => hx ((hall x).mpr hm),
      fun x hx => h.order.kicked x ((hall x).mp hx), h.order.nodeIndex, h.order.length, fun x hx => ?_⟩
    exact h.order.layout x ((hall x).mp hx)
  add h hd hcap hdvd hadd := deviceAdd_inv h hd hcap hdvd hadd

namespace Master

variable {rt : Runtime} {P : Space → Prop} {m m' : Master} {s a : Nat}

/-! ## The steps of the master -/

/-- Giving back the block of an item takes only the item away. -/
theorem itemGone_giveBack {sp sp' : Space} {al : Allocator} {k : Nat} (h : LinkInv sp) (ha : a ∈ sp.items)
    (hr : sp.deviceReturnFreeBlock al a = some (k, sp')) : ItemGone a sp (sp'.itemFree a) := by
  obtain ⟨-, hkept, -, hitems, horder⟩ := deviceReturnFreeBlock_kept h ha hr
  refine ⟨fun x hx hm => ?_, hkept.deletedDevices, horder⟩
  simpa [Space.itemFree, hx, hitems] using hm

/-- **`server_item_delete`.** -/
theorem serverItemDelete_space (rule : SpaceRule rt.al P) (hP : P m.space) (hd : m.serverItemDelete rt a = some m') :
    P m'.space ∧ ItemGone a m.space m'.space := by
  cases serverItemDelete_cases hd with
  | @marked s ha hs hu =>
    have hsp : ((m.unhash s a).setItem a { m.space.item a with deleted := true }).space =
        m.space.setItem a { m.space.item a with deleted := true } := by rw [unhash_eq]; rfl
    rw [hsp]
    exact ⟨rule.same hP (sameBlocks_setItem fun _ => ⟨rfl, rfl, rfl⟩), fun _ _ hx => hx, fun _ hx => hx, fun _ _ _ _ hx => hx⟩
  | freed ha _ _ hr => exact ⟨rule.giveBack hP ha hr, itemGone_giveBack (rule.links hP) ha hr⟩

/-- The loops of `device.c`, with the master around them. -/
theorem host_keeps (rule : SpaceRule rt.al P) : (Master.host rt).Keeps fun m => P m.space where
  space_withSpace _ _ := rfl
  withSpace_space _ := rfl
  withSpace_withSpace _ _ _ := rfl
  inv _ h := rule.links h
  fblockDelete _ _ _ _ h hd hf hs := rule.fblockDelete h hd hf hs
  itemDelete _ _ _ h _ hd := serverItemDelete_space rule h hd
  close _ d h _ _ := rule.same h (sameBlocks_setUsed _ d _ false)
  destroy _ _ _ h hd ho ht := rule.destroy h hd ho ht

theorem expirePassbys_space {l : List Nat} {count : Nat} : (m.expirePassbys s count l).space = m.space := by
  induction l generalizing m count with
  | nil => rfl
  | cons p l ih =>
    unfold expirePassbys
    simp only
    split
    · rfl
    · split
      · rfl
      · exact ih.trans rfl

theorem getCase_space (rule : SpaceRule rt.al P) (hP : P m.space) {n : Option (HashNode Entry)} {o : Option Nat}
    (hc : GetCase rt s n m o m') : P m'.space := by
  cases hc with
  | miss | passby | hidden => exact hP
  | stale _ hd => exact (serverItemDelete_space rule hP hd).1
  | @hit id a d =>
    have hused := rule.same hP (sameBlocks_setUsed m.space d ((m.space.device d).used + 1) (m.space.device d).fdOpen)
    exact rule.same hused (sameBlocks_setItem (a := a) fun _ => ⟨rfl, rfl, rfl⟩)

theorem deleteCase_space (rule : SpaceRule rt.al P) (hP : P m.space) {n : Option (HashNode Entry)} {found : Bool}
    (hc : DeleteCase rt s n m found m') : P m'.space := by
  cases hc with
  | miss | passby => exact hP
  | item hd => exact (serverItemDelete_space rule hP hd).1

theorem serverPassbyStore_space {id : HashId} {ok : Bool} (h : m.serverPassbyStore rt s id = (ok, m')) : m'.space = m.space := by
  unfold serverPassbyStore at h
  simp only at h
  split at h
  · cases h
    rfl
  split at h <;> cases h <;> rfl

theorem freed_space (rule : SpaceRule rt.al P) (hP : P m.space) {id : HashId} {n : Option (HashNode Entry)}
    (hf : Freed rt s id n m m') : P m'.space := by
  cases hf with
  | absent hp =>
    rw [serverPassbyStore_space hp]
    exact hP
  | passby => exact hP
  | item hd => exact (serverItemDelete_space rule hP hd).1

/-- While item `a` of `n` bytes looks for a block. -/
structure Seeking (P : Space → Prop) (n a : Nat) (m : Master) : Prop where
  space : P m.space
  fresh : a ∉ m.space.items
  length : (m.space.item a).length = n

theorem Seeking.evicted {n : Nat} (h : Seeking P n a m) (hP : P m'.space) (he : Evicted m m') : Seeking P n a m' := by
  refine ⟨hP, fun ha => h.fresh (he.items.subset ha), ?_⟩
  obtain ⟨x, hx, -⟩ := he.item a
  rw [hx]
  exact h.length

/-- A search that finds nothing. -/
theorem Seeking.miss (rule : SpaceRule rt.al P) {n : Nat} {sp : Space} (hn : n ≠ 0) (hlt : n < 2 ^ 32) (h : Seeking P n a m)
    (hg : m.space.deviceGetFreeBlock a = some (0, sp)) : Seeking P n a { m with space := sp } ∧ ItemsSame m.space sp := by
  have hP := rule.get h.space (by rw [h.length]; exact hn) (by rw [h.length]; exact hlt) hg
  have hsame : ItemsSame m.space sp := by
    rcases (getFreeBlock_links (rule.links h.space) hg).2.2 with ⟨-, hitems, hitem⟩ | ⟨d, -, htaken⟩
    · exact ⟨hitem, hitems⟩
    · -- A block that is found is not empty.
      have hk := htaken.size
      rw [h.length] at hk
      exact absurd hk (ipbucketBlockSize_pos (Nat.pos_of_ne_zero hn) hlt.le).ne
  refine ⟨⟨hP, ?_, ?_⟩, hsame⟩
  · show a ∉ sp.items
    rw [hsame.items]
    exact h.fresh
  · show (sp.item a).length = n
    rw [hsame.item]
    exact h.length

/-- **`try_again`**, with whatever else making room keeps. -/
theorem Seeking.searched (rule : SpaceRule rt.al P) {Q : Master → Prop} (hev : Evictions rt (fun _ => True) Q)
    (hst : (Master.host rt).Steps Q) (hsame : ∀ {m sp}, Q m → ItemsSame m.space sp → Q { m with space := sp })
    {n fuel tries k : Nat} (hn : n ≠ 0) (hlt : n < 2 ^ 32) (h : Seeking P n a m) (hQ : Q m)
    (ht : m.tryAgain rt s a fuel tries = some (k, m')) : Evictions.Searched (fun m => Seeking P n a m ∧ Q m) a k m' := by
  have hboth : Evictions rt (fun _ => True) fun m => Seeking P n a m ∧ Q m :=
    ⟨fun _ _ _ => trivial,
      fun h _ hd => ⟨h.1.evicted (serverItemDelete_space rule h.1.space hd).1 (.serverItemDelete hd), hev.itemDelete h.2 trivial hd⟩,
      fun h => ⟨h.1.evicted (by rw [expirePassbys_space]; exact h.1.space) .expirePassbys, hev.passbys h.2⟩⟩
  refine hboth.tryAgain (fun h hg => ?_) (fun h he => ?_) ⟨h, hQ⟩ ht
  · obtain ⟨hseek, hs⟩ := h.1.miss rule hn hlt hg
    exact ⟨hseek, hsame h.2 hs⟩
  · exact ⟨h.1.evicted ((host_keeps rule).extend h.1.space he) ((Evicted.steps rt _).deviceFreeBlockExtend (.refl _) he),
      hst.deviceFreeBlockExtend h.2 he⟩

theorem Seeking.tryAgain (rule : SpaceRule rt.al P) {n fuel tries k : Nat} (hn : n ≠ 0) (hlt : n < 2 ^ 32)
    (h : Seeking P n a m) (ht : m.tryAgain rt s a fuel tries = some (k, m')) :
    P m'.space ∧ (k = 0 → a ∉ m'.space.items) := by
  rcases h.searched rule (Q := fun _ => True) ⟨fun _ _ _ => trivial, fun _ _ _ => trivial, fun _ => trivial⟩
    ⟨fun _ _ => trivial, fun _ _ => trivial, fun _ => trivial⟩ (fun _ _ => trivial) hn hlt trivial ht with
    ⟨-, h, -⟩ | ⟨hk, m₁, sp, ⟨h₁, -⟩, hg, rfl⟩
  · exact ⟨h.space, fun _ => h.fresh⟩
  · exact ⟨rule.get h₁.space (by rw [h₁.length]; exact hn) (by rw [h₁.length]; exact hlt) hg, fun h0 => absurd h0 hk⟩

theorem storeCase_space (rule : SpaceRule rt.al P) (hP : P m.space) {id : HashId} {length headersLen : Nat} {expire : Int}
    {rc : PutRc} (hn : length ≠ 0) (hlt : length < 2 ^ 32) (hc : StoreCase rt s id length headersLen expire m rc m') :
    P m'.space := by
  have hdraft : ∀ {a}, rt.al.get m.calls m.space.items = some a → Seeking P length a (m.draft a length headersLen) := by
    intro a ha
    have hfresh : a ∉ m.space.items := rt.al.fresh ha
    refine ⟨rule.same hP (sameBlocks_setItem fun hmem => absurd hmem hfresh), hfresh, ?_⟩
    show (Function.update m.space.item a _ a).length = length
    rw [Function.update_self]
  cases hc with
  | noMem => exact hP
  | noSpace ha ht =>
    obtain ⟨hP₁, hfresh⟩ := (hdraft ha).tryAgain rule hn hlt ht
    show P (Space.itemFree _ _)
    rw [itemFree_of_not_mem (hfresh rfl)]
    exact hP₁
  | @ok a d k m₁ ha ht =>
    obtain ⟨hP₁, -⟩ := (hdraft ha).tryAgain rule hn hlt ht
    have hset := rule.same hP₁ (sameBlocks_setItem (a := a) (x := { m₁.space.item a with
      putting := true, badblock := false, deleted := false, used := 0, clear := (m₁.server s).clear, expire
      serverIndex := (m₁.server s).index, id }) fun _ => ⟨rfl, rfl, rfl⟩)
    exact rule.same hset (sameBlocks_setUsed _ d _ (m₁.space.device d).fdOpen)

/-- A store writes something, as far as 32 bits can tell. -/
def Writes (r : Request) : Prop := r.storeLength % (2 ^ 32 : Nat) ≠ 0

theorem putCase_space (rule : SpaceRule rt.al P) (hP : P m.space) {buffer : List UInt8} {r : Request} {rc : PutRc}
    (hw : Writes r) (hc : PutCase rt s buffer r m rc m') : P m'.space := by
  cases hc with
  | declined | exist => exact hP
  | passby _ _ hp =>
    rw [serverPassbyStore_space hp]
    exact hP
  | store _ _ hf hst =>
    unfold Writes at hw
    exact storeCase_space rule (freed_space rule (m := (m.lookup rt s _).2) hP hf) (by omega) (by omega) hst

theorem callCase_space (rule : SpaceRule rt.al P) (hP : P m.space) {buffer : List UInt8} {r : Request} {o : Outcome}
    {x : Option Nat} (hw : r.method.isStore = true → Writes r) (hc : CallCase rt s buffer r m o x m') : P m'.space := by
  cases hc with
  | get _ hg =>
    obtain ⟨key, -, hc⟩ := serverRequestGetHandler_cases hg
    exact getCase_space rule (m := (m.lookup rt s key).2) hP hc
  | store hm hp | refused hm _ hp => exact putCase_space rule hP (hw hm) (serverRequestPutHandler_cases hp)
  | delete _ hd =>
    obtain ⟨key, -, hc⟩ := serverRequestDeleteHandler_cases hd
    exact deleteCase_space rule (m := (m.lookup rt s key).2.note _) hP hc

theorem release_space (rule : SpaceRule rt.al P) (hP : P m.space) (a d : Nat) (diskError : Bool) :
    P (m.release a d diskError).space := by
  have hused := rule.same hP (sameBlocks_setUsed m.space d ((m.space.device d).used - 1) (m.space.device d).fdOpen)
  refine rule.same hused (sameBlocks_setItem fun _ => ?_)
  show (released (m.space.item a) diskError).offset = (m.space.item a).offset ∧
    (released (m.space.item a) diskError).length = (m.space.item a).length ∧
    (released (m.space.item a) diskError).deviceIndex = (m.space.item a).deviceIndex
  unfold released
  cases (m.space.item a).putting <;> cases diskError <;> exact ⟨rfl, rfl, rfl⟩

theorem finalizeCase_space (rule : SpaceRule rt.al P) (hP : P m.space) {processSize : Nat} {diskError : Bool}
    (hc : FinalizeCase rt a processSize diskError m m') : P m'.space := by
  cases hc with
  | delete _ _ _ hd => exact (serverItemDelete_space rule (release_space rule hP ..) hd).1
  | finished | sent => exact release_space rule hP ..

theorem finalized_space (rule : SpaceRule rt.al P) (hP : P m.space) {q : Req} (hf : Finalized rt q m m') : P m'.space := by
  unfold Finalized at hf
  split at hf
  · rw [hf]
    exact hP
  · exact finalizeCase_space rule hP hf

/-- A configuration is loaded. -/
theorem confLoad_space (rule : SpaceRule rt.al P) (hP : P m.space) {env : LoadEnv} {conf : Conf} {plan : List DevicePlan}
    {sp : Space} (hcheck : m.space.deviceConfCheck env conf = .ok plan)
    (hl : m.space.deviceConfLoad rt.al conf plan = some sp) : P sp := by
  have hplan := (Space.deviceConfCheck_ok hcheck).1
  have hrest : ∀ {sp : Space} (percent : Int) (ticks : Nat), P sp → P { sp with badblockPercent := percent, ticks } :=
    fun percent ticks h => rule.same h
      ⟨rfl, rfl, rfl, rfl, rfl, rfl, rfl, rfl, rfl, fun _ => ⟨_, _, rfl⟩, fun _ _ => ⟨rfl, rfl, rfl⟩⟩
  exact Space.deviceConfLoad_rule (P := P) (fun s h => (List.nodup_append.mp (rule.links h).dev.nodup).1)
    (fun {s} h => hrest _ s.ticks h) (fun h hd => rule.delete h hd) (fun h hd => rule.move h hd)
    (fun {s _ _ p} h hp _ hd hadd => rule.add (hrest s.badblockPercent (s.ticks + 1) h) hd (hplan.capacity p hp).1
      (hplan.capacity p hp).2 hadd) hplan hP hl

theorem serverConfLoad_space {plan : List ServerPlan} (h : m.serverConfLoad plan = some m') : m'.space = m.space := by
  have hdrop : ∀ (l : List Nat) (m : Master), (l.foldl (fun m s => m.serverDelete s) m).space = m.space := by
    intro l
    induction l with
    | nil => exact fun _ => rfl
    | cons s l ih => exact fun m => (ih _).trans rfl
  have hload : ∀ {l : List ServerPlan} {m : Master}, l.foldlM (fun m p => m.loadServer p) m = some m' → m'.space = m.space := by
    intro l
    induction l with
    | nil =>
      intro m h
      cases h
      rfl
    | cons p l ih =>
      intro m h
      rw [List.foldlM_cons] at h
      obtain ⟨m₁, h₁, h⟩ := Option.bind_eq_some_iff.mp h
      refine (ih h).trans ?_
      unfold loadServer at h₁
      split at h₁
      · cases h₁
        rfl
      · exact (serverCreate_frame h₁).2.2.1
  exact (hload h).trans (hdrop _ m)

/-- What the master keeps beside the lists of its items. -/
def Housed (P : Space → Prop) (m : Master) : Prop := Recent m ∧ P m.space

theorem evictions_housed (rule : SpaceRule rt.al P) : Evictions rt (fun _ => True) (Housed P) where
  listed _ _ _ := trivial
  itemDelete h _ hd := ⟨h.1.serverItemDelete hd, (serverItemDelete_space rule h.2 hd).1⟩
  passbys h := ⟨h.1.expirePassbys, by rw [expirePassbys_space]; exact h.2⟩

theorem frees_housed : Evictions.Frees (Housed P) where
  nodup h := Recent.frees.nodup h.1
  free h hs ht hi hp := ⟨Recent.frees.free h.1 hs ht hi hp, h.2⟩

/-! ## Loading -/

/-- A length takes 32 bits on the disk. -/
theorem length_recordAt (image : Nat → UInt8) (i : Nat) : (recordAt image i).length < 2 ^ 32 := by
  have hlt := leNat_lt ((((imageRead image (ohcFmInfoSize + i * formatItemSize) formatItemSize)).drop 24).take 4)
  have hle := Nat.pow_le_pow_right (n := 256) (by decide) (List.length_take_le 4
    ((imageRead image (ohcFmInfoSize + i * formatItemSize) formatItemSize).drop 24))
  exact hlt.trans_le hle

/-- What every record that is read keeps, all of them keep. -/
theorem loadItems_records {Q : Master → Prop} {d : Nat} {io : FormatIo} {image : Nat → UInt8} {override : Int}
    {ports : Nat → Nat} {n i : Nat} {all : Bool}
    (hstep : ∀ {m m' s x}, Q m → s ∈ m.servers → x ∈ readRecords io image n i → m.serverLoadFmItem rt s d x = some m' → Q m')
    (hQ : Q m) (h : m.loadItems rt io d image override ports n i = some (all, m')) : Q m' := by
  induction n generalizing m i with
  | zero =>
    cases h
    exact hQ
  | succ n ih =>
    unfold loadItems at h
    split at h
    · cases h
      exact hQ
    next hread =>
    rw [readRecords, if_neg hread] at hstep
    have ih : ∀ {m : Master}, Q m → m.loadItems rt io d image override ports n (i + 1) = some (all, m') → Q m' :=
      fun hQ h => ih (fun hQ hs hx => hstep hQ hs (List.mem_cons_of_mem _ hx)) hQ h
    simp only at h
    split at h
    · exact ih hQ h
    split at h
    · cases h
    split at h
    · exact ih hQ h
    · next s hs =>
      obtain ⟨m₁, h₁, h⟩ := Option.bind_eq_some_iff.mp h
      exact ih (hstep hQ (List.mem_of_find?_eq_some hs) List.mem_cons_self h₁) h

/-- **`format_load_device`**, record by record. -/
theorem formatLoadDevice_records {Q : Master → Prop} {d : Nat} {io : FormatIo} {image image' : Nat → UInt8} {ok : Bool}
    (hstep : ∀ {m m' s x}, Q m → s ∈ m.servers → x ∈ recordsOn io image → m.serverLoadFmItem rt s d x = some m' → Q m')
    (hpost : ∀ {m sp}, Q m → m.space.deviceLoadPost d = some sp → Q { m with space := sp }) (hQ : Q m)
    (h : m.formatLoadDevice rt io d image = some (ok, image', m')) : Q m' := by
  cases formatLoadDevice_cases h with
  | refused => exact hQ
  | broken hrec _ hl => exact loadItems_records (fun hQ hs hx => hstep hQ hs (hrec ▸ hx)) hQ hl
  | loaded hrec _ hl hp => exact hpost (loadItems_records (fun hQ hs hx => hstep hQ hs (hrec ▸ hx)) hQ hl) hp

theorem length_readRecords {io : FormatIo} {image : Nat → UInt8} {n i : Nat} {x : FormatItem}
    (hx : x ∈ readRecords io image n i) : x.length < 2 ^ 32 := by
  induction n generalizing i with
  | zero => cases hx
  | succ n ih =>
    unfold readRecords at hx
    split at hx
    · cases hx
    · rcases List.mem_cons.mp hx with rfl | hx
      · exact length_recordAt image i
      · exact ih hx

theorem length_recordsOn {io : FormatIo} {image : Nat → UInt8} {x : FormatItem} (hx : x ∈ recordsOn io image) :
    x.length < 2 ^ 32 := by
  unfold recordsOn at hx
  split at hx
  · cases hx
  · cases hinfo : formatInfo image with
    | none =>
      rw [hinfo] at hx
      cases hx
    | some y =>
      rw [hinfo] at hx
      exact length_readRecords hx

/-- A device that can be loaded, with its lists. -/
structure Loadable (d : Nat) (sp : Space) : Prop where
  links : LinkInv sp
  listed : d ∈ sp.allDevices
  active : (sp.device d).kicked = false

theorem Loadable.keep {d : Nat} {sp sp' : Space} (h : Loadable d sp) (hl : LinkInv sp') (hs : SameDevices sp sp') :
    Loadable d sp' := by
  obtain ⟨c, b, hd⟩ := hs.device d
  refine ⟨hl, hs.allDevices ▸ h.listed, ?_⟩
  rw [hd]
  exact h.active

theorem loadDraft_item (s d a : Nat) (x : FormatItem) (m : Master) : ((m.loadDraft s d a x).space.item a).length = x.length ∧
    ((m.loadDraft s d a x).space.item a).deviceIndex = (m.space.device d).index := by
  show (Function.update m.space.item a _ a).length = _ ∧ (Function.update m.space.item a _ a).deviceIndex = _
  rw [Function.update_self]
  exact ⟨rfl, rfl⟩

section Draft

variable {d : Nat} {x : FormatItem} {sp : Space}

theorem Loadable.draft (h : Loadable d m.space) (ha : rt.al.get m.calls m.space.items = some a) :
    LinkInv (m.loadDraft s d a x).space := h.links.same (sameBlocks_setItem fun hmem => absurd hmem (rt.al.fresh ha))

/-- An item without a block was never linked. -/
theorem Loadable.noFit (h : Loadable d m.space) (hx : x.length ≠ 0) (hlt : x.length < 2 ^ 32)
    (ha : rt.al.get m.calls m.space.items = some a)
    (hcut : (m.loadDraft s d a x).space.deviceCutFreeBlock rt.al a = some (0, sp)) :
    sp.itemFree a = (m.loadDraft s d a x).space := by
  obtain ⟨hlen, hidx⟩ := loadDraft_item s d a x m
  obtain ⟨-, -, -, ⟨-, rfl⟩ | ⟨-, -, hk, -⟩⟩ := deviceCutFreeBlock_links (h.draft ha) h.listed h.active hidx hcut
  · exact itemFree_of_not_mem (rt.al.fresh ha)
  · rw [hlen] at hk
    exact absurd hk.symm (ipbucketBlockSize_pos (Nat.pos_of_ne_zero hx) hlt.le).ne'

theorem Loadable.loadCase (h : Loadable d m.space) (hx : x.length ≠ 0) (hlt : x.length < 2 ^ 32)
    (hc : LoadCase rt s d x m m') : Loadable d m'.space := by
  cases hc with
  | noMem => exact ⟨h.links, h.listed, h.active⟩
  | noFit ha hcut =>
    rw [h.noFit hx hlt ha hcut]
    exact ⟨h.draft ha, h.listed, h.active⟩
  | @ok a k sp ha hcut =>
    obtain ⟨hl', hsame, -, -⟩ := deviceCutFreeBlock_links (h.draft ha) h.listed h.active (loadDraft_item ..).2 hcut
    have hload : Loadable d sp := Loadable.keep ⟨h.draft ha, h.listed, h.active⟩ hl' hsame
    exact hload.keep (hload.links.same (sameBlocks_setItem (a := a) fun _ => ⟨rfl, rfl, rfl⟩)) ⟨rfl, rfl, rfl, rfl, fun _ => ⟨_, _, rfl⟩⟩

end Draft

/-- A dump without empty records. -/
theorem formatLoadDevice_links {d : Nat} {io : FormatIo} {image image' : Nat → UInt8} {ok : Bool} (h : Loadable d m.space)
    (hx : ∀ x ∈ recordsOn io image, x.length ≠ 0) (hl : m.formatLoadDevice rt io d image = some (ok, image', m')) :
    Loadable d m'.space :=
  formatLoadDevice_records (Q := fun m => Loadable d m.space)
    (fun h _ hmem hc => h.loadCase (hx _ hmem) (length_recordsOn hmem) (serverLoadFmItem_cases hc))
    (fun h hp => h.keep (deviceLoadPost_links h.links hp).1 (deviceLoadPost_links h.links hp).2.1) h hl

/-! ## Every run -/

/-- No block is asked for nothing: a store writes something, and a dump that
is loaded has no empty record. The device has the block that `device_add`
gives it. -/
def Substantial (m : Master) : MasterEvent → Prop
  | .handle r _ _ => (m.request r).conn.r.method.isStore = true → Writes (m.request r).conn.r
  | .load d io image => (m.space.device d).kicked = false ∧ ∀ x ∈ recordsOn io image, x.length ≠ 0
  | _ => True

instance (m : Master) (e : MasterEvent) : Decidable (Substantial m e) :=
  match e with
  | .handle r _ _ => inferInstanceAs (Decidable ((m.request r).conn.r.method.isStore = true →
      (m.request r).conn.r.storeLength % (2 ^ 32 : Nat) ≠ 0))
  | .load d io image => inferInstanceAs (Decidable ((m.space.device d).kicked = false ∧
      ∀ x ∈ recordsOn io image, x.length ≠ 0))
  | .tick _ | .accept .. | .conn .. | .finish _ | .clear _ | .reload .. | .serverRoutine | .deviceRoutine => .isTrue trivial

/-- **One step** of the master. -/
theorem masterStep_housed (rule : SpaceRule rt.al P) {e : MasterEvent} (hp : Housed P m) (hok : Substantial m e)
    (hload : ∀ d io image ok image', e = .load d io image → d ∈ m.space.devices →
      m.formatLoadDevice rt io d image = some (ok, image', m') → P m'.space)
    (h : masterStep rt m e = some m') : Housed P m' := by
  refine ⟨masterStep_recent hp.1 h, ?_⟩
  cases e with
  | tick now =>
    obtain ⟨-, h⟩ := Option.ite_none_right_eq_some.mp h
    cases h
    exact hp.2
  | accept s r old buffer total =>
    obtain ⟨-, h⟩ := Option.ite_none_right_eq_some.mp h
    cases h
    exact hp.2
  | conn r e =>
    obtain ⟨-, h⟩ := Option.ite_none_right_eq_some.mp h
    obtain ⟨c, -, rfl⟩ := Option.map_eq_some_iff.mp h
    exact hp.2
  | handle r dispatch send =>
    obtain ⟨-, h⟩ := Option.ite_none_right_eq_some.mp h
    rcases handle_cases h with ⟨o, x, m₁, c, -, hc, -, rfl⟩ | ⟨o, rc, c, -, -, -, rfl⟩
    · have h₁ : P m₁.space := callCase_space rule hp.2 hok hc
      exact h₁
    · exact hp.2
  | finish r =>
    obtain ⟨-, h⟩ := Option.ite_none_right_eq_some.mp h
    obtain ⟨m₁, hf, hm⟩ := requestDoFinalize_cases h
    have h₁ := finalized_space rule hp.2 hf
    rcases hm with ⟨-, rfl⟩ | ⟨-, rfl⟩ <;> exact h₁
  | clear port =>
    obtain ⟨s, -, rfl⟩ := Option.map_eq_some_iff.mp h
    exact hp.2
  | reload env conf =>
    unfold masterStep at h
    simp only at h
    split at h
    · next devices servers hcheck _ =>
      obtain ⟨sp, hsp, h⟩ := Option.bind_eq_some_iff.mp h
      rw [serverConfLoad_space h]
      exact confLoad_space rule hp.2 hcheck hsp
    · cases h
  | load d io image =>
    obtain ⟨hd, h⟩ := Option.ite_none_right_eq_some.mp h
    obtain ⟨⟨ok, image', m₁⟩, h₁, rfl⟩ := Option.map_eq_some_iff.mp h
    exact hload d io image ok image' rfl hd h₁
  | serverRoutine => exact ((evictions_housed rule).serverRoutine frees_housed hp h).2
  | deviceRoutine => exact (host_keeps rule).deviceRoutine hp.2 h

/-- **The links** of every run whose steps ask for no empty block. -/
theorem links_run (h : (masterSystem rt).Reach Substantial m) : LinkInv m.space := by
  refine (System.Reach.invariant (I := Housed LinkInv) (fun m hm => ?_) (fun m e m' _ hp hok hn => ?_) h).2
  · have hr := recent_run (.init hm)
    obtain ⟨now, rfl⟩ := hm
    have hempty : SpaceInv False (Space.empty 0) := Space.empty_inv 0
    exact ⟨hr, hempty.links⟩
  · refine masterStep_housed (LinkInv.rule rt.al) hp hok (fun d io image ok image' he hd hl => ?_) hn.1
    subst he
    exact (formatLoadDevice_links ⟨hp.2, List.mem_append_left _ hd, hok.1⟩ hok.2 hl).links

end Master

end OliveHc
