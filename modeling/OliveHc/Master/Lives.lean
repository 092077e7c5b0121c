/-
The life of an item.

An item gets its number when it is stored or loaded, and until it is freed
nothing changes of it but its flags and its use count. So an item of a later
state with a number that was given before is the item that got it.
-/
import OliveHc.Master.Steps

namespace OliveHc

/-- The items differ in their flags and use counts only. -/
def Item.Same (x y : Item) : Prop := ∃ p d b u, y = { x with putting := p, deleted := d, badblock := b, used := u }

theorem Item.Same.refl (x : Item) : x.Same x := ⟨_, _, _, _, rfl⟩

theorem Item.Same.trans {x y z : Item} (h : x.Same y) (h' : y.Same z) : x.Same z := by
  obtain ⟨p, d, b, u, rfl⟩ := h
  obtain ⟨p', d', b', u', rfl⟩ := h'
  exact ⟨_, _, _, _, rfl⟩

/-- Every item is one that was there, or one with a new number. -/
structure Lives (m m' : Master) : Prop where
  log : m.log <:+ m'.log
  item : ∀ a ∈ m'.space.items,
    (a ∈ m.space.items ∧ m'.number a = m.number a ∧ (m.space.item a).Same (m'.space.item a)) ∨
      (m.log.length ≤ m'.number a ∧ m'.number a < m'.log.length)

namespace Lives

variable {rt : Runtime} {m m' m'' : Master} {s a : Nat}

theorem trans (h : Lives m m') (h' : Lives m' m'') : Lives m m'' := by
  have hle := h.log.length_le
  have hle' := h'.log.length_le
  refine ⟨h.log.trans h'.log, fun a ha => ?_⟩
  rcases h'.item a ha with ⟨ha', hn', hs'⟩ | ⟨hn', hlt'⟩
  · rcases h.item a ha' with ⟨ha, hn, hs⟩ | ⟨hn, hlt⟩
    · exact .inl ⟨ha, hn'.trans hn, hs.trans hs'⟩
    · exact .inr ⟨hn' ▸ hn, by omega⟩
  · exact .inr ⟨by omega, hlt'⟩

/-- The items are those that were there, or fewer. -/
theorem kept (hlog : m.log <:+ m'.log) (hn : m'.number = m.number) (hi : ∀ a ∈ m'.space.items, a ∈ m.space.items)
    (hs : ∀ a ∈ m'.space.items, (m.space.item a).Same (m'.space.item a)) : Lives m m' :=
  ⟨hlog, fun a ha => .inl ⟨hi a ha, by rw [hn], hs a ha⟩⟩

theorem same (hsp : ItemsSame m.space m'.space) (hn : m'.number = m.number) (hlog : m.log <:+ m'.log) : Lives m m' :=
  kept hlog hn (fun a ha => hsp.items ▸ ha) fun a _ => by rw [hsp.item]; exact .refl _

theorem refl (m : Master) : Lives m m := same (.refl _) rfl (List.suffix_refl _)

/-- Something else happened before. -/
theorem after (h : Lives m' m'') (hsp : ItemsSame m.space m'.space) (hn : m'.number = m.number) (hlog : m.log <:+ m'.log) :
    Lives m m'' :=
  (same hsp hn hlog).trans h

theorem evicted (h : Evicted m m') : Lives m m' := by
  refine kept (by rw [h.log]) h.number (fun a ha => h.items.subset ha) fun a _ => ?_
  obtain ⟨x, hx, -⟩ := h.item a
  exact ⟨_, x, _, _, hx⟩

/-- An item that is in use once more, or less. -/
theorem setItem {x : Item} (hx : (m.space.item a).Same x) : Lives m (m.setItem a x) := by
  refine kept (List.suffix_refl _) rfl (fun _ hb => hb) fun b _ => ?_
  show (m.space.item b).Same (Function.update m.space.item a x b)
  by_cases hb : b = a
  · rw [hb, Function.update_self]
    exact hx
  · rw [Function.update_of_ne hb]
    exact .refl _

theorem hitItem {d : Nat} {id : HashId} : Lives m (m.hitItem s a d id) := by
  have h₁ : Lives m (m.setItem a { m.space.item a with used := ((m.space.item a).used + 1) % 2 ^ 16 }) :=
    setItem ⟨_, _, _, _, rfl⟩
  exact h₁.trans (same ⟨rfl, rfl⟩ rfl (List.suffix_cons _ _))

theorem getCase {n : Option (HashNode Entry)} {o : Option Nat} (h : Master.GetCase rt s n m o m') : Lives m m' := by
  cases h with
  | miss | hidden => exact refl _
  | passby => exact same ⟨rfl, rfl⟩ rfl (List.suffix_refl _)
  | stale _ hd => exact evicted (.serverItemDelete hd)
  | hit => exact hitItem

theorem deleteCase {n : Option (HashNode Entry)} {found : Bool} (h : Master.DeleteCase rt s n m found m') : Lives m m' := by
  cases h with
  | miss => exact refl _
  | passby => exact evicted (.passbyItemDelete ..)
  | item hd => exact evicted (.serverItemDelete hd)

theorem passbyStore {id : HashId} {ok : Bool} (h : m.serverPassbyStore rt s id = (ok, m')) : Lives m m' := by
  unfold Master.serverPassbyStore at h
  simp only at h
  split at h
  · cases h
    exact refl _
  split at h
  · cases h
    exact same ⟨rfl, rfl⟩ rfl (List.suffix_refl _)
  · cases h
    exact same ⟨rfl, rfl⟩ rfl (List.suffix_refl _)

theorem freed {id : HashId} {n : Option (HashNode Entry)} (h : Master.Freed rt s id n m m') : Lives m m' := by
  cases h with
  | absent hp => exact passbyStore hp
  | passby => exact evicted (.passbyItemDelete ..)
  | item hd => exact evicted (.serverItemDelete hd)

/-- During the search for a block of item `a` only that one is new. -/
def Searching (a : Nat) (m m' : Master) : Prop :=
  m'.log = m.log ∧ m'.number = m.number ∧
    ∀ b ∈ m'.space.items, b ≠ a → b ∈ m.space.items ∧ (m.space.item b).Same (m'.space.item b)

theorem Searching.evicted {m₁ m₂ : Master} (h : Searching a m m₁) (he : Evicted m₁ m₂) : Searching a m m₂ := by
  refine ⟨he.log.trans h.1, he.number.trans h.2.1, fun b hb hba => ?_⟩
  obtain ⟨hmem, hsame⟩ := h.2.2 b (he.items.subset hb) hba
  obtain ⟨x, hx, -⟩ := he.item b
  exact ⟨hmem, hsame.trans ⟨_, x, _, _, hx⟩⟩

theorem Searching.space {m₁ : Master} {sp : Space} (h : Searching a m m₁) (hp : Located a m₁.space sp) :
    Searching a m { m₁ with space := sp } := by
  refine ⟨h.1, h.2.1, fun b hb hba => ?_⟩
  have hb' : b ∈ m₁.space.items := by
    rcases hp.items with hi | ⟨-, hi⟩
    · exact hi ▸ hb
    · exact List.mem_of_ne_of_mem hba (hi ▸ hb)
  obtain ⟨o, i, hitem⟩ := hp.item
  have hbs : sp.item b = m₁.space.item b := by rw [hitem, Function.update_of_ne hba]
  show b ∈ m.space.items ∧ (m.space.item b).Same (sp.item b)
  rw [hbs]
  exact h.2.2 b hb' hba

theorem Searching.draft {length headersLen : Nat} : Searching a m (m.draft a length headersLen) := by
  refine ⟨rfl, rfl, fun b hb hba => ⟨hb, ?_⟩⟩
  show (m.space.item b).Same (Function.update m.space.item a _ b)
  rw [Function.update_of_ne hba]
  exact .refl _

theorem Searching.tryAgain {m₁ m₂ : Master} {fuel tries k : Nat} (h : Searching a m m₁)
    (ht : m₁.tryAgain rt s a fuel tries = some (k, m₂)) : Searching a m m₂ := by
  have hev : Evictions rt (fun _ => True) (Searching a m) :=
    ⟨fun _ _ _ => trivial, fun h₁ _ hd => h₁.evicted (.serverItemDelete hd), fun h₁ => h₁.evicted .expirePassbys⟩
  rcases hev.tryAgain (fun h₁ hg => h₁.space (Space.getFreeBlock_located hg).1)
    (fun h₁ he => h₁.evicted ((Evicted.steps rt _).deviceFreeBlockExtend (.refl _) he)) h ht with
    ⟨-, h₁⟩ | ⟨-, m₃, s', h₁, hg, rfl⟩
  · exact h₁
  · exact h₁.space (Space.getFreeBlock_located hg).1

theorem storeCase {id : HashId} {length headersLen : Nat} {expire : Int} {rc : Master.PutRc}
    (h : Master.StoreCase rt s id length headersLen expire m rc m') : Lives m m' := by
  cases h with
  | noMem => exact same ⟨rfl, rfl⟩ rfl (List.suffix_refl _)
  | noSpace _ ht =>
    obtain ⟨hlog, hn, hitem⟩ := Searching.draft.tryAgain ht
    refine kept (by rw [hlog]) hn (fun b hb => ?_) fun b hb => ?_
    all_goals
      obtain ⟨hb, hba⟩ := List.mem_filter.mp hb
      have hb := hitem b hb (by simpa using hba)
    · exact hb.1
    · exact hb.2
  | @ok a d k m₁ _ ht _ _ =>
    obtain ⟨hlog, hn, hitem⟩ := Searching.draft.tryAgain ht
    refine ⟨hlog ▸ List.suffix_cons _ m₁.log, fun b hb => ?_⟩
    show (b ∈ m.space.items ∧ Function.update m₁.number a m₁.log.length b = m.number b ∧
      (m.space.item b).Same (Function.update m₁.space.item a _ b)) ∨
      (m.log.length ≤ Function.update m₁.number a m₁.log.length b ∧
        Function.update m₁.number a m₁.log.length b < m₁.log.length + 1)
    by_cases hba : b = a
    · rw [hba, Function.update_self, hlog]
      exact .inr ⟨Nat.le_refl _, Nat.lt_succ_self _⟩
    · rw [Function.update_of_ne hba, Function.update_of_ne hba, hn]
      have hb := hitem b hb hba
      exact .inl ⟨hb.1, rfl, hb.2⟩

theorem putCase {buffer : List UInt8} {r : Request} {rc : Master.PutRc} (h : Master.PutCase rt s buffer r m rc m') :
    Lives m m' := by
  have hlook : ∀ key, Lives m (m.lookup rt s key).2 := fun _ => same ⟨rfl, rfl⟩ rfl (List.suffix_refl _)
  cases h with
  | declined => exact refl _
  | passby _ _ hp => exact (hlook _).trans (passbyStore hp)
  | exist => exact hlook _
  | store _ _ hf hs => exact (hlook _).trans ((freed hf).trans (storeCase hs))

theorem callCase {buffer : List UInt8} {r : Request} {o : Outcome} {x : Option Nat}
    (h : Master.CallCase rt s buffer r m o x m') : Lives m m' := by
  cases h with
  | get _ hg =>
    obtain ⟨key, -, hc⟩ := Master.serverRequestGetHandler_cases hg
    exact (getCase hc).after ⟨rfl, rfl⟩ rfl (List.suffix_refl _)
  | store _ hp | refused _ _ hp => exact putCase (Master.serverRequestPutHandler_cases hp)
  | delete _ hd =>
    obtain ⟨key, -, hc⟩ := Master.serverRequestDeleteHandler_cases hd
    exact (deleteCase hc).after ⟨rfl, rfl⟩ rfl (List.suffix_cons _ _)

theorem released_same (x : Item) (diskError : Bool) : x.Same (Master.released x diskError) := by
  unfold Master.released
  cases x.putting <;> cases diskError <;> exact ⟨_, _, _, _, rfl⟩

theorem finalizeCase {processSize : Nat} {diskError : Bool}
    (h : Master.FinalizeCase rt a processSize diskError m m') : Lives m m' := by
  have hrel : ∀ d, Lives m (m.release a d diskError) := fun d =>
    (setItem (released_same _ _)).trans (same ⟨rfl, rfl⟩ rfl (List.suffix_refl _))
  cases h with
  | delete _ _ _ hd => exact (hrel _).trans (evicted (.serverItemDelete hd))
  | finished => exact (hrel _).trans (same ⟨rfl, rfl⟩ rfl (List.suffix_cons _ _))
  | sent => exact hrel _

/-- Only the item at the new address is touched. -/
theorem cut_other {d a b k : Nat} {x : FormatItem} {sp : Space}
    (hc : (m.loadDraft s d a x).space.deviceCutFreeBlock rt.al a = some (k, sp)) (hb : b ∈ sp.items) (hba : b ≠ a) :
    b ∈ m.space.items ∧ sp.item b = m.space.item b := by
  obtain ⟨hitem, hitems⟩ := Space.deviceCutFreeBlock_located hc
  have hsame : sp.item b = m.space.item b := by
    rw [hitem]
    exact Function.update_of_ne hba ..
  refine ⟨?_, hsame⟩
  rcases hitems with ⟨-, hi⟩ | ⟨-, -, hi⟩
  · exact hi ▸ hb
  · exact List.mem_of_ne_of_mem hba (hi ▸ hb)

theorem loadCase {d : Nat} {x : FormatItem} (h : Master.LoadCase rt s d x m m') : Lives m m' := by
  cases h with
  | noMem => exact same ⟨rfl, rfl⟩ rfl (List.suffix_refl _)
  | @noFit a sp _ hc =>
    refine kept (List.suffix_refl _) rfl (fun b hb => ?_) fun b hb => ?_
    all_goals
      obtain ⟨hb, hba⟩ := List.mem_filter.mp hb
      have hb := cut_other hc hb (by simpa using hba)
    · exact hb.1
    · show (m.space.item b).Same (sp.item b)
      rw [hb.2]
      exact .refl _
  | @ok a k sp _ hc _ =>
    refine ⟨List.suffix_cons _ m.log, fun b hb => ?_⟩
    show (b ∈ m.space.items ∧ Function.update m.number a m.log.length b = m.number b ∧
      (m.space.item b).Same (Function.update sp.item a _ b)) ∨
      (m.log.length ≤ Function.update m.number a m.log.length b ∧
        Function.update m.number a m.log.length b < m.log.length + 1)
    by_cases hba : b = a
    · rw [hba, Function.update_self]
      exact .inr ⟨Nat.le_refl _, Nat.lt_succ_self _⟩
    · rw [Function.update_of_ne hba, Function.update_of_ne hba]
      have hb := cut_other hc hb hba
      exact .inl ⟨hb.1, rfl, by rw [hb.2]; exact .refl _⟩

/-! ## Servers -/

theorem serverDestroy (h : m.serverDestroy rt s = some m') : Lives m m' := by
  unfold Master.serverDestroy at h
  obtain ⟨m₁, h₁, h⟩ := Option.bind_eq_some_iff.mp h
  have hl := evicted ((Evicted.evictions rt m).serverItemExpire (.refl m) h₁)
  split at h
  · cases h
    exact hl
  · obtain ⟨t, -, h⟩ := Option.bind_eq_some_iff.mp h
    cases h
    exact hl.trans (same ⟨rfl, rfl⟩ rfl (List.suffix_refl _))

theorem foldlM {α : Type} {f : Master → α → Option Master} (hf : ∀ {m x m'}, f m x = some m' → Lives m m') {l : List α}
    (h : l.foldlM f m = some m') : Lives m m' := by
  induction l generalizing m with
  | nil =>
    cases h
    exact refl _
  | cons x l ih =>
    rw [List.foldlM_cons] at h
    obtain ⟨m₁, h₁, h⟩ := Option.bind_eq_some_iff.mp h
    exact (hf h₁).trans (ih h)

theorem serverRoutine (h : m.serverRoutine rt = some m') : Lives m m' := by
  unfold Master.serverRoutine at h
  obtain ⟨m₁, h₁, h⟩ := Option.bind_eq_some_iff.mp h
  obtain ⟨m₂, h₂, h⟩ := Option.bind_eq_some_iff.mp h
  have hl₁ := evicted ((Evicted.evictions rt m).expireServers (.refl m) h₁)
  have hl₂ := evicted ((Evicted.evictions rt m₁).serverSharedExpire (.refl m₁) h₂)
  exact hl₁.trans (hl₂.trans (foldlM serverDestroy h))

theorem loadServer {p : ServerPlan} (h : m.loadServer p = some m') : Lives m m' := by
  unfold Master.loadServer at h
  split at h
  · cases h
    exact same ⟨rfl, rfl⟩ rfl (List.suffix_refl _)
  · unfold Master.serverCreate at h
    obtain ⟨⟨i, t⟩, -, h⟩ := Option.bind_eq_some_iff.mp h
    obtain ⟨hash, -, h⟩ := Option.bind_eq_some_iff.mp h
    cases h
    exact same ⟨rfl, rfl⟩ rfl (List.suffix_refl _)

theorem confLoad {al : Allocator} {conf : Conf} {devices : List DevicePlan} {servers : List ServerPlan}
    (h : m.confLoad al conf devices servers = some m') : Lives m m' := by
  unfold Master.confLoad at h
  obtain ⟨sp, hsp, h⟩ := Option.bind_eq_some_iff.mp h
  have hdrop : ∀ (l : List Nat) (m : Master), Lives m (l.foldl (fun m s => m.serverDelete s) m) := by
    intro l
    induction l with
    | nil => exact refl
    | cons s l ih => exact fun m => (ih (m.serverDelete s)).after ⟨rfl, rfl⟩ rfl (List.suffix_refl _)
  have h₁ : Lives m { m with space := sp } := same (ItemsSame.deviceConfLoad hsp) rfl (List.suffix_refl _)
  exact h₁.trans ((hdrop _ _).trans (foldlM loadServer h))

end Lives

/-- **One step** of the master. -/
theorem masterStep_lives {rt : Runtime} {m m' : Master} {e : MasterEvent} (h : masterStep rt m e = some m') :
    Lives m m' := by
  cases e with
  | tick now =>
    obtain ⟨-, h⟩ := Option.ite_none_right_eq_some.mp h
    cases h
    exact .same ⟨rfl, rfl⟩ rfl (List.suffix_refl _)
  | accept s r old buffer total =>
    obtain ⟨-, h⟩ := Option.ite_none_right_eq_some.mp h
    cases h
    exact .same ⟨rfl, rfl⟩ rfl (List.suffix_refl _)
  | conn r e =>
    obtain ⟨-, h⟩ := Option.ite_none_right_eq_some.mp h
    obtain ⟨c, -, rfl⟩ := Option.map_eq_some_iff.mp h
    exact .same ⟨rfl, rfl⟩ rfl (List.suffix_refl _)
  | handle r dispatch send =>
    obtain ⟨-, h⟩ := Option.ite_none_right_eq_some.mp h
    rcases Master.handle_cases h with ⟨o, x, m₁, c, -, hc, -, rfl⟩ | ⟨o, rc, c, -, -, -, rfl⟩
    · exact (Lives.callCase hc).trans (.same ⟨rfl, rfl⟩ rfl (List.suffix_refl _))
    · exact .same ⟨rfl, rfl⟩ rfl (List.suffix_refl _)
  | finish r =>
    obtain ⟨-, h⟩ := Option.ite_none_right_eq_some.mp h
    obtain ⟨m₁, hf, hm⟩ := Master.requestDoFinalize_cases h
    have h₁ : Lives m m₁ := by
      unfold Master.Finalized at hf
      split at hf
      · rw [hf]
        exact .refl m
      · exact .finalizeCase hf
    rcases hm with ⟨-, rfl⟩ | ⟨-, rfl⟩
    · exact h₁.trans (.same ⟨rfl, rfl⟩ rfl (List.suffix_refl _))
    · exact h₁.trans (.same ⟨rfl, rfl⟩ rfl (List.suffix_refl _))
  | clear port =>
    obtain ⟨s, -, rfl⟩ := Option.map_eq_some_iff.mp h
    exact .same ⟨rfl, rfl⟩ rfl (List.suffix_cons _ _)
  | reload env conf =>
    unfold masterStep at h
    simp only at h
    split at h
    · exact .confLoad h
    · cases h
  | load d io image =>
    obtain ⟨-, h⟩ := Option.ite_none_right_eq_some.mp h
    obtain ⟨⟨ok, image', m₁⟩, h₁, rfl⟩ := Option.map_eq_some_iff.mp h
    exact Master.formatLoadDevice_rule (P := Lives m) (fun h₂ _ hx => h₂.trans (.loadCase (Master.serverLoadFmItem_cases hx)))
      (fun h₂ hp => h₂.trans (.same (.loadPost hp) rfl (List.suffix_refl _))) (.refl m) h₁
  | serverRoutine => exact .serverRoutine h
  | deviceRoutine => exact .evicted ((Evicted.steps rt m).deviceRoutine (.refl m) h)

/-- **The life of an item.** However the program goes on from `m`, the items
that have their numbers by then stay what they are. -/
theorem lives_run {rt : Runtime} {m m' : Master} (h : ((masterSystem rt).startAt m).Reachable m') : Lives m m' := by
  refine System.Reach.invariant (I := Lives m) (fun m₁ h₁ => ?_) (fun m₁ e m₂ _ hl _ hn => ?_) h
  · rw [show m₁ = m from h₁]
    exact .refl m
  · exact hl.trans (masterStep_lives hn.1)

end OliveHc
