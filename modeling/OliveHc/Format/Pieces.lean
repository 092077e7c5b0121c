/-
The list of a device that is loaded, piece by piece.

Each record that finds its place adds the free block of the gap before it
and its item. What the list is afterwards is a function of the records
(`cutsOf`), as far as there is memory.
-/
import OliveHc.Format.Start

namespace OliveHc

/-- In lists that are in step, what is in one has a partner in the other. -/
theorem forall₂_mem_right {α β : Type} {R : α → β → Prop} {l : List α} {u : List β} (h : List.Forall₂ R l u) {b : β}
    (hb : b ∈ u) : ∃ a ∈ l, R a b := by
  induction h with
  | nil => cases hb
  | @cons a c l u hac _ ih =>
    rcases List.mem_cons.mp hb with rfl | hb
    · exact ⟨a, List.mem_cons_self, hac⟩
    · obtain ⟨x, hx, hR⟩ := ih hb
      exact ⟨x, List.mem_cons_of_mem _ hx, hR⟩

theorem forall₂_mem_left {α β : Type} {R : α → β → Prop} {l : List α} {u : List β} (h : List.Forall₂ R l u) {a : α}
    (ha : a ∈ l) : ∃ b ∈ u, R a b := forall₂_mem_right h.flip ha

theorem forall₂_mem {α β : Type} {R : α → β → Prop} {l : List α} {u : List β} (h : List.Forall₂ R l u) :
    List.Forall₂ (fun a b => a ∈ l ∧ b ∈ u ∧ R a b) l u := by
  induction h with
  | nil => exact .nil
  | cons hab _ ih =>
    refine .cons ⟨List.mem_cons_self, List.mem_cons_self, hab⟩ (ih.imp fun a b h => ?_)
    exact ⟨List.mem_cons_of_mem _ h.1, List.mem_cons_of_mem _ h.2.1, h.2.2⟩

/-- A record that finds its place: where the remaining space began, the
server and the record. -/
structure Cut where
  front : Nat
  server : Nat
  record : FormatItem

/-- The records that are put before the remaining space. -/
def cutsOf (capacity : Nat) : Nat → List (Nat × FormatItem) → List Cut
  | _, [] => []
  | front, (s, x) :: l =>
    if x.FitsAt front capacity then ⟨front, s, x⟩ :: cutsOf capacity (x.place + x.size) l else cutsOf capacity front l

/-- Where the remaining space begins after them. -/
def cutEnd (capacity : Nat) : Nat → List (Nat × FormatItem) → Nat
  | front, [] => front
  | front, (_, x) :: l => cutEnd capacity (if x.FitsAt front capacity then x.place + x.size else front) l

/-- The items of the pieces. A record without a length has none. -/
def entriesOf : List Piece → List Cut → List (Nat × Nat × FormatItem)
  | p :: ps, c :: cs => if c.record.size = 0 then entriesOf ps cs else (p.item, c.server, c.record) :: entriesOf ps cs
  | _, _ => []

theorem mem_cutsOf {capacity front : Nat} {l : List (Nat × FormatItem)} {c : Cut} (hc : c ∈ cutsOf capacity front l) : (c.server, c.record) ∈ l := by
  induction l generalizing front with
  | nil => cases hc
  | cons y l ih =>
    rw [cutsOf] at hc
    split at hc
    · rcases List.mem_cons.mp hc with rfl | hc
      · exact List.mem_cons_self
      · exact List.mem_cons_of_mem _ (ih hc)
    · exact List.mem_cons_of_mem _ (ih hc)

/-! ## The nodes of the pieces -/

theorem mem_nodes_fblock {ps : List Piece} {g : Nat} : .fblock g ∈ ps.flatMap Piece.nodes ↔ ∃ p ∈ ps, p.gap = some g := by
  have hnodes : ∀ p : Piece, .fblock g ∈ p.nodes ↔ p.gap = some g := by
    intro p
    unfold Piece.nodes
    cases p.gap <;> simp [eq_comm]
  simp only [List.mem_flatMap, hnodes]

theorem mem_nodes_item {ps : List Piece} {a : Nat} : .item a ∈ ps.flatMap Piece.nodes ↔ a ∈ ps.map Piece.item := by
  have hnodes : ∀ p : Piece, .item a ∈ p.nodes ↔ p.item = a := by
    intro p
    unfold Piece.nodes
    cases p.gap <;> simp [eq_comm]
  simp only [List.mem_flatMap, hnodes, List.mem_map]

theorem nodes_items (ps : List Piece) : (ps.flatMap Piece.nodes).filterMap Node.item? = ps.map Piece.item := by
  induction ps with
  | nil => rfl
  | cons p ps ih =>
    rw [List.flatMap_cons, List.filterMap_append, ih, List.map_cons]
    unfold Piece.nodes
    cases p.gap <;> rfl

/-! ## Record by record -/

namespace Master

/-- The records of `l` are loaded one after another. -/
inductive Loads (rt : Runtime) (d : Nat) : List (Nat × FormatItem) → Master → Master → Prop
  | nil {m : Master} : Loads rt d [] m m
  | cons {s : Nat} {x : FormatItem} {l : List (Nat × FormatItem)} {m m₁ m' : Master} :
      m.serverLoadFmItem rt s d x = some m₁ → Loads rt d l m₁ m' → Loads rt d ((s, x) :: l) m m'

section

variable {rt : Runtime} {io : FormatIo} {d f front : Nat} {its : List Nat} {image image' : Image} {m m' : Master}
  {override : Int} {ports : Nat → Nat} {n i : Nat} {ok all : Bool}

/-- **The loop of `format_load_device`** loads the records that pass the
checks. It goes on as long as it can read, and comes to its end if it sees
no other than sound records. -/
theorem loadItems_reads (h : Front d f front its m.space)
    (hl : m.loadItems rt io d image override ports n i = some (all, m')) :
    Loads rt d (picked (m.picks override ports) (readRecords io image n i)) m m' ∧
      (∀ x ∈ readRecords io image n i, m.Sound override ports x) ∧ (all = false ↔ ∃ j < n, io.record (i + j) = false) := by
  induction n generalizing m i front its with
  | zero =>
    cases hl
    exact ⟨.nil, List.forall_mem_nil _, by simp⟩
  | succ n ih =>
    have hshift : (∃ j < n + 1, io.record (i + j) = false) ↔ io.record i = false ∨ ∃ j < n, io.record (i + 1 + j) = false := by
      rw [Nat.exists_lt_succ_left]
      simp only [Nat.add_zero, Nat.add_assoc, Nat.add_comm 1]
    rw [loadItems_succ] at hl
    rw [readRecords, hshift]
    split at hl
    · next hfail =>
      cases hl
      rw [if_pos hfail]
      exact ⟨.nil, List.forall_mem_nil _, fun _ => .inl (by simpa using hfail), fun _ => rfl⟩
    next hread =>
    have hrecord : io.record i ≠ false := by simpa using hread
    rw [if_neg hread, picked, List.filterMap_cons, List.forall_mem_cons, picks, or_iff_right hrecord]
    split at hl
    · next hcheck =>
      obtain ⟨hloads, hsound, hall⟩ := ih h hl
      rw [if_pos hcheck]
      exact ⟨hloads, ⟨fun hno => absurd hcheck hno, hsound⟩, hall⟩
    next hcheck =>
    rw [if_neg hcheck]
    split at hl
    · cases hl
    next hself =>
    cases hs : m.serverByPort (ports (recordAt image i).serverIndex.toNat) with
    | none =>
      rw [hs] at hl
      obtain ⟨hloads, hsound, hall⟩ := ih h hl
      exact ⟨hloads, ⟨fun _ => hself, hsound⟩, hall⟩
    | some s =>
    rw [hs] at hl
    obtain ⟨m₁, h₁, hl⟩ := Option.bind_eq_some_iff.mp hl
    obtain ⟨t, its', front', hr, hf, -⟩ := Restored.loadCase h (serverLoadFmItem_cases h₁)
    obtain ⟨hloads, hsound, hall⟩ := ih hf hl
    rw [hr.picks] at hloads
    refine ⟨.cons h₁ hloads, ⟨fun _ => hself, fun x hx => ?_⟩, hall⟩
    have hx := hsound x hx
    rwa [Sound, hr.now] at hx

/-- A record of the table cannot be read. -/
def Torn (io : FormatIo) (image : Image) : Prop :=
  ∃ n ports, formatInfo image = some (n, ports) ∧ ∃ i < n.toNat, io.record i = false

/-- The records on the image that pass the checks. -/
def pickedOn (io : FormatIo) (image : Image) (m : Master) : List (Nat × FormatItem) :=
  picked (m.picksOn image) (recordsOn io image)

/-- The records are loaded, and unless they could not be read the remaining
space is put in order. -/
theorem formatLoadDevice_loads (hfront : Front d f 0 [] m.space)
    (h : m.formatLoadDevice rt io d image = some (ok, image', m')) :
    ∃ m₁, Loads rt d (m.pickedOn io image) m m₁ ∧
      (ok = false ∧ m' = m₁ ∧ (Torn io image ∨ m.pickedOn io image = []) ∨
        ¬Torn io image ∧ ∃ sp, m₁.space.deviceLoadPost d = some sp ∧ m' = { m₁ with space := sp }) := by
  have hpicks : ∀ {n : Int} {ports : Nat → Nat}, formatInfo image = some (n, ports) →
      m.picksOn image = m.picks (toI64 (ohcFmInfoSize + n * formatItemSize)) ports := by
    intro n ports hinfo
    funext x
    rw [picksOn, hinfo]
    rfl
  cases formatLoadDevice_cases h with
  | refused hno =>
    have hnil : m.pickedOn io image = [] := by rw [pickedOn, hno]; rfl
    exact ⟨m, hnil ▸ .nil, .inl ⟨rfl, rfl, .inr hnil⟩⟩
  | broken hrecords hinfo hl =>
    obtain ⟨hloads, -, hall⟩ := loadItems_reads hfront hl
    obtain ⟨j, hj, hr⟩ := hall.mp rfl
    rw [Nat.zero_add] at hr
    refine ⟨m', ?_, .inl ⟨rfl, rfl, .inl ⟨_, _, hinfo, j, hj, hr⟩⟩⟩
    rw [pickedOn, hrecords, hpicks hinfo]
    exact hloads
  | @loaded n ports m₁ sp hrecords hinfo hl hp =>
    obtain ⟨hloads, -, hall⟩ := loadItems_reads hfront hl
    refine ⟨m₁, ?_, .inr ⟨?_, sp, hp, rfl⟩⟩
    · rw [pickedOn, hrecords, hpicks hinfo]
      exact hloads
    · rintro ⟨n', ports', hinfo', j, hj, hr⟩
      obtain ⟨rfl, rfl⟩ := Prod.mk.inj (Option.some.inj (hinfo.symm.trans hinfo'))
      cases hall.mpr ⟨j, hj, by rw [Nat.zero_add]; exact hr⟩

end

/-- What became of a record that found its place on device `d`. -/
structure Laid (al : Allocator) (d f : Nat) (m m' : Master) (p : Piece) (c : Cut) : Prop where
  gap : GapAt al d c.front c.record.place m'.space p.gap
  apart : p.gap ≠ some f
  fresh : p.item ∉ m.space.items

/-- The entries `t` are in the lists and the accounts of their servers. -/
structure Tallied (t : List (Nat × Nat × FormatItem)) (m m' : Master) : Prop where
  indexs : m'.serverIndexs = m.serverIndexs
  lru : ∀ l, m.lru l ⊆ m'.lru l
  listed : ∀ x ∈ t, x.1 ∈ m'.lru (m.serverLruHead x.2.1)
  itemNr : ∀ s, (m'.server s).itemNr = (m.server s).itemNr + (t.filter (·.2.1 = s)).length
  content : ∀ s, (m'.server s).content = (m.server s).content + ((t.filter (·.2.1 = s)).map (·.2.2.length)).sum
  consumed : ∀ s, (m'.server s).consumed = (m.server s).consumed + ((t.filter (·.2.1 = s)).map (·.2.2.size)).sum

theorem Entered.serverLruHead {t : List (Nat × Nat × FormatItem)} {m m' : Master} (h : Entered t m m') (s : Nat) :
    m'.serverLruHead s = m.serverLruHead s := by
  obtain ⟨_, _, _, hs⟩ := h.server s
  rw [Master.serverLruHead, Master.serverLruHead, hs]

namespace Tallied

variable {rt : Runtime} {d s : Nat} {x : FormatItem} {t t' : List (Nat × Nat × FormatItem)} {m m₁ m' : Master}

theorem nothing (hserver : m'.server = m.server) (hlru : m'.lru = m.lru) (hindexs : m'.serverIndexs = m.serverIndexs) :
    Tallied [] m m' := by
  constructor <;> simp [hserver, hlru, hindexs]

theorem trans (h : Tallied t m m₁) (h' : Tallied t' m₁ m') (he : Entered t m m₁) : Tallied (t ++ t') m m' where
  indexs := h'.indexs.trans h.indexs
  lru l := List.Subset.trans (h.lru l) (h'.lru l)
  listed x hx := by
    rcases List.mem_append.mp hx with hx | hx
    · exact h'.lru _ (h.listed x hx)
    · exact he.serverLruHead _ ▸ h'.listed x hx
  itemNr s := by rw [h'.itemNr, h.itemNr, List.filter_append, List.length_append, Nat.cast_add, add_assoc]
  content s := by rw [h'.content, h.content, List.filter_append, List.map_append, List.sum_append, Nat.add_assoc]
  consumed s := by rw [h'.consumed, h.consumed, List.filter_append, List.map_append, List.sum_append, Nat.add_assoc]

/-- **One record.** -/
theorem loadCase (hc : LoadCase rt s d x m m') (he : Entered t m m') (ht : t = [] ∨ ∃ a, t = [(a, s, x)]) : Tallied t m m' := by
  -- Without a new item there is no entry.
  have hnothing : m'.server = m.server → m'.lru = m.lru → m'.serverIndexs = m.serverIndexs →
      m'.space.items ⊆ m.space.items → Tallied t m m' := by
    intro hserver hlru hindexs hsub
    rcases ht with rfl | ⟨a, rfl⟩
    · exact nothing hserver hlru hindexs
    · exact absurd (hsub ((he.items a).mpr (.inr ⟨_, List.mem_singleton_self _, rfl⟩))) (he.fresh _ (List.mem_singleton_self _))
  cases hc with
  | noMem => exact hnothing rfl rfl rfl (List.Subset.refl _)
  | @noFit a sp _ hk =>
    refine hnothing rfl rfl rfl fun b hb => ?_
    obtain ⟨hb, hba⟩ := List.mem_filter.mp hb
    rcases (Space.deviceCutFreeBlock_located hk).2 with ⟨-, hi⟩ | ⟨-, -, hi⟩
    · exact hi ▸ hb
    · rw [hi, List.mem_cons] at hb
      exact hb.resolve_left (by simpa using hba)
  | @ok a k sp ha hk hne =>
    obtain ⟨hsize, -, hitems⟩ := (Space.deviceCutFreeBlock_located hk).2.resolve_left fun h0 => hne h0.1
    obtain rfl : k = x.size := by
      rw [hsize]
      show ipbucketBlockSize (Function.update m.space.item a _ a).length = _
      rw [Function.update_self]
      rfl
    obtain ⟨y, hy, rfl⟩ := ((he.items a).mp (show a ∈ sp.items by rw [hitems]; exact List.mem_cons_self)).resolve_left
      (rt.al.fresh ha)
    rcases ht with rfl | ⟨b, rfl⟩
    · cases hy
    obtain rfl := List.mem_singleton.mp hy
    generalize hm' : ({ m.loadDraft s d b x with space := sp } : Master).enter rt s d b x.size x = m'
    have hserver : m'.server = Function.update m.server s { m.server s with
        consumed := (m.server s).consumed + x.size, content := (m.server s).content + x.length
        itemNr := (m.server s).itemNr + 1 } := by
      rw [← hm']
      rfl
    have hlru : m'.lru = Function.update m.lru (m.serverLruHead s) (b :: m.lru (m.serverLruHead s)) := by
      rw [← hm']
      rfl
    refine ⟨by rw [← hm']; rfl, fun l => ?_, fun y hy => ?_, fun y => ?_, fun y => ?_, fun y => ?_⟩
    · rw [hlru]
      by_cases hl : l = m.serverLruHead s
      · subst hl
        rw [Function.update_self]
        exact List.subset_cons_self ..
      · rw [Function.update_of_ne hl]
        exact List.Subset.refl _
    · rw [List.mem_singleton.mp hy, hlru, Function.update_self]
      exact List.mem_cons_self
    all_goals
      rw [hserver]
      by_cases hy : y = s
      · subst hy
        simp
      · simp [Function.update_of_ne hy, Ne.symm hy]

end Tallied

/-- The pieces `ps` of the records `l` were put before the remaining space. -/
structure Pieces (al : Allocator) (d f front : Nat) (its : List Nat) (l : List (Nat × FormatItem)) (ps : List Piece)
    (m m' : Master) : Prop where
  restored : Restored d (entriesOf ps (cutsOf (m.space.device d).capacity front l)) m m'
  frame : LoadFrame d f m.space m'.space
  rest : Front d f (cutEnd (m.space.device d).capacity front l) (its ++ ps.map Piece.item) m'.space
  order : ∀ L, m.space.order d = L ++ [.fblock f] → m'.space.order d = L ++ ps.flatMap Piece.nodes ++ [.fblock f]
  laid : List.Forall₂ (Laid al d f m m') ps (cutsOf (m.space.device d).capacity front l)
  queue : ∀ g ∈ m.space.fblocks, ∀ i, g ∈ m'.space.queue i ↔ g ∈ m.space.queue i
  tallied : Tallied (entriesOf ps (cutsOf (m.space.device d).capacity front l)) m m'

/-- A free block that was put there stays. -/
theorem Laid.later {al : Allocator} {d f : Nat} {m m₁ m' : Master} {p : Piece} {c : Cut} (h : Laid al d f m m₁ p c)
    (hframe : LoadFrame d f m₁.space m'.space) : Laid al d f m m' p c := by
  refine ⟨?_, h.apart, h.fresh⟩
  obtain ⟨_, _, hdev⟩ := hframe.same.device d
  have hgap := h.gap
  cases hp : p.gap with
  | none =>
    rw [hp] at hgap
    exact hgap
  | some g =>
    rw [hp] at hgap
    obtain ⟨hlt, hg, hblock, hin⟩ := hgap
    have hgf : g ≠ f := fun he => h.apart (hp.trans (congrArg some he))
    obtain ⟨hg', hblock'⟩ := hframe.fblock g hg hgf
    exact ⟨hlt, hg', by rw [hblock', hblock, hdev], (hframe.queue g hg hgf _).mpr hin⟩

/-- **What loading some records does to the list.** Those for which there was
no memory are passed over. -/
theorem Loads.pieces {rt : Runtime} {d f front : Nat} {its : List Nat} {l : List (Nat × FormatItem)} {m m' : Master}
    (h : Front d f front its m.space) (hl : Loads rt d l m m') :
    ∃ l' ps, l'.Sublist l ∧ ((∀ n k, (rt.al.get n k).isSome) → l' = l) ∧ Pieces rt.al d f front its l' ps m m' := by
  induction hl generalizing front its with
  | nil =>
    exact ⟨[], [], .refl _, fun _ => rfl, .refl .., .refl .., by simpa [cutEnd] using h, fun L hL => by simpa using hL,
      .nil, fun _ _ _ => Iff.rfl, .nothing rfl rfl rfl⟩
  | @cons s x l m m₁ m' h₁ hl ih =>
    obtain ⟨t₁, its₁, front₁, hr₁, hf₁, hframe₁, hcase⟩ := Restored.loadCase h (serverLoadFmItem_cases h₁)
    obtain ⟨l', ps, hsub, hall, hps⟩ := ih hf₁
    obtain ⟨_, _, hdev⟩ := hframe₁.same.device d
    have hrestored := hr₁.trans hps.restored
    have hframe := hframe₁.trans hps.frame
    have hfront := hps.rest
    have hlaid := hps.laid
    have htallied := (Tallied.loadCase (serverLoadFmItem_cases h₁) hr₁.toEntered (by
      rcases hcase with h | ⟨-, -, p, -, -, -, h | h⟩
      · exact .inl h.1
      · exact .inl h.2
      · exact .inr ⟨_, h.2⟩)).trans hps.tallied hr₁.toEntered
    rw [hdev] at hrestored hfront hlaid htallied
    have hkeep : ∀ g ∈ m.space.fblocks, g ∈ m₁.space.fblocks := by
      intro g hg
      by_cases hgf : g = f
      · exact hgf ▸ hf₁.live
      · exact (hframe₁.fblock g hg hgf).1
    -- The records behind are laid as from the beginning.
    have hlater : List.Forall₂ (Laid rt.al d f m m') ps (cutsOf (m.space.device d).capacity front₁ l') :=
      hlaid.imp fun p c hp => ⟨hp.gap, hp.apart, fun hmem => hp.fresh ((hr₁.items p.item).mpr (.inl hmem))⟩
    rcases hcase with ⟨rfl, rfl, rfl, ⟨horder, hqueue⟩, hno⟩ | ⟨hfit, rfl, p, hcut, hnew, rfl, hcase⟩
    · have hstill : ∀ g ∈ m.space.fblocks, ∀ i, g ∈ m'.space.queue i ↔ g ∈ m.space.queue i := by
        intro g hg i
        rw [← hqueue]
        exact hps.queue g (hkeep g hg) i
      have hpieces : Pieces rt.al d f front₁ its₁ l' ps m m' := ⟨hrestored, hframe, hfront,
        fun L hL => hps.order L (horder.trans hL), hlater, hstill, htallied⟩
      by_cases hfit : x.FitsAt front₁ (m.space.device d).capacity
      · -- No memory: the record is passed over.
        exact ⟨l', ps, hsub.cons _, fun hal => absurd hal (hno hfit), hpieces⟩
      · have hcuts : cutsOf (m.space.device d).capacity front₁ ((s, x) :: l') =
            cutsOf (m.space.device d).capacity front₁ l' := by rw [cutsOf, if_neg hfit]
        have hend : cutEnd (m.space.device d).capacity front₁ ((s, x) :: l') =
            cutEnd (m.space.device d).capacity front₁ l' := by rw [cutEnd, if_neg hfit]
        exact ⟨(s, x) :: l', ps, hsub.cons_cons _, fun hal => by rw [hall hal], by rw [hcuts]; exact hpieces.restored,
          hpieces.frame, by rw [hend]; exact hpieces.rest, hpieces.order, by rw [hcuts]; exact hpieces.laid, hpieces.queue,
          by rw [hcuts]; exact hpieces.tallied⟩
    · have hcuts : cutsOf (m.space.device d).capacity front ((s, x) :: l') =
          ⟨front, s, x⟩ :: cutsOf (m.space.device d).capacity (x.place + x.size) l' := by rw [cutsOf, if_pos hfit]
      have hend : cutEnd (m.space.device d).capacity front ((s, x) :: l') =
          cutEnd (m.space.device d).capacity (x.place + x.size) l' := by rw [cutEnd, if_pos hfit]
      have hentries : entriesOf (p :: ps) (⟨front, s, x⟩ :: cutsOf (m.space.device d).capacity (x.place + x.size) l') =
          t₁ ++ entriesOf ps (cutsOf (m.space.device d).capacity (x.place + x.size) l') := by
        rw [entriesOf]
        rcases hcase with ⟨hzero, rfl⟩ | ⟨hne, rfl⟩
        · rw [if_pos hzero]
          rfl
        · rw [if_neg hne]
          rfl
      obtain ⟨L₀, hL₀, hf₀, -⟩ := hf₁.order
      have hapart : p.gap ≠ some f := by
        intro hp
        obtain ⟨L, hL, -⟩ := h.order
        have heq := List.append_cancel_right (hL₀.symm.trans (hcut.order L hL))
        refine hf₀ (heq ▸ List.mem_append_right _ ?_)
        simp [Piece.nodes, hp]
      have hfirst : Laid rt.al d f m m₁ p ⟨front, s, x⟩ := ⟨hcut.gap, hapart, hnew⟩
      refine ⟨(s, x) :: l', p :: ps, hsub.cons_cons _, fun hal => by rw [hall hal], ?_, hframe, ?_, fun L hL => ?_, ?_,
        fun g hg i => (hps.queue g (hkeep g hg) i).trans (hcut.queue g hg i), ?_⟩
      · rw [hcuts, hentries]
        exact hrestored
      · rw [hend]
        simpa using hfront
      · rw [hps.order _ (hcut.order L hL), List.flatMap_cons]
        simp
      · rw [hcuts]
        exact .cons (hfirst.later hps.frame) hlater
      · rw [hcuts, hentries]
        exact htallied

end Master

/-! ## The layout of the pieces -/

section

variable {al : Allocator} {s : Space} {d capacity front : Nat} {l : List (Nat × FormatItem)} {ps : List Piece}

/-- The tiles of a piece: the gap, also where there was no memory for its
block, and the item. -/
def Piece.tiles (front : Nat) (x : FormatItem) (p : Piece) : List Tile :=
  (if front < x.place then [⟨p.gap.map Node.fblock, front, x.place - front⟩] else []) ++
    [⟨some (.item p.item), x.place, x.size⟩]

namespace Piece

variable {x : FormatItem} {p : Piece}

/-- Without a gap, the item is all there is. -/
theorem gap_eq_none (h : GapAt al d front x.place s p.gap) (hlt : ¬front < x.place) : p.gap = none := by
  cases hp : p.gap with
  | none => rfl
  | some g =>
    rw [hp] at h
    exact absurd h.1 hlt

theorem tiles_tiles (hle : front ≤ x.place) (hne : x.size ≠ 0) (p : Piece) :
    Tiles front (x.place + x.size) (p.tiles front x) := by
  have hpos := Nat.pos_of_ne_zero hne
  unfold tiles
  split
  · next hlt => exact ⟨rfl, Nat.sub_pos_of_lt hlt, (Nat.add_sub_cancel' hle).symm, hpos, rfl⟩
  · next hlt => exact ⟨(Nat.le_antisymm hle (Nat.le_of_not_lt hlt)).symm, hpos, rfl⟩

theorem tiles_tag (h : GapAt al d front x.place s p.gap) : (p.tiles front x).filterMap Seg.tag = p.nodes := by
  unfold tiles nodes
  split
  · cases p.gap <;> rfl
  · next hlt =>
    rw [gap_eq_none h hlt]
    rfl

theorem tiles_extent (h : GapAt al d front x.place s p.gap) (hitem : s.extent (.item p.item) = (x.place, x.size)) :
    ∀ t ∈ p.tiles front x, ∀ n, t.tag = some n → s.extent n = (t.offset, t.size) := by
  intro t ht n hn
  rcases List.mem_append.mp ht with ht | ht
  · split at ht
    · rw [List.mem_singleton.mp ht] at hn ⊢
      obtain ⟨g, hg, rfl⟩ := Option.map_eq_some_iff.mp hn
      rw [hg] at h
      rw [Space.extent, h.2.2.1]
    · cases ht
  · rw [List.mem_singleton.mp ht] at hn ⊢
    cases hn
    exact hitem

/-- The last tile is that of the item. -/
theorem tiles_coalesced (p : Piece) {T : List Tile} (h : Coalesced IsFree T) : Coalesced IsFree (p.tiles front x ++ T) := by
  have hitem : ¬IsFree (some (Node.item p.item)) := fun ⟨_, hf⟩ => by cases hf
  have hrest : Coalesced IsFree ((⟨some (.item p.item), x.place, x.size⟩ : Tile) :: T) :=
    List.isChain_cons.mpr ⟨fun _ _ hf => hitem hf.1, h⟩
  unfold tiles
  rw [List.append_assoc]
  split
  · exact List.isChain_cons_cons.mpr ⟨fun hf => hitem hf.2, hrest⟩
  · exact hrest

end Piece

/-- **The pieces, with their gaps, tile what has been loaded.** -/
theorem pieces_tiles (hgap : List.Forall₂ (fun p c => GapAt al d c.front c.record.place s p.gap) ps (cutsOf capacity front l))
    (hsize : ∀ c ∈ cutsOf capacity front l, c.record.size ≠ 0)
    (hitem : ∀ x ∈ entriesOf ps (cutsOf capacity front l), s.extent (.item x.1) = (x.2.2.place, x.2.2.size)) :
    ∃ T : List Tile, Tiles front (cutEnd capacity front l) T ∧ T.filterMap Seg.tag = ps.flatMap Piece.nodes ∧
      (∀ t ∈ T, ∀ n, t.tag = some n → s.extent n = (t.offset, t.size)) ∧ (∀ t, Coalesced IsFree (T ++ [t])) ∧
      ((∀ c ∈ cutsOf capacity front l, c.record.length < 2 ^ 32 ∧ 512 ∣ c.record.place - c.front) → ∀ t ∈ T, 512 ∣ t.size) ∧
      ((∀ n k, (al.get n k).isSome) → ∀ t ∈ T, t.tag ≠ none) := by
  induction l generalizing front ps with
  | nil =>
    obtain rfl : ps = [] := by simpa [cutsOf] using hgap
    exact ⟨[], rfl, rfl, nofun, fun t => List.isChain_singleton t, nofun, nofun⟩
  | cons y l ih =>
    obtain ⟨srv, x⟩ := y
    rw [cutsOf] at hgap hsize hitem ⊢
    rw [cutEnd]
    by_cases hfit : x.FitsAt front capacity
    · simp only [if_pos hfit] at hgap hsize hitem ⊢
      cases hgap with
      | @cons p _ ps _ hp hgap =>
      have hne : x.size ≠ 0 := hsize _ List.mem_cons_self
      rw [entriesOf, if_neg hne] at hitem
      obtain ⟨T, h1, h2, h3, h4, h5, h6⟩ := ih hgap (fun c hc => hsize c (List.mem_cons_of_mem _ hc))
        fun y hy => hitem y (List.mem_cons_of_mem _ hy)
      refine ⟨p.tiles front x ++ T, tiles_append.mpr ⟨_, Piece.tiles_tiles hfit.1 hne p, h1⟩, ?_, fun t ht => ?_, fun t => ?_,
        fun hdvd t ht => ?_, fun hal t ht => ?_⟩
      · rw [List.filterMap_append, Piece.tiles_tag hp, h2, List.flatMap_cons]
      · rcases List.mem_append.mp ht with ht | ht
        · exact Piece.tiles_extent hp (hitem _ List.mem_cons_self) t ht
        · exact h3 t ht
      · rw [List.append_assoc]
        exact p.tiles_coalesced (h4 t)
      · rcases List.mem_append.mp ht with ht | ht
        · obtain ⟨hlen, hgapd⟩ := hdvd _ List.mem_cons_self
          rcases List.mem_append.mp ht with ht | ht
          · split at ht
            · rw [List.mem_singleton.mp ht]
              exact hgapd
            · cases ht
          · rw [List.mem_singleton.mp ht]
            exact dvd_ipbucketBlockSize hlen.le
        · exact h5 (fun c hc => hdvd c (List.mem_cons_of_mem _ hc)) t ht
      · rcases List.mem_append.mp ht with ht | ht
        · rcases List.mem_append.mp ht with ht | ht
          · split at ht
            · next hlt =>
              rw [List.mem_singleton.mp ht]
              intro hnone
              rw [Option.map_eq_none_iff] at hnone
              rw [hnone] at hp
              rcases hp with heq | ⟨n, k, hno⟩
              · exact Nat.ne_of_lt hlt heq
              · have hsome := hal n k
                rw [hno] at hsome
                cases hsome
            · cases ht
          · rw [List.mem_singleton.mp ht]
            exact Option.some_ne_none _
        · exact h6 hal t ht
    · simp only [if_neg hfit] at hgap hsize hitem ⊢
      exact ih hgap hsize hitem

/-- The list after `device_load_post`. -/
theorem Front.loadPost_order {s' : Space} {f : Nat} {its : List Nat} (h : Front d f front its s)
    (hp : s.deviceLoadPost d = some s') : s'.fblock = s.fblock ∧
      (front = (s.device d).capacity ∧ (∀ L, s.order d = L ++ [.fblock f] → s'.order d = L) ∨
        front < (s.device d).capacity ∧ s'.order d = s.order d ∧ f ∈ s'.queue (ipbucketIndex (s.fblock f).blockSize false).toNat) := by
  have hsize := h.size
  rw [Space.deviceLoadPost, h.current] at hp
  simp only [Option.bind_eq_bind, Option.bind_some] at hp
  split at hp
  · next hzero =>
    obtain ⟨e, he, rfl⟩ := Option.map_eq_some_iff.mp hp
    obtain rfl : e = d := by
      rw [Space.deviceOfFblock, h.owner] at he
      rcases h.index with hi | hi
      · rw [hi, IdxPointer.get_neg_one] at he
        cases he
      · exact Option.some.inj (he.symm.trans hi)
    refine ⟨rfl, .inl ⟨by omega, fun L hL => ?_⟩⟩
    obtain ⟨L₀, hL₀, hf, -⟩ := h.order
    obtain rfl : L₀ = L := List.append_cancel_right (hL₀.symm.trans hL)
    show Function.update s.order e ((s.order e).erase (.fblock f)) e = L₀
    rw [Function.update_self, hL₀, List.erase_append_right _ hf]
    simp
  · next hne =>
    cases hp
    exact ⟨rfl, .inr ⟨by omega, rfl, Space.mem_queue_ipbucketAdd_self (s.ipbucketDel f) f⟩⟩

/-- **The layout of a device whose list is that of the pieces**, up to its
end. -/
theorem Master.Pieces.layout_of {m m₁ : Master} {f : Nat} {sp : Space} (h : Pieces al d f 0 [] l ps m m₁)
    (hsize : ∀ c ∈ cutsOf (m.space.device d).capacity 0 l, c.record.size ≠ 0) (hextent : sp.extent = m₁.space.extent)
    (hcase : cutEnd (m.space.device d).capacity 0 l = (m.space.device d).capacity ∧ sp.order d = ps.flatMap Piece.nodes ∨
      cutEnd (m.space.device d).capacity 0 l < (m.space.device d).capacity ∧
        sp.order d = ps.flatMap Piece.nodes ++ [.fblock f]) :
    ∃ T : List Tile, Tiles 0 (m.space.device d).capacity T ∧ T.filterMap Seg.tag = sp.order d ∧
      (∀ t ∈ T, ∀ n, t.tag = some n → sp.extent n = (t.offset, t.size)) ∧ Coalesced IsFree T ∧
      (512 ∣ (m.space.device d).capacity → (∀ c ∈ cutsOf (m.space.device d).capacity 0 l, c.record.length < 2 ^ 32 ∧
        512 ∣ c.record.place - c.front) → ∀ t ∈ T, 512 ∣ t.size) ∧
      ((∀ n k, (al.get n k).isSome) → ∀ t ∈ T, t.tag ≠ none) := by
  obtain ⟨T, h1, h2, h3, h4, h5, h6⟩ := pieces_tiles (s := m₁.space) (h.laid.imp fun _ _ hp => hp.gap) hsize fun x hx => by
    rw [Space.extent, h.restored.item x hx]
    rfl
  obtain ⟨_, _, hdev⟩ := h.frame.same.device d
  have hcap : (m₁.space.device d).capacity = (m.space.device d).capacity := by rw [hdev]
  rw [hextent]
  rcases hcase with ⟨hend, hlast⟩ | ⟨hlt, hlast⟩
  · refine ⟨T, ?_, h2.trans hlast.symm, h3, (List.isChain_append.mp (h4 ⟨none, 0, 0⟩)).1, fun _ => h5, h6⟩
    rw [← hend]
    exact h1
  · have hsum := h.rest.size
    rw [hcap] at hsum
    refine ⟨T ++ [m₁.space.tile (.fblock f)], tiles_append.mpr ⟨_, h1, ?_⟩, ?_, fun t ht n hn => ?_, h4 _,
      fun hdvd hall t ht => ?_, fun hal t ht => ?_⟩
    · refine tiles_singleton.mpr ⟨h.rest.offset, ?_, ?_⟩
      · show 0 < (m₁.space.fblock f).blockSize
        omega
      · show (m₁.space.fblock f).offset + (m₁.space.fblock f).blockSize = _
        rw [h.rest.offset, hsum]
    · rw [List.filterMap_append, h2, hlast]
      rfl
    · rcases List.mem_append.mp ht with ht | ht
      · exact h3 t ht n hn
      · rw [List.mem_singleton.mp ht] at hn ⊢
        cases hn
        rfl
    · rcases List.mem_append.mp ht with ht | ht
      · exact h5 hall t ht
      · rw [List.mem_singleton.mp ht]
        show 512 ∣ (m₁.space.fblock f).blockSize
        have hfront : 512 ∣ cutEnd (m.space.device d).capacity 0 l := by
          rw [← h1.sum_size, Nat.zero_add]
          refine List.dvd_sum fun n hn => ?_
          obtain ⟨u, hu, rfl⟩ := List.mem_map.mp hn
          exact h5 hall u hu
        omega
    · rcases List.mem_append.mp ht with ht | ht
      · exact h6 hal t ht
      · rw [List.mem_singleton.mp ht]
        exact Option.some_ne_none _

/-- The list after a load to the end. -/
theorem Master.Pieces.loadPost_order {m m₁ : Master} {f : Nat} {sp : Space} (h : Pieces al d f 0 [] l ps m m₁)
    (horder : m.space.order d = [.fblock f]) (hp : m₁.space.deviceLoadPost d = some sp) :
    sp.fblock = m₁.space.fblock ∧
      (cutEnd (m.space.device d).capacity 0 l = (m.space.device d).capacity ∧ sp.order d = ps.flatMap Piece.nodes ∨
        cutEnd (m.space.device d).capacity 0 l < (m.space.device d).capacity ∧
          sp.order d = ps.flatMap Piece.nodes ++ [.fblock f] ∧
          f ∈ sp.queue (ipbucketIndex (m₁.space.fblock f).blockSize false).toNat) := by
  obtain ⟨hfblock, hcase⟩ := h.rest.loadPost_order hp
  obtain ⟨_, _, hdev⟩ := h.frame.same.device d
  have hcap : (m₁.space.device d).capacity = (m.space.device d).capacity := by rw [hdev]
  have hlist := h.order [] horder
  rw [List.nil_append] at hlist
  rw [hcap] at hcase
  refine ⟨hfblock, hcase.imp (fun hc => ⟨hc.1, hc.2 _ hlist⟩) fun hc => ⟨hc.1, hc.2.1.trans hlist, hc.2.2⟩⟩

/-- The blocks are where they were. -/
theorem extent_congr {s s' : Space} (hitem : s'.item = s.item) (hfblock : s'.fblock = s.fblock) : s'.extent = s.extent := by
  funext n
  cases n with
  | item a => rw [Space.extent, Space.extent, hitem]
  | fblock g => rw [Space.extent, Space.extent, hfblock]

end

end OliveHc
