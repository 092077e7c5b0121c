/-
Loading a device that holds anything.

Only the superblock has a checksum. The records say what they like, and
reading them may fail at any one: what that does to the list of the device
depends on the records that find their place.
-/
import OliveHc.Format.DumpLoad

namespace OliveHc

namespace Master

/-! ## A device in order -/

/-- The items of server `s` in the list of device `d`. -/
def listedOf (d s : Nat) (m : Master) : List Nat :=
  ((m.space.order d).filterMap Node.item?).filter fun a => m.serverOfItem a = some s

/-- Device `d`, which had nothing in `m`, is in order in `m'`: its list, its
free blocks, and its items at their servers. -/
structure InOrder (d : Nat) (m m' : Master) : Prop where
  sorted : (m'.space.order d).Pairwise fun n k => (m'.space.extent n).1 < (m'.space.extent k).1
  disjoint : (m'.space.order d).Pairwise fun n k => (m'.space.extent n).1 + (m'.space.extent n).2 ≤ (m'.space.extent k).1
  inside : ∀ n ∈ m'.space.order d, (m'.space.extent n).1 + (m'.space.extent n).2 ≤ (m'.space.device d).capacity
  free : ∀ f, .fblock f ∈ m'.space.order d → 0 < (m'.space.fblock f).blockSize ∧ 512 ∣ (m'.space.fblock f).blockSize ∧
    f ∈ m'.space.queue (ipbucketIndex (m'.space.fblock f).blockSize false).toNat
  live : ∀ a, .item a ∈ m'.space.order d → a ∈ m'.space.items ∧ m'.space.deviceOfItem a = some d ∧
    ∃ s ∈ m'.servers, m'.serverOfItem a = some s ∧ (m'.hash s).Has ⟨(m'.space.item a).id, .item a⟩ ∧
      a ∈ m'.lru (m'.serverLruHead s)
  books : ∀ s ∈ m'.servers, (m'.server s).itemNr = (m.server s).itemNr + (m'.listedOf d s).length ∧
    (m'.server s).content = (m.server s).content + ((m'.listedOf d s).map fun a => (m'.space.item a).length).sum ∧
    (m'.server s).consumed = (m.server s).consumed +
      ((m'.listedOf d s).map fun a => ipbucketBlockSize (m'.space.item a).length).sum

/-! ## What decides -/

/-- The records that find their place have a length and begin at a multiple
of 512. When the records cannot all be read, the remaining space stays in
the queue for the whole device, so it has to belong there. -/
def CutsWell (d : Nat) (io : FormatIo) (image : Image) (m : Master) : Prop :=
  let capacity := (m.space.device d).capacity
  let front := cutEnd capacity 0 (m.pickedOn io image)
  (∀ c ∈ cutsOf capacity 0 (m.pickedOn io image), c.record.length ≠ 0 ∧ 512 ∣ c.record.place) ∧
    (Torn io image → front < capacity ∧
      (ipbucketIndex (capacity - front) false).toNat = (ipbucketIndex capacity false).toNat)

/-- The record names a server of the dump, if it is looked at. -/
def SoundOn (image : Image) (m : Master) (x : FormatItem) : Prop :=
  ∀ n ports, formatInfo image = some (n, ports) → m.Sound (toI64 (ohcFmInfoSize + n * formatItemSize)) ports x

/-! ## The list -/

section List

variable {rt : Runtime} {m m₁ m' : Master} {d f : Nat} {l : List (Nat × FormatItem)} {ps : List Piece} {sp : Space}

/-- Where a record begins is a multiple of 512 just if the gap before it is. -/
theorem cutsOf_aligned {capacity front : Nat} (hlen : ∀ y ∈ l, y.2.length < 2 ^ 32) (hfront : 512 ∣ front) :
    (∀ c ∈ cutsOf capacity front l, 512 ∣ c.record.place) ↔ ∀ c ∈ cutsOf capacity front l, 512 ∣ c.record.place - c.front := by
  induction l generalizing front with
  | nil => exact ⟨fun _ => nofun, fun _ => nofun⟩
  | cons y l ih =>
    obtain ⟨s, x⟩ := y
    have hlen' := fun z hz => hlen z (List.mem_cons_of_mem _ hz)
    rw [cutsOf]
    split
    · next hfit =>
      have hsize : 512 ∣ x.size := dvd_ipbucketBlockSize (hlen (s, x) List.mem_cons_self).le
      have hle := hfit.1
      have hgap : 512 ∣ x.place ↔ 512 ∣ x.place - front := by omega
      simp only [List.forall_mem_cons, hgap]
      refine and_congr_right fun hx => ih hlen' ?_
      exact Nat.dvd_add (hgap.mpr hx) hsize
    · exact ih hlen' hfront

/-- The state after the loop, with or without `device_load_post`. -/
structure Ended (d f : Nat) (m₁ m' : Master) : Prop where
  rest : m' = { m₁ with space := m'.space }
  frame : LoadFrame d f m₁.space m'.space
  item : m'.space.item = m₁.space.item
  items : m'.space.items = m₁.space.items
  fblock : m'.space.fblock = m₁.space.fblock

theorem size_ne_zero {x : FormatItem} (hlen : x.length < 2 ^ 32) : x.size ≠ 0 ↔ x.length ≠ 0 := by
  refine ⟨fun h h0 => h ?_, fun h => Nat.ne_of_gt (ipbucketBlockSize_pos (Nat.pos_of_ne_zero h) hlen.le)⟩
  rw [FormatItem.size, h0, ipbucketBlockSize_zero]

/-- **The records that found their place leave the device in order**, if they
have a length and begin at multiples of 512. -/
theorem Pieces.inOrder (h : Pieces rt.al d f 0 [] l ps m m₁) (hturn : Turn d f m) (he : Ended d f m₁ m')
    (hlen : ∀ y ∈ l, y.2.length < 2 ^ 32) (hservers : ∀ y ∈ l, y.1 ∈ m.servers)
    (hcase : cutEnd (m.space.device d).capacity 0 l = (m.space.device d).capacity ∧
        m'.space.order d = ps.flatMap Piece.nodes ∨
      cutEnd (m.space.device d).capacity 0 l < (m.space.device d).capacity ∧
        m'.space.order d = ps.flatMap Piece.nodes ++ [.fblock f] ∧
        f ∈ m'.space.queue (ipbucketIndex (m'.space.fblock f).blockSize false).toNat)
    (hfine : ∀ c ∈ cutsOf (m.space.device d).capacity 0 l, c.record.length ≠ 0 ∧ 512 ∣ c.record.place) : InOrder d m m' := by
  have hcutLen : ∀ c ∈ cutsOf (m.space.device d).capacity 0 l, c.record.length < 2 ^ 32 := fun c hc => hlen _ (mem_cutsOf hc)
  have hsize : ∀ c ∈ cutsOf (m.space.device d).capacity 0 l, c.record.size ≠ 0 := fun c hc =>
    (size_ne_zero (hcutLen c hc)).mpr (hfine c hc).1
  obtain ⟨T, htiles, horder, hextent, -, haligned, -⟩ := h.layout_of hsize (extent_congr he.item he.fblock)
    (hcase.imp_right fun hc => ⟨hc.1, hc.2.1⟩)
  have hgaps := (cutsOf_aligned hlen (Nat.dvd_zero 512)).mp fun c hc => (hfine c hc).2
  have hT : Layout (m.space.device d).capacity (m'.space.order d) m'.space.extent T :=
    ⟨htiles, horder, hextent, haligned hturn.aligned fun c hc => ⟨hcutLen c hc, hgaps c hc⟩⟩
  have hdev : ∃ c b, m'.space.device d = { m.space.device d with consumed := c, badblock := b } := by
    obtain ⟨_, _, h₁⟩ := h.frame.same.device d
    obtain ⟨_, _, h₂⟩ := he.frame.same.device d
    exact ⟨_, _, by rw [h₂, h₁]⟩
  obtain ⟨c₀, b₀, hdev⟩ := hdev
  -- The items of the list are those that were entered.
  obtain ⟨hnew, hl⟩ := entriesOf_map h.laid.length_eq hsize
  have hitems : (m'.space.order d).filterMap Node.item? = ps.map Piece.item := by
    rcases hcase with ⟨-, ho⟩ | ⟨-, ho, -⟩
    · rw [ho, nodes_items]
    · rw [ho, List.filterMap_append, nodes_items]
      exact List.append_nil _
  have hrestored := h.restored
  have htallied := h.tallied
  have hentry : ∀ a, a ∈ ps.map Piece.item ↔ ∃ x ∈ entriesOf ps (cutsOf (m.space.device d).capacity 0 l), x.1 = a := by
    intro a
    rw [← hnew, List.mem_map]
  have hserver : ∀ x ∈ entriesOf ps (cutsOf (m.space.device d).capacity 0 l), x.2.1 ∈ m.servers := by
    intro x hx
    have hmem := List.mem_map_of_mem (f := (·.2)) hx
    rw [hl] at hmem
    obtain ⟨c, hc, hcx⟩ := List.mem_map.mp hmem
    rw [← hcx]
    exact hservers _ (mem_cutsOf hc)
  generalize entriesOf ps (cutsOf (m.space.device d).capacity 0 l) = t at hnew hrestored htallied hentry hserver
  have hindexs : m'.serverIndexs = m.serverIndexs := by rw [he.rest]; exact htallied.indexs
  have hidx : ∀ x ∈ t, (m'.space.item x.1).serverIndex = (m.server x.2.1).index := by
    intro x hx
    rw [he.item, hrestored.item x hx]
    rfl
  have hof : ∀ x ∈ t, m'.serverOfItem x.1 = some x.2.1 := by
    intro x hx
    rw [serverOfItem, hindexs, hidx x hx]
    exact hturn.servers _ (hserver x hx)
  have hserver' : ∀ s, m'.server s = m₁.server s := fun s => by rw [he.rest]
  refine ⟨?_, hT.disjoint, fun n hn => by rw [hdev]; exact (hT.bounds hn).2.1, fun g hg => ?_, fun a ha => ?_, fun s hs => ?_⟩
  · refine hT.disjoint.imp_of_mem fun {n k} hn _ hle => ?_
    have hpos := (hT.bounds hn).1
    omega
  · refine ⟨(hT.bounds hg).1, (hT.bounds hg).2.2, ?_⟩
    have hcases : .fblock g ∈ ps.flatMap Piece.nodes ∨
        g = f ∧ f ∈ m'.space.queue (ipbucketIndex (m'.space.fblock f).blockSize false).toNat := by
      rcases hcase with ⟨-, ho⟩ | ⟨-, ho, hq⟩
      · exact .inl (ho ▸ hg)
      · rw [ho, List.mem_append, List.mem_singleton, Node.fblock.injEq] at hg
        exact hg.imp_right fun hgf => ⟨hgf, hq⟩
    rcases hcases with hg | ⟨rfl, hq⟩
    · obtain ⟨p, hp, hgap⟩ := mem_nodes_fblock.mp hg
      obtain ⟨c, -, hlaid⟩ := forall₂_mem_left h.laid hp
      have hat := hlaid.gap
      rw [hgap] at hat
      obtain ⟨-, hg₁, hblock, hin⟩ := hat
      have hgf : g ≠ f := fun hgf => hlaid.apart (hgap.trans (congrArg some hgf))
      rw [he.fblock, hblock, he.frame.queue g hg₁ hgf]
      exact hin
    · exact hq
  · have hmem : a ∈ ps.map Piece.item := by
      rw [← hitems]
      exact List.mem_filterMap.mpr ⟨_, ha, rfl⟩
    obtain ⟨x, hx, rfl⟩ := (hentry a).mp hmem
    have hitem : m'.space.item x.1 = m.restoredItem d x.2.1 x.2.2 := by rw [he.item, hrestored.item x hx]
    refine ⟨?_, ?_, x.2.1, ?_, hof x hx, ?_, ?_⟩
    · rw [he.items, hrestored.items]
      exact .inr ⟨x, hx, rfl⟩
    · rw [Space.deviceOfItem, hitem, he.frame.same.deviceIndexs, h.frame.same.deviceIndexs]
      exact hturn.slot
    · rw [he.rest]
      exact hrestored.servers ▸ hserver x hx
    · obtain ⟨L, hL, hlive⟩ := hturn.hash x.2.1
      rw [show m'.hash = m₁.hash by rw [he.rest], (hrestored.hash x.2.1 L hL hlive).has_iff, hitem]
      exact List.mem_append_left _ (mem_loadedNodes.mpr ⟨x, hx, rfl, rfl⟩)
    · rw [show m'.lru = m₁.lru by rw [he.rest], serverLruHead, hserver', ← serverLruHead, hrestored.serverLruHead]
      exact htallied.listed x hx
  · have hs' : s ∈ m.servers := by
      rw [he.rest] at hs
      exact hrestored.servers ▸ hs
    have hlisted : m'.listedOf d s = (t.filter (·.2.1 = s)).map (·.1) := by
      rw [listedOf, hitems, ← hnew, List.filter_map]
      refine congrArg _ (List.filter_congr fun x hx => ?_)
      simp [hof x hx]
    have hsum : ∀ g : Nat → Nat, (t.filter (·.2.1 = s)).map (fun x => g (m'.space.item x.1).length) =
        (t.filter (·.2.1 = s)).map fun x => g x.2.2.length := fun g => List.map_congr_left fun x hx => by
      rw [he.item, hrestored.item x (List.mem_of_mem_filter hx)]
      rfl
    rw [hserver', hlisted, List.length_map, List.map_map, List.map_map]
    refine ⟨htallied.itemNr s, (htallied.content s).trans ?_, (htallied.consumed s).trans ?_⟩
    · exact congrArg _ (congrArg List.sum (hsum id).symm)
    · exact congrArg _ (congrArg List.sum (hsum ipbucketBlockSize).symm)

/-- **Only such records leave the device in order**, while there is memory. -/
theorem Pieces.cutsWell (hal : ∀ n k, (rt.al.get n k).isSome) (h : Pieces rt.al d f 0 [] l ps m m₁) (he : Ended d f m₁ m')
    (hlen : ∀ y ∈ l, y.2.length < 2 ^ 32) (hsub : (ps.flatMap Piece.nodes).Sublist (m'.space.order d)) (hin : InOrder d m m') :
    ∀ c ∈ cutsOf (m.space.device d).capacity 0 l, c.record.length ≠ 0 ∧ 512 ∣ c.record.place := by
  -- As many items as pieces.
  have hnodup : (ps.map Piece.item).Nodup := by
    rw [← nodes_items]
    refine List.pairwise_filterMap.mpr ((hin.sorted.sublist hsub).imp fun {n k} hlt a ha b hb hab => ?_)
    have hnode : ∀ {n : Node} {a : Nat}, n.item? = some a → n = .item a := by
      intro n a hn
      cases n <;> cases hn
      rfl
    rw [hnode ha, hnode hb, hab] at hlt
    exact Nat.lt_irrefl _ hlt
  have hentries : ps.map Piece.item ⊆ (entriesOf ps (cutsOf (m.space.device d).capacity 0 l)).map (·.1) := by
    intro a ha
    obtain ⟨hmem, -⟩ := hin.live a (hsub.subset (mem_nodes_item.mpr ha))
    obtain ⟨p, hp, rfl⟩ := List.mem_map.mp ha
    obtain ⟨c, -, hlaid⟩ := forall₂_mem_left h.laid hp
    rw [he.items, h.restored.items] at hmem
    obtain ⟨x, hx, hxa⟩ := hmem.resolve_left hlaid.fresh
    exact List.mem_map.mpr ⟨x, hx, hxa⟩
  have hcount := (List.subperm_of_subset hnodup hentries).length_le
  rw [List.length_map, List.length_map, h.laid.length_eq] at hcount
  have hsize := length_entriesOf hcount
  have haligned := (cutsOf_aligned hlen (Nat.dvd_zero 512)).mpr fun c hc => by
    obtain ⟨p, hp, hlaid⟩ := forall₂_mem_right h.laid hc
    have hat := hlaid.gap
    cases hgap : p.gap with
    | none =>
      rw [hgap] at hat
      rcases hat with heq | ⟨n, k, hno⟩
      · rw [← heq, Nat.sub_self]
        exact Nat.dvd_zero 512
      · have hsome := hal n k
        rw [hno] at hsome
        cases hsome
    | some g =>
      rw [hgap] at hat
      have hfree := (hin.free g (hsub.subset (mem_nodes_fblock.mpr ⟨p, hp, hgap⟩))).2.1
      rw [he.fblock, hat.2.2.1] at hfree
      exact hfree
  exact fun c hc => ⟨(size_ne_zero (hlen _ (mem_cutsOf hc))).mp (hsize c hc), haligned c hc⟩

end List

/-! ## The calls -/

section Calls

variable {rt : Runtime} {io : FormatIo} {d f : Nat} {image : Image} {m : Master}

/-- `format_load_device` comes to its end just if the records that it reads
are sound. -/
theorem formatLoadDevice_isSome (hturn : Turn d f m) :
    (m.formatLoadDevice rt io d image).isSome ↔ ∀ x ∈ recordsOn io image, m.SoundOn image x := by
  rw [formatLoadDevice_eq, recordsOn]
  split
  · exact ⟨fun _ => List.forall_mem_nil _, fun _ => rfl⟩
  unfold SoundOn
  cases hinfo : formatInfo image with
  | none => exact ⟨fun _ => List.forall_mem_nil _, fun _ => rfl⟩
  | some y =>
    obtain ⟨n, ports⟩ := y
    simp only [Option.elim_some]
    constructor
    · intro h x hx n' ports' heq
      cases heq
      obtain ⟨r, hr⟩ := Option.isSome_iff_exists.mp h
      obtain ⟨⟨all, m₁⟩, h₁, -⟩ := Option.bind_eq_some_iff.mp hr
      exact (loadItems_reads hturn.front h₁).2.1 x hx
    · intro h
      obtain ⟨⟨all, m₁⟩, h₁⟩ := loadItems_some hturn.front hturn.slot fun x hx => h x hx n ports rfl
      obtain ⟨t, its', front', -, hf, hframe, -⟩ := Restored.loadItems hturn.front h₁
      obtain ⟨_, _, hdev⟩ := hframe.same.device d
      obtain ⟨sp, hsp⟩ := deviceLoadPost_some hf (by rw [hframe.same.deviceIndexs, hdev]; exact hturn.slot)
      rw [loadAccepted, h₁]
      simp only [Option.bind_eq_bind, Option.bind_some]
      split
      · rfl
      · rw [hsp, Option.bind_some]
        split
        · rfl
        · rfl

theorem mem_pickedOn {y : Nat × FormatItem} (hy : y ∈ m.pickedOn io image) : y.2 ∈ recordsOn io image ∧ y.1 ∈ m.servers := by
  obtain ⟨x, hx, hxy⟩ := List.mem_filterMap.mp hy
  obtain ⟨s, hs, rfl⟩ := Option.map_eq_some_iff.mp hxy
  refine ⟨hx, ?_⟩
  obtain ⟨z, -, hs⟩ := Option.bind_eq_some_iff.mp hs
  rw [picks] at hs
  split at hs
  · cases hs
  · exact List.mem_of_find?_eq_some hs

end Calls

/-! ## Any image -/

/-- **What `format_load_device` makes of any image**, with reads that fail
anywhere. It comes to its end just if the records that it reads are sound.
Whatever the allocations give, the device is in order if all records can be
read and those that pass the checks have a length and begin at multiples of
512. While there is memory, it is in order just if the records do that
which find their place, and the remaining space is in the right queue. -/
theorem load_in_order_iff {rt : Runtime} {m : Master} {d f : Nat} (hturn : AtTurn rt d m) (hf : m.space.current d = some f)
    (io : FormatIo) (image : Image) :
    ((m.formatLoadDevice rt io d image).isSome ↔ ∀ x ∈ recordsOn io image, m.SoundOn image x) ∧
      ∀ ok image' m', m.formatLoadDevice rt io d image = some (ok, image', m') →
        (¬Torn io image → (∀ y ∈ m.pickedOn io image, y.2.length ≠ 0 ∧ 512 ∣ y.2.place) → InOrder d m m') ∧
          ((∀ n k, (rt.al.get n k).isSome) → (InOrder d m m' ↔ m.CutsWell d io image)) := by
  have hturn := hturn.turn hf
  refine ⟨formatLoadDevice_isSome hturn, fun ok image' m' h => ?_⟩
  obtain ⟨m₁, hloads, hend⟩ := formatLoadDevice_loads hturn.front h
  obtain ⟨l, ps, hsub, hall, hps⟩ := hloads.pieces hturn.front
  have hlen : ∀ y ∈ l, y.2.length < 2 ^ 32 := fun y hy => length_recordsOn (mem_pickedOn (hsub.subset hy)).1
  have hservers : ∀ y ∈ l, y.1 ∈ m.servers := fun y hy => (mem_pickedOn (hsub.subset hy)).2
  obtain ⟨_, _, hdev⟩ := hps.frame.same.device d
  have hcap : (m₁.space.device d).capacity = (m.space.device d).capacity := by rw [hdev]
  have hrest := hps.rest.size
  rw [hcap] at hrest
  have hlist := hps.order [] hturn.order
  rw [List.nil_append] at hlist
  rcases hend with ⟨-, rfl, htorn⟩ | ⟨htorn, sp, hpost, rfl⟩
  · -- The remaining space is where it was.
    have he : Ended d f m' m' := ⟨rfl, .refl .., rfl, rfl, rfl⟩
    have hqueue : ∀ i, f ∈ m'.space.queue i ↔ i = (ipbucketIndex (m.space.device d).capacity false).toNat :=
      fun i => (hps.queue f hturn.front.live i).trans (hturn.queued i)
    have hsize : (m'.space.fblock f).blockSize = (m.space.device d).capacity - cutEnd (m.space.device d).capacity 0 l := by
      omega
    have hcase : cutEnd (m.space.device d).capacity 0 l < (m.space.device d).capacity ∧
        (ipbucketIndex ((m.space.device d).capacity - cutEnd (m.space.device d).capacity 0 l) false).toNat =
          (ipbucketIndex (m.space.device d).capacity false).toNat →
        cutEnd (m.space.device d).capacity 0 l < (m.space.device d).capacity ∧
          m'.space.order d = ps.flatMap Piece.nodes ++ [.fblock f] ∧
          f ∈ m'.space.queue (ipbucketIndex (m'.space.fblock f).blockSize false).toNat :=
      fun hc => ⟨hc.1, hlist, (hqueue _).mpr (by rw [hsize, hc.2])⟩
    have hnil : m.pickedOn io image = [] → cutEnd (m.space.device d).capacity 0 l < (m.space.device d).capacity ∧
        (ipbucketIndex ((m.space.device d).capacity - cutEnd (m.space.device d).capacity 0 l) false).toNat =
          (ipbucketIndex (m.space.device d).capacity false).toNat := by
      intro hno
      rw [hno] at hsub
      rw [List.sublist_nil.mp hsub, cutEnd, Nat.sub_zero]
      exact ⟨hturn.positive, rfl⟩
    refine ⟨fun hread hfine => ?_, fun hal => ?_⟩
    · refine hps.inOrder hturn he hlen hservers (.inr (hcase (hnil (htorn.resolve_left hread)))) fun c hc => ?_
      exact hfine _ (hsub.subset (mem_cutsOf hc))
    · obtain rfl := hall hal
      constructor
      · intro hin
        refine ⟨hps.cutsWell hal he hlen (by rw [hlist]; exact List.sublist_append_left ..) hin, fun _ => ?_⟩
        obtain ⟨hpos, -, hq⟩ := hin.free f (by rw [hlist]; simp)
        rw [hqueue, hsize] at hq
        exact ⟨by omega, hq⟩
      · rintro ⟨hfine, hqueued⟩
        exact hps.inOrder hturn he hlen hservers (.inr (hcase (htorn.elim hqueued hnil))) hfine
  · obtain ⟨hframe, hitem, hitems⟩ := hps.rest.loadPost hpost
    obtain ⟨hfblock, hcase⟩ := hps.loadPost_order hturn.order hpost
    have he : Ended d f m₁ { m₁ with space := sp } := ⟨rfl, hframe, hitem, hitems, hfblock⟩
    rw [← hfblock] at hcase
    refine ⟨fun _ hfine => ?_, fun hal => ?_⟩
    · exact hps.inOrder hturn he hlen hservers hcase fun c hc => hfine _ (hsub.subset (mem_cutsOf hc))
    · obtain rfl := hall hal
      refine ⟨fun hin => ⟨hps.cutsWell hal he hlen ?_ hin, fun hread => absurd hread htorn⟩, fun hwell => ?_⟩
      · rcases hcase with ⟨-, ho⟩ | ⟨-, ho, -⟩
        · rw [ho]
        · rw [ho]
          exact List.sublist_append_left ..
      · exact hps.inOrder hturn he hlen hservers hcase hwell.1

/-- Two records, of which the second cannot be read: the item of the first
takes the end of the device, and the empty remaining space stays in the
list and in its queue. -/
theorem load_in_order_torn : ∃ m f io image ok image' m', AtTurn .plain 1 m ∧ m.space.current 1 = some f ∧
    recordsOn io image = [storedRecord 0] ∧ m.formatLoadDevice .plain io 1 image = some (ok, image', m') ∧
      ¬InOrder 1 m m' := by
  obtain ⟨m, hturn, hcurrent, ⟨hnow, hport⟩, hcap⟩ := started_turn
  have htyped : ∀ x ∈ [storedRecord 0, storedRecord 0], x.Typed := by
    intro x hx
    obtain rfl : x = storedRecord 0 := by simpa using hx
    constructor <;> simp only [storedRecord] <;> omega
  have hpad : [0, 0, 0, (0 : UInt8)].length = 4 := rfl
  obtain ⟨image, hstored⟩ : ∃ image, Stored (fun _ => 80) [storedRecord 0, storedRecord 0] (fun _ => 0) image :=
    ⟨_, dumpImage_stored (fun _ => 0) hpad (fun _ => hpad) (fun _ => by decide) htyped (by decide)⟩
  obtain ⟨p, hinfo, hp⟩ := hstored.info
  have hfirst : recordAt image 0 = storedRecord 0 := hstored.record 0 (by decide)
  have hrecords : recordsOn ⟨true, true, (· = 0), true⟩ image = [storedRecord 0] := by
    rw [recordsOn, hinfo, if_neg (by simp)]
    show readRecords _ image 2 0 = _
    simp [readRecords, hfirst]
  have hcheck : ¬((storedRecord 0).offset < toI64 (ohcFmInfoSize + 2 * formatItemSize) ∨ (storedRecord 0).expire ≤ m.now) := by
    have hover : ¬((1048064 : Int) < toI64 (ohcFmInfoSize + 2 * formatItemSize)) := by decide
    simp only [storedRecord]
    omega
  have hpicked : m.pickedOn ⟨true, true, (· = 0), true⟩ image = [(0, storedRecord 0)] := by
    have hpick : m.picksOn image (storedRecord 0) = some 0 := by
      rw [hstored.picksOn (show (0 : Int) < iptArraySize by decide)]
      show m.picks (toI64 (ohcFmInfoSize + 2 * formatItemSize)) _ _ = _
      rw [picks, if_neg hcheck]
      exact hport
    simp [pickedOn, hrecords, picked, hpick]
  obtain ⟨hsome, hload⟩ := load_in_order_iff hturn hcurrent ⟨true, true, (· = 0), true⟩ image
  obtain ⟨⟨ok, image', m'⟩, hresult⟩ := Option.isSome_iff_exists.mp (hsome.mpr fun x hx n ports heq => by
    rw [hrecords, List.mem_singleton] at hx
    cases hinfo.symm.trans heq
    rw [hx]
    refine fun _ => ?_
    simp only [storedRecord, Int.toNat_zero, hp 0 (by decide), iptArraySize]
    decide)
  refine ⟨m, 1, ⟨true, true, (· = 0), true⟩, image, ok, image', m', hturn, hcurrent, hrecords, hresult, fun hin => ?_⟩
  have hwell := ((hload ok image' m' hresult).2 fun _ _ => rfl).mp hin
  have hlt := (hwell.2 ⟨2, p, hinfo, 1, by decide, rfl⟩).1
  rw [hpicked, hcap] at hlt
  revert hlt
  decide

end Master

end OliveHc
